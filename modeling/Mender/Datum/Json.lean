import Mender.Datum.Basic
import Mender.Fault

/-! JSON: reading a text and writing data. The special numbers `NaN`, `Infinity` and `-Infinity` are
read, control characters inside strings are not. -/
namespace Mender.Json
open Text

/-- Why a text is not JSON, and the position where that shows. -/
structure Error where
  reason : String
  pos : Nat
  deriving Repr, DecidableEq

def isLayout (c : Char) : Bool := c == ' ' || c == '\t' || c == '\n' || c == '\r'

/-- A place in a text: its position and the characters after it. -/
structure Place where
  pos : Nat
  rest : List Char

def Place.skip (p : Place) (n : Nat) : Place := ⟨p.pos + n, p.rest.drop n⟩

def Place.layout (p : Place) : Place := p.skip (p.rest.takeWhile isLayout).length

def hexValue? (c : Char) : Option Nat :=
  if c.isDigit then some (c.toNat - 48)
  else if 'a' ≤ c && c ≤ 'f' then some (c.toNat - 87)
  else if 'A' ≤ c && c ≤ 'F' then some (c.toNat - 55)
  else none

def hexDigits? (cs : List Char) : Option Nat :=
  cs.foldl (fun n c => n.bind fun n => (hexValue? c).map (16 * n + ·)) (some 0)

def simpleEscape? (c : Char) : Option Char :=
  match c with
  | '"' => some '"'
  | '\\' => some '\\'
  | '/' => some '/'
  | 'b' => some '\x08'
  | 'f' => some '\x0c'
  | 'n' => some '\n'
  | 'r' => some '\r'
  | 't' => some '\t'
  | _ => none

/-- The second half of a pair of code units, if an escape for one follows with something behind
it. -/
def lowUnit (rest : List Char) : Except Unit (Option Nat) :=
  match rest with
  | '\\' :: 'u' :: a :: b :: c :: d :: _ :: _ =>
    match hexDigits? [a, b, c, d] with
    | none => .error ()
    | some n => .ok (if 0xdc00 ≤ n ∧ n < 0xe000 then some n else none)
  | _ => .ok none

/-- Reads a string behind its opening quote, which stands at `start`. Its codes are collected last
first; a half of a pair that has no other half stays. `fuel` bounds the number of steps. -/
def readString (start : Nat) : Nat → List Nat → Place → Except Error (Datum × Place)
  | 0, _, _ => .error ⟨"Unterminated string starting at", start⟩
  | fuel + 1, acc, p =>
    match p.rest with
    | [] => .error ⟨"Unterminated string starting at", start⟩
    | '"' :: _ => .ok (.ofCodes acc.reverse, p.skip 1)
    | '\\' :: [] => .error ⟨"Unterminated string starting at", start⟩
    | '\\' :: 'u' :: a :: b :: c :: d :: next :: after =>
      match hexDigits? [a, b, c, d] with
      | none => .error ⟨"Invalid \\uXXXX escape", p.pos + 1⟩
      | some n =>
        if 0xd800 ≤ n ∧ n < 0xdc00 then
          match lowUnit (next :: after) with
          | .error _ => .error ⟨"Invalid \\uXXXX escape", p.pos + 7⟩
          | .ok (some low) =>
            readString start fuel ((0x10000 + (n - 0xd800) * 0x400 + (low - 0xdc00)) :: acc)
              (p.skip 12)
          | .ok none => readString start fuel (n :: acc) (p.skip 6)
        else readString start fuel (n :: acc) (p.skip 6)
    | '\\' :: 'u' :: _ => .error ⟨"Invalid \\uXXXX escape", p.pos + 1⟩
    | '\\' :: c :: _ =>
      match simpleEscape? c with
      | some x => readString start fuel (x.toNat :: acc) (p.skip 2)
      | none => .error ⟨"Invalid \\escape", p.pos⟩
    | c :: _ =>
      if c.toNat < 0x20 then .error ⟨"Invalid control character at", p.pos⟩
      else readString start fuel (c.toNat :: acc) (p.skip 1)

def leadingDigits (cs : List Char) : List Char := cs.takeWhile Char.isDigit

def exponentPart (cs : List Char) : Option (Nat × Int) :=
  match cs with
  | e :: rest =>
    if e == 'e' || e == 'E' then
      let (signs, negative, after) := match rest with
        | '+' :: after => (1, false, after)
        | '-' :: after => (1, true, after)
        | after => (0, false, after)
      let ds := leadingDigits after
      if ds.isEmpty then none
      else
        let n : Int := digitsValue ds
        some (1 + signs + ds.length, if negative then -n else n)
    else none
  | [] => none

def wholeDigits (cs : List Char) : List Char :=
  match cs with
  | '0' :: _ => ['0']
  | _ => leadingDigits cs

def fractionDigits (cs : List Char) : List Char :=
  match cs with
  | '.' :: rest => leadingDigits rest
  | _ => []

/-- A number at a place, given its sign and what follows it: a whole number, or one with a fraction
or an exponent. -/
def numberFrom (p : Place) (negative : Bool) (body : List Char) : Except Error (Datum × Place) :=
  let ds := wholeDigits body
  if ds.isEmpty then .error ⟨"Expecting value", p.pos⟩
  else
    let after := body.drop ds.length
    let fraction := fractionDigits after
    let after := if fraction.isEmpty then after else after.drop (fraction.length + 1)
    let exponent := exponentPart after
    let size := (if negative then 1 else 0) + ds.length +
      (if fraction.isEmpty then 0 else fraction.length + 1) + (exponent.map (·.1)).getD 0
    if fraction.isEmpty && exponent.isNone then
      if ds.length ≤ 4300 then
        let n : Int := digitsValue ds
        .ok (.int (if negative then -n else n), p.skip size)
      else .error ⟨(Fault.tooManyDigits ds.length).message, p.pos⟩
    else
      let x := Number.ofDecimal (digitsValue (ds ++ fraction))
        ((exponent.map (·.2)).getD 0 - fraction.length)
      .ok (.float (if negative then -x else x), p.skip size)

def readNumber (p : Place) : Except Error (Datum × Place) :=
  match p.rest with
  | '-' :: rest => numberFrom p true rest
  | rest => numberFrom p false rest

def words : List (String × Datum) :=
  [("null", .null), ("true", .bool true), ("false", .bool false), ("NaN", .float (0.0 / 0.0)),
   ("Infinity", .float (1.0 / 0.0)), ("-Infinity", .float (-1.0 / 0.0))]

def readWord? (p : Place) : Option (Datum × Place) :=
  (words.find? fun w => w.1.toList.isPrefixOf p.rest).map fun w =>
    (w.2, p.skip w.1.toList.length)

/-- The depth of nesting that is read where nothing else is said. How deep a text may be nested
depends on how deep the calls are that lead to its reader, so the reader is told. -/
def maxDepth : Nat := 989

mutual
/-- Reads a value. `fuel` bounds the number of steps and `depth` the nesting still allowed. -/
def readValue : Nat → Nat → Place → Except Error (Datum × Place)
  | 0, _, p => .error ⟨"Expecting value", p.pos⟩
  | fuel + 1, depth, p =>
    match p.rest with
    | [] => .error ⟨"Expecting value", p.pos⟩
    | '"' :: _ =>
      readString p.pos (p.rest.length + 1) [] (p.skip 1)
    | '\x7b' :: _ =>
      match depth with
      | 0 => .error ⟨"Nesting too deep", p.pos⟩
      | depth + 1 =>
        let q := (p.skip 1).layout
        match q.rest with
        | '\x7d' :: _ => .ok (.dict [], q.skip 1)
        | _ => readMembers fuel depth [] q
    | '[' :: _ =>
      match depth with
      | 0 => .error ⟨"Nesting too deep", p.pos⟩
      | depth + 1 =>
        let q := (p.skip 1).layout
        match q.rest with
        | ']' :: _ => .ok (.list [], q.skip 1)
        | _ => readItems fuel depth [] q
    | _ =>
      match readWord? p with
      | some r => .ok r
      | none => readNumber p

/-- Reads the members of an object up to its end; those read are given last first. -/
def readMembers : Nat → Nat → List (Datum × Datum) → Place → Except Error (Datum × Place)
  | 0, _, _, p => .error ⟨"Expecting value", p.pos⟩
  | fuel + 1, depth, acc, p =>
    match p.rest with
    | '"' :: _ =>
      match readString p.pos (p.rest.length + 1) [] (p.skip 1) with
      | .error e => .error e
      | .ok (key, q) =>
        let q := q.layout
        match q.rest with
        | ':' :: _ =>
          match readValue fuel depth (q.skip 1).layout with
          | .error e => .error e
          | .ok (v, r) =>
            let r := r.layout
            let acc := (key, v) :: acc
            match r.rest with
            | '\x7d' :: _ => .ok (.ofEntries acc.reverse, r.skip 1)
            | ',' :: _ => readMembers fuel depth acc (r.skip 1).layout
            | _ => .error ⟨"Expecting ',' delimiter", r.pos⟩
        | _ => .error ⟨"Expecting ':' delimiter", q.pos⟩
    | _ => .error ⟨"Expecting property name enclosed in double quotes", p.pos⟩

/-- Reads the items of an array up to its end; those read are given last first. -/
def readItems : Nat → Nat → List Datum → Place → Except Error (Datum × Place)
  | 0, _, _, p => .error ⟨"Expecting value", p.pos⟩
  | fuel + 1, depth, acc, p =>
    match readValue fuel depth p with
    | .error e => .error e
    | .ok (v, q) =>
      let q := q.layout
      match q.rest with
      | ']' :: _ => .ok (.list (v :: acc).reverse, q.skip 1)
      | ',' :: _ => readItems fuel depth (v :: acc) (q.skip 1).layout
      | _ => .error ⟨"Expecting ',' delimiter", q.pos⟩
end

def parse (s : String) (depth : Nat := maxDepth) : Except Error Datum :=
  let cs := s.toList
  if cs.head? = some '\ufeff' then .error ⟨"Unexpected UTF-8 BOM (decode using utf-8-sig)", 0⟩
  else
    match readValue (2 * cs.length + 2) depth (Place.layout ⟨0, cs⟩) with
    | .error e => .error e
    | .ok (d, p) =>
      let p := p.layout
      if p.rest.isEmpty then .ok d else .error ⟨"Extra data", p.pos⟩

def Error.message (e : Error) (s : String) : String :=
  let before := s.toList.take e.pos
  let line := before.count '\n' + 1
  let column := (before.reverse.takeWhile (· != '\n')).length + 1
  s!"{e.reason}: line {line} column {column} (char {e.pos})"

def unitEscape (n : Nat) : String :=
  let digits := Nat.toDigits 16 n
  "\\u" ++ replicate (4 - digits.length) '0' ++ String.ofList digits

def charText (c : Char) : String :=
  match c with
  | '"' => "\\\""
  | '\\' => "\\\\"
  | '\n' => "\\n"
  | '\r' => "\\r"
  | '\t' => "\\t"
  | '\x0c' => "\\f"
  | '\x08' => "\\b"
  | c =>
    let n := c.toNat
    if 32 ≤ n ∧ n < 127 then String.singleton c
    else if n < 0x10000 then unitEscape n
    else unitEscape (0xd800 + (n - 0x10000) / 0x400) ++ unitEscape (0xdc00 + (n - 0x10000) % 0x400)

def stringText (s : String) : String := "\"" ++ String.join (s.toList.map charText) ++ "\""

def codeText (n : Nat) : String :=
  if n.isValidChar then charText (Char.ofNat n) else unitEscape n

def codesText (codes : List Nat) : String := "\"" ++ String.join (codes.map codeText) ++ "\""

def floatText (x : Float) : String :=
  if x.isNaN then "NaN"
  else if x.isInf then if x < 0.0 then "-Infinity" else "Infinity"
  else Number.floatText x

def keyText : Datum → String
  | .text s => stringText s
  | .torn codes => codesText codes
  | .int i => stringText (toString i)
  | .float x => stringText (floatText x)
  | .bool b => stringText (if b then "true" else "false")
  | _ => stringText "null"

mutual
def render : Datum → String
  | .null => "null"
  | .bool b => if b then "true" else "false"
  | .int i => toString i
  | .float x => floatText x
  | .text s => stringText s
  | .torn codes => codesText codes
  | .list xs => "[" ++ join ", " (renderItems xs) ++ "]"
  | .tuple xs => "[" ++ join ", " (renderItems xs) ++ "]"
  | .dict es => "\x7b" ++ join ", " (renderEntries es) ++ "\x7d"
  | _ => "null"

def renderItems : List Datum → List String
  | [] => []
  | x :: xs => render x :: renderItems xs

def renderEntries : List (Datum × Datum) → List String
  | [] => []
  | (k, v) :: es => (keyText k ++ ": " ++ render v) :: renderEntries es
end

end Mender.Json
