import Mender.Datum.Json
import Mender.Pattern.Template

/-! Literal notation of scripts: numbers, strings, bytes, tuples, lists, sets and dictionaries.
Anything else, a name or a call for instance, is refused. -/
namespace Mender.Literal
open Text

/-- A literal expression before its value is taken. -/
inductive Expr where
  | value (d : Datum)
  | sign (negative : Bool) (e : Expr)
  | sum (negative : Bool) (a b : Expr)
  | tuple (es : List Expr)
  | list (es : List Expr)
  | set (es : List Expr)
  | dict (es : List (Expr × Expr))
  | setName
  | emptySet

def number? : Expr → Option Datum
  | .value (.int i) => some (.int i)
  | .value (.float x) => some (.float x)
  | .value (.complex a b) => some (.complex a b)
  | _ => none

def negate : Datum → Datum
  | .int i => .int (-i)
  | .float x => .float (-x)
  | .complex a b => .complex (-a) (-b)
  | d => d

def signed? : Expr → Option Datum
  | .sign negative e => (number? e).map fun d => if negative then negate d else d
  | e => number? e

def complexSum? (negative : Bool) : Datum → Datum → Option Datum
  | .int i, .complex a b =>
    let x := Float.ofInt i
    some (if negative then .complex (x - a) (-b) else .complex (x + a) b)
  | .float x, .complex a b =>
    some (if negative then .complex (x - a) (-b) else .complex (x + a) b)
  | _, _ => none

mutual
def eval? : Expr → Option Datum
  | .value d => some d
  | .sign negative e => signed? (.sign negative e)
  | .sum negative a b =>
    match signed? a, number? b with
    | some x, some y => complexSum? negative x y
    | _, _ => none
  | .tuple es => (evalAll? es).map .tuple
  | .list es => (evalAll? es).map .list
  | .set es =>
    match evalAll? es with
    | some xs => if Datum.areKeys xs then some (.ofMembers xs) else none
    | none => none
  | .dict es =>
    match evalEntries? es with
    | some entries =>
      if entries.all fun e => e.1.isKey then some (.ofEntries entries) else none
    | none => none
  | .setName => none
  | .emptySet => some (.set [])

def evalAll? : List Expr → Option (List Datum)
  | [] => some []
  | e :: es =>
    match eval? e, evalAll? es with
    | some x, some xs => some (x :: xs)
    | _, _ => none

def evalEntries? : List (Expr × Expr) → Option (List (Datum × Datum))
  | [] => some []
  | (k, v) :: es =>
    match eval? k, eval? v, evalEntries? es with
    | some x, some y, some xs => some ((x, y) :: xs)
    | _, _, _ => none
end

/-- The rest behind blanks and comments; line feeds are passed only inside brackets. -/
def skipBlanks (inside : Bool) : List Char → List Char
  | [] => []
  | '\\' :: '\n' :: c :: cs => skipBlanks inside (c :: cs)
  | c :: cs =>
    if c == ' ' || c == '\t' || c == '\x0c' || (inside && c == '\n') then skipBlanks inside cs
    else if c == '#' then skipComment inside cs
    else c :: cs
where
  skipComment (inside : Bool) : List Char → List Char
    | [] => []
    | '\n' :: cs => if inside then skipBlanks inside cs else '\n' :: cs
    | _ :: cs => skipComment inside cs

def isNameChar (c : Char) : Bool := isWord c

/-- Digits of a base with single underscores between them: the digits, and the rest. -/
def digitPart (isDigit : Char → Bool) : List Char → List Char × List Char
  | [] => ([], [])
  | c :: cs =>
    if isDigit c then
      let (ds, rest) := digitPart isDigit cs
      (c :: ds, rest)
    else if c == '_' then
      match cs with
      | d :: _ =>
        if isDigit d then digitPart isDigit cs else ([], c :: cs)
      | [] => ([], [c])
    else ([], c :: cs)

def baseValue (base : Nat) (ds : List Char) : Nat :=
  ds.foldl (fun n c => base * n + (Json.hexValue? c).getD 0) 0

def prefixed (base : Nat) (isDigit : Char → Bool) (rest : List Char) : Option (Datum × List Char) :=
  let rest := match rest with
    | '_' :: more => more
    | _ => rest
  match rest with
  | c :: _ =>
    if isDigit c then
      let (ds, after) := digitPart isDigit rest
      some (.int (baseValue base ds), after)
    else none
  | [] => none

def decimalPart (cs : List Char) : List Char × List Char :=
  match cs with
  | c :: _ => if c.isDigit then digitPart Char.isDigit cs else ([], cs)
  | [] => ([], [])

def exponent? : List Char → Option (Int × List Char)
  | e :: rest =>
    if e == 'e' || e == 'E' then
      let (negative, after) := match rest with
        | '+' :: after => (false, after)
        | '-' :: after => (true, after)
        | after => (false, after)
      let (ds, after) := decimalPart after
      if ds.isEmpty then none
      else
        let n : Int := digitsValue ds
        some (if negative then -n else n, after)
    else none
  | [] => none

def decimal (cs : List Char) : Option (Datum × List Char) :=
  let (whole, rest) := decimalPart cs
  let (point, fraction, rest) := match rest with
    | '.' :: more =>
      let (fraction, after) := decimalPart more
      (true, fraction, after)
    | _ => (false, [], rest)
  if whole.isEmpty && fraction.isEmpty then none
  else
    let (scaled, power, rest) := match exponent? rest with
      | some (e, after) => (true, e, after)
      | none => (false, 0, rest)
    let real := Number.ofDecimal (digitsValue (whole ++ fraction)) (power - fraction.length)
    match rest with
    | 'j' :: after => some (.complex 0.0 real, after)
    | 'J' :: after => some (.complex 0.0 real, after)
    | _ =>
      if point || scaled then some (.float real, rest)
      else if whole.length ≤ 4300 && (whole.head? != some '0' || whole.all (· == '0')) then
        some (.int (digitsValue whole), rest)
      else none

def numberAt (cs : List Char) : Option (Datum × List Char) :=
  let found := match cs with
    | '0' :: c :: rest =>
      if c == 'x' || c == 'X' then prefixed 16 (fun d => (Json.hexValue? d).isSome) rest
      else if c == 'o' || c == 'O' then prefixed 8 Pattern.isOctal rest
      else if c == 'b' || c == 'B' then prefixed 2 (fun d => d == '0' || d == '1') rest
      else decimal cs
    | _ => decimal cs
  match found with
  | some (d, c :: rest) => if isNameChar c then none else some (d, c :: rest)
  | r => r

/-- The characters of a string up to its closing quotes, and the rest. A backslash protects the next
character; without three quotes a line feed has to be protected. -/
def body (quote : Char) (triple : Bool) : List Char → Option (List Char × List Char)
  | [] => none
  | '\\' :: c :: cs => (body quote triple cs).map fun (b, rest) => ('\\' :: c :: b, rest)
  | c :: cs =>
    if c == quote then
      if triple then
        match cs with
        | d :: e :: rest =>
          if d == quote && e == quote then some ([], rest)
          else (body quote triple cs).map fun (b, rest) => (c :: b, rest)
        | _ => (body quote triple cs).map fun (b, rest) => (c :: b, rest)
      else some ([], cs)
    else if c == '\n' && !triple then none
    else if c == '\\' then none
    else (body quote triple cs).map fun (b, rest) => (c :: b, rest)

def hexAt (n : Nat) (cs : List Char) : Option (Nat × List Char) :=
  if (cs.take n).length = n then (Json.hexDigits? (cs.take n)).map fun v => (v, cs.drop n) else none

/-- The code of a character after a backslash, where it stands for another one. -/
def escapeCode? (c : Char) : Option Nat :=
  match c with
  | '\\' => some 92
  | '\'' => some 39
  | '"' => some 34
  | 'a' => some 7
  | 'b' => some 8
  | 'f' => some 12
  | 'n' => some 10
  | 'r' => some 13
  | 't' => some 9
  | 'v' => some 11
  | _ => none

section Reading
-- The characters by their names. The table of them is not a matter of the notation.
variable (named : String → Option Char)

def namedAt (cs : List Char) : Option (Nat × List Char) :=
  match cs with
  | '\x7b' :: rest =>
    let name := rest.takeWhile (· != '\x7d')
    match name, rest.drop name.length with
    | _ :: _, _ :: after => (named (String.ofList name)).map fun c => (c.toNat, after)
    | _, _ => none
  | _ => none

/-- The codes of a string's characters with its escapes resolved; escapes of code points and names
of characters are for texts only. `fuel` bounds the number of steps. -/
def unescape (isText : Bool) : Nat → List Char → Option (List Nat)
  | 0, _ => some []
  | _, [] => some []
  | fuel + 1, '\\' :: c :: cs =>
    let code (n : Nat) (rest : List Char) := (unescape isText fuel rest).map (n :: ·)
    if c == '\n' then unescape isText fuel cs
    else match escapeCode? c with
      | some n => code n cs
      | none =>
        if Pattern.isOctal c then
          let more := (cs.take 2).takeWhile Pattern.isOctal
          let n := Pattern.octalValue (c :: more)
          code (if isText then n else n % 256) (cs.drop more.length)
        else if c == 'x' then (hexAt 2 cs).bind fun (n, rest) => code n rest
        else if isText && c == 'u' then (hexAt 4 cs).bind fun (n, rest) => code n rest
        else if isText && c == 'U' then
          (hexAt 8 cs).bind fun (n, rest) => if n < 0x110000 then code n rest else none
        else if isText && c == 'N' then (namedAt named cs).bind fun (n, rest) => code n rest
        else (code c.toNat cs).map (92 :: ·)
  | fuel + 1, c :: cs => (unescape isText fuel cs).map (c.toNat :: ·)

def quotedAt (raw isText : Bool) (cs : List Char) : Option (Datum × List Char) :=
  match cs with
  | [] => none
  | q :: rest =>
    let (triple, rest) := match rest with
      | a :: b :: more => if a == q && b == q then (true, more) else (false, rest)
      | _ => (false, rest)
    match body q triple rest with
    | none => none
    | some (chars, after) =>
      if !isText && chars.any (fun c => 128 ≤ c.toNat) then none
      else
        let codes := if raw then some (chars.map Char.toNat)
          else unescape named isText (chars.length + 1) chars
        codes.map fun ns => (if isText then .ofCodes ns else .bytes ns, after)

/-- The prefixes of strings: whether backslashes stand for themselves, and whether the string is a
text. -/
def stringPrefixes : List (String × Bool × Bool) :=
  [("", false, true), ("u", false, true), ("r", true, true), ("b", false, false),
   ("br", true, false), ("rb", true, false)]

def stringAt (cs : List Char) : Option (Datum × List Char) :=
  let name := cs.takeWhile isNameChar
  let rest := cs.dropWhile isNameChar
  match rest with
  | q :: _ =>
    if q == '"' || q == '\'' then
      match stringPrefixes.lookup (lower (String.ofList name)) with
      | some (raw, isText) => quotedAt named raw isText rest
      | none => none
    else none
  | [] => none

def append? : Datum → Datum → Option Datum
  | .text a, .text b => some (.text (a ++ b))
  | .bytes a, .bytes b => some (.bytes (a ++ b))
  | a, b =>
    match a.codes?, b.codes? with
    | some m, some n => some (.torn (m ++ n))
    | _, _ => none

/-- Further strings after a string; they are joined to it. `fuel` bounds their number. -/
def stringsAfter (inside : Bool) : Nat → Datum → List Char → Option (Datum × List Char)
  | 0, d, cs => some (d, cs)
  | fuel + 1, d, cs =>
    match stringAt named (skipBlanks inside cs) with
    | none => some (d, cs)
    | some (e, rest) => (append? d e).bind fun de => stringsAfter inside fuel de rest

def beginsString (cs : List Char) : Bool :=
  match cs.dropWhile isNameChar with
  | q :: _ => q == '"' || q == '\''
  | [] => false

def maxOpen : Nat := 200

mutual
/-- Reads a sum. `fuel` bounds the steps, `opened` counts the brackets around. -/
def readSum : Nat → Nat → List Char → Option (Expr × List Char)
  | 0, _, _ => none
  | fuel + 1, opened, cs =>
    match readSigned fuel opened cs with
    | none => none
    | some (e, rest) => readSumRest fuel opened e rest

def readSumRest : Nat → Nat → Expr → List Char → Option (Expr × List Char)
  | 0, _, _, _ => none
  | fuel + 1, opened, e, cs =>
    match skipBlanks (0 < opened) cs with
    | '+' :: rest =>
      match readSigned fuel opened rest with
      | none => none
      | some (f, rest) => readSumRest fuel opened (.sum false e f) rest
    | '-' :: rest =>
      match readSigned fuel opened rest with
      | none => none
      | some (f, rest) => readSumRest fuel opened (.sum true e f) rest
    | _ => some (e, cs)

def readSigned : Nat → Nat → List Char → Option (Expr × List Char)
  | 0, _, _ => none
  | fuel + 1, opened, cs =>
    match skipBlanks (0 < opened) cs with
    | '+' :: rest => (readSigned fuel opened rest).map fun (e, rest) => (.sign false e, rest)
    | '-' :: rest => (readSigned fuel opened rest).map fun (e, rest) => (.sign true e, rest)
    | rest =>
      match readAtom fuel opened rest with
      | none => none
      | some (e, rest) =>
        match skipBlanks (0 < opened) rest with
        | '(' :: after =>
          match e, skipBlanks true after with
          | .setName, ')' :: after => some (.emptySet, after)
          | _, _ => none
        | _ => some (e, rest)

def readAtom : Nat → Nat → List Char → Option (Expr × List Char)
  | 0, _, _ => none
  | fuel + 1, opened, cs =>
    match cs with
    | [] => none
    | '(' :: rest =>
      if maxOpen ≤ opened then none
      else
        match readItems fuel (opened + 1) ')' [] rest with
        | none => none
        | some (es, comma, rest) =>
          match es, comma with
          | [e], false => some (e, rest)
          | es, _ => some (.tuple es, rest)
    | '[' :: rest =>
      if maxOpen ≤ opened then none
      else (readItems fuel (opened + 1) ']' [] rest).map fun (es, _, rest) => (.list es, rest)
    | '\x7b' :: rest =>
      if maxOpen ≤ opened then none
      else
        match skipBlanks true rest with
        | '\x7d' :: rest => some (.dict [], rest)
        | rest =>
          match readSum fuel (opened + 1) rest with
          | none => none
          | some (e, rest) =>
            match skipBlanks true rest with
            | ':' :: rest => readValue fuel (opened + 1) e [] rest
            | ',' :: rest =>
              (readItems fuel (opened + 1) '\x7d' [e] rest).map fun (es, _, rest) =>
                (.set es, rest)
            | '\x7d' :: rest => some (.set [e], rest)
            | _ => none
    | c :: rest =>
      if c == '.' && rest.take 2 == ['.', '.'] then some (.value .ellipsis, rest.drop 2)
      else if c.isDigit || c == '.' then (numberAt cs).map fun (d, rest) => (.value d, rest)
      else if beginsString cs then
        (stringAt named cs).bind fun (d, rest) =>
          (stringsAfter named (0 < opened) cs.length d rest).map fun (d, rest) => (.value d, rest)
      else
        let after := cs.dropWhile isNameChar
        match String.ofList (cs.takeWhile isNameChar) with
        | "True" => some (.value (.bool true), after)
        | "False" => some (.value (.bool false), after)
        | "None" => some (.value .null, after)
        | "set" => some (.setName, after)
        | _ => none

/-- Reads expressions up to a closing bracket, those read given last first; says whether there was a
comma. -/
def readItems : Nat → Nat → Char → List Expr → List Char → Option (List Expr × Bool × List Char)
  | 0, _, _, _, _ => none
  | fuel + 1, opened, close, acc, cs =>
    match skipBlanks true cs with
    | [] => none
    | c :: rest =>
      if c == close then
        if acc.isEmpty then some ([], false, rest) else some (acc.reverse, true, rest)
      else
        match readSum fuel opened (c :: rest) with
        | none => none
        | some (e, rest) =>
          match skipBlanks true rest with
          | ',' :: rest => readItems fuel opened close (e :: acc) rest
          | c :: rest =>
            if c == close then some ((e :: acc).reverse, !acc.isEmpty, rest) else none
          | [] => none

/-- Reads the value of a key of a dictionary, and the entries after it; those before are given last
first. -/
def readValue : Nat → Nat → Expr → List (Expr × Expr) → List Char → Option (Expr × List Char)
  | 0, _, _, _, _ => none
  | fuel + 1, opened, k, acc, cs =>
    match readSum fuel opened cs with
    | none => none
    | some (v, rest) =>
      match skipBlanks true rest with
      | ',' :: rest => readEntries fuel opened ((k, v) :: acc) rest
      | '\x7d' :: rest => some (.dict ((k, v) :: acc).reverse, rest)
      | _ => none

/-- Reads further entries of a dictionary up to its end, those read given last first. -/
def readEntries : Nat → Nat → List (Expr × Expr) → List Char → Option (Expr × List Char)
  | 0, _, _, _ => none
  | fuel + 1, opened, acc, cs =>
    match skipBlanks true cs with
    | '\x7d' :: rest => some (.dict acc.reverse, rest)
    | rest =>
      match readSum fuel opened rest with
      | none => none
      | some (k, rest) =>
        match skipBlanks true rest with
        | ':' :: rest => readValue fuel opened k acc rest
        | _ => none
end

def readTop : Nat → List Expr → List Char → Option (Expr × List Char)
  | 0, _, _ => none
  | fuel + 1, acc, cs =>
    match readSum named (4 * cs.length + 4) 0 cs with
    | none => none
    | some (e, rest) =>
      match skipBlanks false rest with
      | ',' :: rest =>
        match skipBlanks false rest with
        | [] => some (.tuple (e :: acc).reverse, [])
        | '\n' :: rest => some (.tuple (e :: acc).reverse, rest)
        | rest => readTop fuel (e :: acc) rest
      | [] => some (if acc.isEmpty then e else .tuple (e :: acc).reverse, [])
      | '\n' :: rest => some (if acc.isEmpty then e else .tuple (e :: acc).reverse, rest)
      | _ => none

end Reading

def skipBlankLines : Nat → List Char → List Char
  | 0, cs => cs
  | fuel + 1, cs =>
    match skipBlanks false cs with
    | '\n' :: rest => skipBlankLines fuel rest
    | [] => []
    | _ => cs

/-- The number of blanks before the first token of a line; a form feed counts anew. -/
def indent (n : Nat) : List Char → Nat
  | ' ' :: cs => indent (n + 1) cs
  | '\t' :: cs => indent (n + 1) cs
  | '\x0c' :: cs => indent 0 cs
  | '\\' :: '\n' :: cs => indent n cs
  | _ => n

/-- Whether only lines of blanks and comments follow. A last line that is indented and holds nothing
else is refused. -/
def onlyBlankLines (cs : List Char) : Bool :=
  let last := (cs.reverse.takeWhile (· != '\n')).reverse
  let indented := (last.all fun c => c == ' ' || c == '\t' || c == '\x0c') && indent 0 last != 0
  (skipBlankLines (cs.length + 1) cs).isEmpty && !indented

def feeds : List Char → List Char
  | [] => []
  | '\r' :: '\n' :: cs => '\n' :: feeds cs
  | '\r' :: cs => '\n' :: feeds cs
  | c :: cs => c :: feeds cs

/-- The value of a literal; nothing if the text is not one. `named` finds characters by their
names. -/
def parse? (s : String) (named : String → Option Char := fun _ => none) : Option Datum :=
  let cs := feeds (s.toList.dropWhile fun c => c == ' ' || c == '\t')
  if cs.contains '\x00' then none
  else
    let start := skipBlankLines (cs.length + 1) cs
    match start with
    | [] => none
    | _ =>
      if indent 0 start != 0 then none
      else
        match readTop named (cs.length + 1) [] start with
        | none => none
        | some (e, rest) =>
          if onlyBlankLines rest then eval? e else none

end Mender.Literal
