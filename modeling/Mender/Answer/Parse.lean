import Mender.Datum.Literal
import Mender.Fault

/-! Reading the data of an answer. Strict JSON comes first; after it literal notation and several
forms that models produce when they miss the format are tried in turn. -/
namespace Mender.Answer
open Text

/-- The number of characters before the quote that closes a string. A backslash protects the next
character. -/
def closingQuote? : List Char → Option Nat
  | [] => none
  | '\\' :: _ :: cs => (closingQuote? cs).map (· + 2)
  | c :: cs => if c == '"' then some 0 else (closingQuote? cs).map (· + 1)

/-- The position of the quote that closes a string whose text begins at `start`. A negative start
counts from the end, and the text is read on from its beginning. -/
def stringEnd (s : String) (start : Int) : Except Fault (Option Int) :=
  let cs := s.toList
  if 0 ≤ start then .ok ((closingQuote? (cs.drop start.toNat)).map fun n => start + n)
  else if start.natAbs ≤ cs.length then
    let fromEnd := cs.drop (cs.length - start.natAbs)
    .ok ((closingQuote? (fromEnd ++ cs)).map fun n => start + n)
  else .error .outOfText

def requoted (s : String) : String :=
  replace (replace (replace s "\r\n" "\\n") "\n" "\\n") "'" "\""

def oldField : Pattern := .read "\"old\"\\s*:\\s*\"((?:[^\"]|\\\\\")*?)\""

def newField : Pattern := .read "\"new\"\\s*:\\s*\"((?:[^\"]|\\\\\")*?)\""

def unescaped (s : String) : String := replace (replace s "\\\"" "\"") "\\n" "\n"

def fields? (s : String) : Option Datum :=
  match oldField.search s, newField.search s with
  | some old, some new => some (.replacement (unescaped (old.group 1)) (unescaped (new.group 1)))
  | _, _ => none

def fence : Pattern := .read "```(?:json)?\\s*([\\s\\S]*?)```"

def fenced? (s : String) : Option String := (fence.search s).map fun m => trim (m.group 1)

def plainObject : Pattern :=
  .read "\\\x7b\\s*\"old\"\\s*:\\s*\"([^\"]+)\"\\s*,\\s*\"new\"\\s*:\\s*\"([^\"]+)\"\\s*\\\x7d"

def plain? (s : String) : Option Datum :=
  (plainObject.search s).map fun m => .replacement (m.group 1) (m.group 2)

/-- The position behind the next occurrence of a piece; zero if there is none. -/
def behind (s piece : String) (start : Nat) : Nat :=
  match findFrom? s piece start with
  | some i => i + 1
  | none => 0

/-- The text of the string that follows the colon of a field, if it is not empty. -/
def fieldText? (s : String) (field : Nat) : Option String :=
  let start := behind s "\"" (behind s ":" field)
  match closingQuote? (s.toList.drop start) with
  | some n => if 0 < n then some (between start (start + n) s) else none
  | none => none

def scanned? (s : String) : Option Datum :=
  match find? s "\"old\"", find? s "\"new\"" with
  | some old, some new =>
    match fieldText? s old, fieldText? s new with
    | some old, some new => some (.replacement old new)
    | _, _ => none
  | _, _ => none

structure Reader where
  named : String → Option Char := fun _ => none
  depth : Nat := Json.maxDepth
  /-- The depth of nesting that is read inside a fenced block, one call further down. -/
  innerDepth : Nat := Json.maxDepth - 1

def Reader.inner (r : Reader) : Reader := { r with depth := r.innerDepth }

/-- Reads JSON, JSON with other quotes or line ends, a literal, or two fields. -/
def parseDirect? (s : String) (r : Reader := {}) : Option Datum :=
  match Json.parse s r.depth with
  | .ok d => some d
  | .error _ =>
    match Json.parse (requoted s) r.depth with
    | .ok d => some d
    | .error _ => Literal.parse? s r.named <|> fields? s

def parseRemains? (s : String) : Option Datum := plain? s <|> scanned? s

def parseInner? (s : String) (r : Reader := {}) : Option Datum :=
  if s.isEmpty then none else parseDirect? s r <|> parseRemains? s

def parse? (s : String) (r : Reader := {}) : Option Datum :=
  if s.isEmpty then none
  else parseDirect? s r <|>
    match fenced? s with
    | some inner => parseInner? inner r.inner
    | none => parseRemains? s

end Mender.Answer
