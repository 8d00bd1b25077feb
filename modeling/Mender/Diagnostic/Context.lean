import Mender.Diagnostic.Location
import Mender.Language
import Mender.Source.Edit

/-! The lines around an error, as they are shown to the model. -/
namespace Mender.Diagnostic
open Text

def contextLines : Nat := 10

def ascending (ns : List Int) : List Int := (ns.mergeSort fun a b => decide (a ≤ b)).eraseDups

def foundDigits (m : Pattern.Found) : Option String := m.group? 1 <|> m.group? 2

def errorLines (l : Language) (message : String) : Except Fault (List Int) := do
  let ns ← ((l.errorPattern.findAll message).filterMap foundDigits).mapM readNumber
  return ascending ns

def anyCaseNumber : Pattern := .read "line\\s+(\\d+)" { caseless := true }

/-- The line numbers of a message; where the language's notation gives none, the first number after
the word `line`. -/
def allLines (l : Language) (message : String) : Except Fault (List Int) := do
  let ns ← errorLines l message
  if ns.isEmpty then
    match anyCaseNumber.search message with
    | some m => return [← readNumber (m.group 1)]
    | none => return []
  else return ns

def contextRow (errors : List Int) (n : Nat) (line : String) : String :=
  (if errors.contains (n : Int) then s!">>> {n}:" else s!"    {n}:") ++ " " ++ line

/-- The lines from one number to another, with their numbers. Both count from one, and both are
included. -/
def numbered (ls : List String) (first last : Nat) : List (Nat × String) :=
  ((ls.zipIdx 1).take last).drop (first - 1) |>.map fun (line, n) => (n, line)

/-- The first line with an error and the lines around all of them, or nothing if the message names
no line. -/
def context (l : Language) (code message : String) : Except Fault (Option (Int × String)) := do
  match ← allLines l message with
  | [] => return none
  | main :: others =>
    let errors := main :: others
    let last := errors.getLastD main
    let after := if others.isEmpty then (contextLines : Int) else max contextLines (last - main + 2)
    let rows := numbered (lines code) (main - contextLines).toNat (main + after).toNat
    return some (main, unlines (rows.map fun (n, line) => contextRow errors n line))

/-- The index of the line that opens the block around a line of a script: the nearest line above
that is not blank and less indented. -/
def scriptBlock (ls : List String) (index : Nat) : Nat :=
  let width := indentWidth (ls.getD index "")
  match (ls.take index).reverse.findIdx? fun line =>
      trim line ≠ "" && indentWidth line < width with
  | some back => index - 1 - back
  | none => index

/-- The number of lines from the end at which more braces have been opened than closed. -/
def openBrace? (closed : Int) : List String → Option Nat
  | [] => none
  | line :: above =>
    let closed := closed + excess line "\x7d" "\x7b"
    if closed < 0 then some 0 else (openBrace? closed above).map (· + 1)

def braceBlock (ls : List String) (index : Nat) : Nat :=
  match openBrace? 0 (ls.take (index + 1)).reverse with
  | some back => index - back
  | none => index

def relatedCode (script : Bool) (code : String) (n : Option Int) : Option String :=
  let ls := lines code
  (lineIndex? ls.length n).map fun index =>
    let start := if script then scriptBlock ls index else braceBlock ls index
    unlines ((numbered ls (start + 1) (index + 1 + contextLines)).map fun (k, line) =>
      s!"{k}: {line}")

def lineText (code : String) (n : Option Int) : Option String :=
  (lineAt? (lines code) n).map (·.2)

end Mender.Diagnostic
