import Mender.Text.Basic
import Mender.Fault

/-! Edits of a source text: the new text and the notes shown about it. Lines are numbered from one;
a missing line number asks for no edit. -/
namespace Mender
open Text

/-- A source text after an edit, with the notes to show. -/
structure Edit where
  code : String
  notes : List String := []
  deriving Repr, DecidableEq

namespace Edit

def keep (code : String) : Edit := { code := code }

def decline (code note : String) : Edit := ⟨code, [note]⟩

def ofLines (ls : List String) (notes : List String := []) : Edit := ⟨unlines ls, notes⟩

end Edit

structure Attempt extends Edit where
  applied : Bool
  deriving Repr, DecidableEq

def Attempt.none (code : String) : Attempt := { code := code, applied := false }

def repairNote (what : String) : String := "  [LOCAL FIX] " ++ what

def repairNoteAt (what : String) (n : Int) : String := repairNote s!"{what}: 第 {n} 行"

def lineIndex? (count : Nat) : Option Int → Option Nat
  | none => none
  | some n => if 0 < n ∧ n ≤ count then some (n.toNat - 1) else none

def lineAt? (ls : List String) (n : Option Int) : Option (Nat × String) :=
  match lineIndex? ls.length n with
  | none => none
  | some i => ls[i]?.map (i, ·)

def changed (old new : String) : Option String := if new = old then none else some new

/-- Changes line `n` by `f`, which returns nothing to leave the line alone; `note` makes the notes
from the line number. -/
def changeLine (code : String) (n : Option Int) (note : Int → List String)
    (f : String → Option String) : Edit :=
  let ls := lines code
  match lineAt? ls n with
  | none => .keep code
  | some (i, line) =>
    match f line with
    | none => .keep code
    | some new => .ofLines (ls.set i new) (note (i + 1))

def repairLine (code : String) (n : Option Int) (what : String) (f : String → Option String) :
    Edit :=
  changeLine code n (fun k => [repairNoteAt what k]) f

def lineWithIndex (ls : List String) (i : Int) : Except Fault String :=
  let j := if i < 0 then ls.length + i else i
  if j < 0 then .error .outOfRange
  else match ls[j.toNat]? with
    | none => .error .outOfRange
    | some line => .ok line

def indexesUp (n stop : Int) : List Int :=
  (List.range (n - 1 - stop).toNat).map fun (k : Nat) => n - 1 - k

def afterLast (p : String → Bool) (ls : List String) : Nat :=
  ls.length - (ls.reverse.takeWhile fun l => !p l).length

def indentWidth (line : String) : Nat := length line - length (trimStart line)

def indented (width : Nat) (content : String) : String := replicate width ' ' ++ content

def excess (s a b : String) : Int := (count s a : Int) - count s b

end Mender
