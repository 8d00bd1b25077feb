import Mender.Pattern.Search
import Mender.Fault

/-! Where a diagnostic points to. -/
namespace Mender.Diagnostic

def colonNumber : Pattern := .read ":(\\d+):"

def wordNumber : Pattern := .read "line (\\d+)"

/-- The line a diagnostic points to: the first number between colons, else the first number after
the word `line`. -/
def lineNumber (message : String) : Except Fault (Option Int) :=
  match colonNumber.search message with
  | some m => (readNumber (m.group 1)).map some
  | none =>
    match wordNumber.search message with
    | some m => (readNumber (m.group 1)).map some
    | none => .ok none

def given : Option Int → Option Int
  | some 0 => none
  | n => n

end Mender.Diagnostic
