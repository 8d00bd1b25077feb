import Mender.Report.Statistics

/-! Figures of a run of any size: every third error stays, and the others are repaired. -/
namespace Mender.Bench

def errorKinds : List String :=
  ["missing_semicolon", "none_comparison", "runtime_error", "cross_file_dep", "syntax_error"]

def errorKind (i : Nat) : String := errorKinds.getD (i % errorKinds.length) ""

def errorFile (i : Nat) : String := s!"file{i % 10}.py"

/-- The figures with one more error. Errors with a number divisible by three stay; among the others
those with a number divisible by five were hard to find. -/
def addError (s : Statistics) (i : Nat) : Statistics :=
  let found : FoundError := ⟨errorKind i, errorFile i, i, "error"⟩
  let s := s.addInitial found
  if i % 3 = 0 then s.addFinal found
  else s.addFixed ⟨errorKind i, errorFile i, i, "local", i % 5 = 0⟩

def figures (n : Nat) : Statistics :=
  { (List.range n).foldl addError {} with localFixes := n / 2, modelFixes := n / 4 }

/-- The summary of a run, and why an error of an unknown kind is hard to find. -/
def statistics (n : Nat) : Statistics.Summary × String :=
  ((figures n).summary, Diagnostic.hardReason "unknown")

end Mender.Bench
