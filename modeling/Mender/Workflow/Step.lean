import Mender.Answer.Replacement
import Mender.Diagnostic.Context
import Mender.Model.Request
import Mender.Rule.LocalFix

/-! The two ways to repair a text: without the model, and with it. -/
namespace Mender.Workflow
open Text

def maxRounds : Nat := 50

def bar : String := replicate 60 '='

/-- Repairs a text without the model; whether something was repaired. The modules of the working
directory are looked at when a rule first needs them. -/
def localFix (code message lang : String) : Run (String × Bool) := do
  let w ← get
  let s ← Run.ofNoted (LocalFix.run w.workingModules code message lang)
  if s.readModules then discard (Run.modules none)
  return (s.code, s.applied)

inductive Proposal where
  | unlocated
  | unanswered
  | revised (code : String)
  deriving Repr, DecidableEq

def Proposal.change? (p : Proposal) (code : String) : Option String :=
  match p with
  | .revised new => if new = code then none else some new
  | _ => none

/-- Asks the model for a repair of an error and makes the replacements. The line named to it is
`line`, or else the first one that the message names. -/
def propose (m : Model) (l : Language) (code message : String) (line : Option Int := none) :
    Run Proposal := do
  match ← Run.ofExcept (Diagnostic.context l code message) with
  | none => return .unlocated
  | some (first, context) =>
    if context = "" then return .unlocated
    let answer ← m.fix message (some context) (some (line.getD first)) l.name
    if answer.truthy then
      let new ← Run.ofNoted (Replacement.applyDatum code answer)
      Run.recordProposed ⟨code, new⟩
      return .revised new
    else return .unanswered

end Mender.Workflow
