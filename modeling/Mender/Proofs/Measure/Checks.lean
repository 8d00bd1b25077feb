import Mender.Proofs.Measure.Log

/-! What becomes of the self-checks when one of them cannot be judged: those before it are kept, in
the log and in the report, and those behind it are lost. -/
namespace Mender.Measure
open Text Json

section Judging
variable {modified : Bool} {front back : List (Datum × Datum)} {cs : List SelfCheck}

end Judging

section Visits
variable {v : Visit} {o : Observation} {cs : List SelfCheck} {e : Fault} {w u : World} {d : Datum}

/-- The verdicts `cs` stay: a line of the log has them, and so has the report. -/
structure Visit.Kept (v : Visit) (o : Observation) (cs : List SelfCheck) (e : Fault) : Prop where
  checks : o.checks = cs
  warned : ∃ before, (observe.after v.world).warnings =
    before ++ s!"[semcheck runner: {e.kind}: {e.message}]\n"
  logged : ∀ rs, v.world.disk.file? logFile = logOfRecords rs →
    v.world.disk.isDir logFile = false → (∀ r ∈ rs, r.Sound) →
    ∃ r : Record, v.after.disk.file? logFile = logOfRecords (rs ++ [r]) ∧
      r.toDatum.get? "semcheck" = some (.dict (cs.map fun c => (c.name, .text c.verdict.name))) ∧
      r.toDatum.get? "n_not_self_checking" = some (.int (SelfCheck.failures cs))
  reported : (round v.clock).result v.world = .ok .reported →
    ∃ (earlier : List Int) (n : Nat) (r : Report v.clock o earlier n) (before : String),
      v.after.output = before ++ shown r.lines ∧ (r.checks = [] ↔ cs = [])

end Visits

end Mender.Measure
