import Mender.Measure.Coverage
import Mender.Measure.RepoTime
import Mender.Measure.SelfCheck

/-! The log of measuring rounds, one JSON line for each, and the advice to stop. -/
namespace Mender.Measure
open Text

structure Observation where
  coverage : Coverage
  repoTime : RepoTime
  changed : List String
  checks : List SelfCheck
  benchmarks : Nat

/-- The figures of a round: its number, when it was, the seconds since the round before, the seconds
that measuring the coverage took, and what was found out. -/
structure Record where
  round : Nat
  time : Float
  sincePrevious : Float
  seconds : Float
  found : Observation

namespace Record

def toDatum (r : Record) : Datum :=
  let entry (key : String) (d : Datum) : Datum × Datum := (.text key, d)
  let count (n : Nat) : Datum := .int n
  .dict
    [entry "round" (count r.round),
     entry "ts" (.float r.time),
     entry "wall_since_prev_s" (.float r.sincePrevious),
     entry "coverage_pct" r.found.coverage.percent,
     entry "covered_lines" (.int r.found.coverage.covered),
     entry "num_statements" (.int r.found.coverage.statements),
     entry "n_bench_fns" (count r.found.benchmarks),
     entry "n_bench_errors" (count r.found.coverage.failures),
     entry "cov_measure_s" (.float (Number.roundTo 3 r.seconds)),
     entry "repo_time_pct" (.dict (r.found.repoTime.shares.map fun (name, x) => (name, .float x))),
     entry "n_below_repo_time" ((r.found.repoTime.low?.map count).getD .null),
     entry "semcheck" (.dict (r.found.checks.map fun c => (c.name, .text c.verdict.name))),
     entry "n_not_self_checking" (count (SelfCheck.failures r.found.checks))]

def line (r : Record) : String := Json.render r.toDatum ++ "\n"

end Record

def history (log : String) : Except Fault (List Datum) :=
  ((rows log).filter fun row => trim row ≠ "").mapM Datum.read

def sinceLast (records : List Datum) (now : Float) : Except Fault Float :=
  match records.getLast? with
  | none => .ok 0.0
  | some r =>
    match r.get? "ts" with
    | none => .error (.unknownKey (quoted "ts"))
    | some d => do return Number.roundTo 2 (now - (← d.toFloat))

/-- The numbers of benchmarks that needed work in earlier rounds, where they are known. -/
def lowCounts (records : List Datum) : List Int :=
  records.filterMap fun r => match r.get? "n_below_repo_time" with
    | some (.int i) => some i
    | _ => none

/-- The least number and how many rounds ago it first came up, of a first number and later ones. -/
def plateauFrom (best : Int) (since : Nat) : List Int → Int × Nat
  | [] => (best, since)
  | n :: ns => if n < best then plateauFrom n 0 ns else plateauFrom best (since + 1) ns

def plateau : List Int → Int × Nat
  | [] => (0, 0)
  | n :: ns => plateauFrom n 0 ns

def patience : Nat := 3

def enoughCoverage : Float := 60.0

/-- The advice to stop: when no benchmark needs work, or their number has not improved for some
rounds. -/
def stopAdvice (earlier : List Int) (coverage : Float) (t : RepoTime) : List String :=
  match t.low? with
  | none => []
  | some low =>
    let advice (reason : String) :=
      [s!"\n>>> STOP: repo_time converged ({reason}). Finalize microbench.py now. <<<"]
    if !(enoughCoverage ≤ coverage) then []
    else if low = 0 then advice "0 below"
    else
      let (best, since) := plateau (earlier ++ [(low : Int)])
      if patience ≤ since then advice s!"no improvement in {since} rounds; best {best} below"
      else []

end Mender.Measure
