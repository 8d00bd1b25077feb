import Mender.Measure.Log
import Mender.World.Basic

/-! A measuring round: runners are started, their output is read, a line is added to the log, and a
report is shown. -/
namespace Mender.Measure
open Text

/-- The times that a round is given: before and after the coverage was measured, and the time of
day. -/
structure Clock where
  start : Float := 0.0
  stop : Float := 0.0
  now : Float := 0.0

inductive Ending where
  | reported
  | exit (status : Int)
  deriving Repr, DecidableEq

def root : String := "/repo"

def benchFile : String := "microbench.py"

def coverageFile : String := "_pti_coverage.json"

def logFile : String := ".pti_checkpoint.jsonl"

def runner (name : String) : List String := ["<python>", root ++ "/" ++ name]

def omitted : List String :=
  ["*/microbench.py", "*/_pti_*.py", "*/setup.py", "*/conftest.py", "*/test_*.py", "*/*_test.py",
   "*/tests/*", "*/test/*", "*/__tests__/*", "*/__fixtures__/*", "*/_version.py"]

def coverageCommand : List String :=
  runner "_pti_cov_runner.py" ++
    [root, "microbench", root ++ "/" ++ coverageFile, Json.render (.list (omitted.map .text))]

def changesCommand : List String :=
  ["git", "-C", root, "status", "--porcelain", "--", ".", ":!microbench.py", ":!_pti_*", ":!.pti_*",
   ":!.coverage"]

def measureCoverage : Run (Except Int Coverage) := do
  let (status, stdout, stderr) ← Run.command { words := coverageCommand, timeout := none }
  Run.warn stderr
  if status ≠ 0 || !(← Run.disk).exists? coverageFile then
    Run.say s!"coverage measurement failed (exit {status})"
    Run.say stdout
    return .error (if status = 0 then 1 else status)
  let d ← Run.ofExcept (Datum.read (← Run.readFile coverageFile true))
  return .ok (← Run.ofExcept (Coverage.ofDatum d))

/-- The data in the last row of a runner's output that is not blank; empty if there is none. -/
def lastRow (stdout : String) : Except Fault Datum :=
  match ((rows stdout).filter fun row => trim row ≠ "").getLast? with
  | none => .ok (.dict [])
  | some row => Datum.read row

def output (name : String) (timeout : Int) : Run Datum := do
  let (_, stdout, stderr) ← Run.command { words := runner name, timeout := some timeout }
  Run.warn stderr
  Run.ofExcept (lastRow stdout)

def warnOf (runner : String) (e : Fault) : Run Unit :=
  Run.warn s!"[{runner} runner: {e.kind}: {e.message}]\n"

/-- Measures the parts of time, if there is a runner for it. After a fault there are none. -/
def measureRepoTime : Run RepoTime := do
  if (← Run.disk).exists? "_pti_repotime.py" then
    match ← Run.caught (do Run.ofExcept (RepoTime.ofDatum (← output "_pti_repotime.py" 120))) with
    | .ok t => return t
    | .error e =>
      warnOf "repotime" e
      return {}
  else return {}

def changedFiles : Run (List String) := do
  match ← Run.caught (Run.command { words := changesCommand, timeout := some 30 }) with
  | .ok (_, stdout, _) =>
    return ((rows stdout).filter fun row => trim row ≠ "").map fun row => drop 3 row
  | .error _ => return []

/-- The self-checks from the output of their runner. After a fault those before it are left. -/
def selfChecks (modified : Bool) : Run (List SelfCheck) := do
  match ← Run.caught (output "_pti_semcheck.py" 300) with
  | .ok d =>
    let (checks, fault) := SelfCheck.all modified d
    fault.forM (warnOf "semcheck")
    return checks
  | .error e =>
    warnOf "semcheck" e
    return []

/-- Checks the benchmarks, if there is a runner for it; the changed files come first. -/
def checkBenchmarks : Run (List String × List SelfCheck) := do
  if (← Run.disk).exists? "_pti_semcheck.py" then
    let changed ← changedFiles
    return (changed, ← selfChecks (!changed.isEmpty))
  else return ([], [])

def benchStart : Pattern := .read "^def\\s+bench_\\w+" { perLine := true }

def benchCount : Run Nat := do
  match (← Run.disk).read benchFile false with
  | .ok text => return (benchStart.findAll text).length
  | .error _ => return 0

def observe : Run (Except Int Observation) := do
  match ← measureCoverage with
  | .error status => return .error status
  | .ok coverage =>
    let t ← measureRepoTime
    let (changed, checks) ← checkBenchmarks
    return .ok ⟨coverage, t, changed, checks, ← benchCount⟩

def logOf (d : Disk) : String := ((d.file? logFile).map (·.text)).getD ""

def pastRecords (d : Disk) : Except Fault (List Datum) :=
  if d.exists? logFile then (d.read logFile true).bind history else .ok []

/-- Adds a line to the log; the numbers of earlier rounds and the number of this one. A log that
cannot be read is left alone, and so is one that cannot be written. -/
def record (clock : Clock) (found : Observation) : Run (List Int × Nat) := do
  let d ← Run.disk
  match pastRecords d with
  | .error _ => return ([], 1)
  | .ok records =>
    let n := records.length + 1
    match sinceLast records clock.now with
    | .error _ => return (lowCounts records, n)
    | .ok since =>
      let r : Record := ⟨n, clock.now, since, clock.stop - clock.start, found⟩
      discard (Run.caught (Run.writeFile logFile (logOf d ++ r.line)))
      return (lowCounts records, n)

def summaryLine (n : Nat) (rate seconds : Float) (found : Observation) : String :=
  let t := found.repoTime
  let low := if t.shares.isEmpty then ""
    else s!", {t.low}/{t.measured} below repo_time 45%"
  let bad := if found.checks.isEmpty then ""
    else s!", {SelfCheck.failures found.checks}/{found.checks.length} not self-checking"
  s!"\n[round {n}: {found.benchmarks} benches, " ++ Number.fixedText 1 rate ++ "% covered" ++
    low ++ bad ++ ", measured in " ++ Number.fixedText 1 seconds ++ "s]"

def sayAll (lines : List (Except Fault String)) : Run Unit :=
  lines.forM fun line => do Run.say (← Run.ofExcept line)

/-- Shows what a round found out; `earlier` are the numbers of earlier rounds. -/
def report (clock : Clock) (found : Observation) (earlier : List Int) (n : Nat) : Run Unit := do
  let rate ← Run.ofExcept found.coverage.rate
  sayAll (found.coverage.table rate)
  sayAll found.repoTime.table
  sayAll (SelfCheck.table found.changed found.checks)
  Run.say (summaryLine n rate (clock.stop - clock.start) found)
  (stopAdvice earlier rate found.repoTime).forM Run.say

def round (clock : Clock) : Run Ending := do
  match ← observe with
  | .error status => return .exit status
  | .ok found =>
    let (earlier, n) ← record clock found
    report clock found earlier n
    return .reported

end Mender.Measure
