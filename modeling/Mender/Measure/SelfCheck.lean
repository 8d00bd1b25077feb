import Mender.Datum.Access
import Mender.Text.Rows

/-! Whether the results of benchmarks can be trusted: each benchmark gets a verdict from what was
observed of its runs. -/
namespace Mender.Measure
open Text

inductive Verdict where
  | repoModified
  | error
  | returnsNone
  | unstable
  | returnsInput
  | lowRepoTime
  | tooFast
  | paramInvariant
  | okUnparam
  | ok
  deriving Repr, DecidableEq

namespace Verdict

def name : Verdict → String
  | .repoModified => "repo-modified"
  | .error => "error"
  | .returnsNone => "returns-none"
  | .unstable => "unstable"
  | .returnsInput => "returns-input"
  | .lowRepoTime => "low-repo-time"
  | .tooFast => "too-fast"
  | .paramInvariant => "param-invariant"
  | .okUnparam => "ok-unparam"
  | .ok => "ok"

def isOk : Verdict → Bool
  | .ok => true
  | .okUnparam => true
  | _ => false

end Verdict

/-- What was observed of a benchmark, and the verdict: the kind of its result, the least part of its
time in the code under measurement, and the middle of its times in milliseconds. -/
structure SelfCheck where
  name : Datum
  verdict : Verdict
  returns : Datum
  share : Float
  time : Float

namespace SelfCheck

def least : List Float → Option Float
  | [] => none
  | x :: xs => some (xs.foldl (fun a b => if b < a then b else a) x)

def median? (xs : List Float) : Option Float :=
  let ordered := xs.mergeSort fun a b => !(b < a)
  let half := ordered.length / 2
  if ordered.isEmpty then none
  else if ordered.length % 2 = 1 then ordered[half]?
  else
    match ordered[half - 1]?, ordered[half]? with
    | some a, some b => some ((a + b) / 2.0)
    | _, _ => none

def distinct (ds : List Datum) : Except Fault (List Datum) :=
  match ds.find? fun d => !d.isKey with
  | some d => .error (.wrongType s!"unhashable type: '{d.kindName}'")
  | none => match Datum.ofMembers ds with
    | .set xs => .ok xs
    | _ => .ok []

def unknownKind : Datum := .text "?"

/-- The verdict from the kind of the result, the marks of repeated runs, the marks of the
parameters, the parts of time, the times, and the marks of the results by parameter. -/
def judge (modified : Bool) (returns : Datum) (marks inputs : List Datum)
    (shares times : List Float) (byParam : List Datum) : Except Fault Verdict := do
  if modified then return .repoModified
  let some codes := returns.codes? | throw (returns.lacks "startswith")
  if returns.same unknownKind || codes.head? = some '<'.toNat then return .error
  if returns.same (.text "NoneType") then return .returnsNone
  match ← distinct marks with
  | [mark] =>
    if inputs.any mark.same then return .returnsInput
    if (least shares).any (· < 0.5) then return .lowRepoTime
    if (median? times).any (· < 1.0) then return .tooFast
    if byParam.length < 2 then return .okUnparam
    if (← distinct byParam).length = 1 then return .paramInvariant
    return .ok
  | _ => return .unstable

def ofDatum (modified : Bool) (name d : Datum) : Except Fault SelfCheck := do
  let returns ← d.field "ret_type" unknownKind
  let marks ← (← d.field "fp_stable" (.list [])).members
  let inputs ← (← d.field "param_fps" (.list [])).members
  let shares ← (← (← d.field "repo_frac" (.dict [])).values).mapM Datum.toFloat
  let times ← (← (← d.field "repo_tt_ms" (.dict [])).values).mapM Datum.toFloat
  let byParam ← (← d.field "fp_by_param" (.dict [])).values
  let verdict ← judge modified returns marks inputs shares times byParam
  return {
    name := name
    verdict := verdict
    returns := returns
    share := Number.roundTo 2 ((least shares).getD 0.0)
    time := (median? times).getD 0.0 }

/-- The self-checks of entries one after the other, up to the first one that cannot be judged, and
the fault of that one. Entries that are no dictionaries are skipped. -/
def judgeAll (modified : Bool) : List (Datum × Datum) → List SelfCheck × Option Fault
  | [] => ([], none)
  | (name, .dict es) :: rest =>
    match ofDatum modified name (.dict es) with
    | .error e => ([], some e)
    | .ok c =>
      let (cs, fault) := judgeAll modified rest
      (c :: cs, fault)
  | _ :: rest => judgeAll modified rest

/-- The self-checks that a runner's output describes. Those before a fault are kept. -/
def all (modified : Bool) (d : Datum) : List SelfCheck × Option Fault :=
  match (d.field "semcheck" (.dict [])).bind Datum.entries with
  | .error e => ([], some e)
  | .ok entries => judgeAll modified entries

def failures (cs : List SelfCheck) : Nat := (cs.filter fun c => !c.verdict.isOk).length

def legend : List String :=
  ["\nself-check (* = fix needed):",
   "  returns-none: run() has no return — collect and return the call results",
   "  unstable: seed RNG in setup; avoid time/uuid/id in the return",
   "  returns-input: return repo output, not the parameter value",
   "  low-repo-time: <50% of run() time is in repo code — move glue to setup",
   "  param-invariant: return something derived from run()'s work, not setup",
   "  repo-modified: revert edits to repo files (git checkout -- <path>)"]

def row (c : SelfCheck) : Except Fault String := do
  let mark := if c.verdict.isOk then " " else "*"
  let name ← c.name.shown
  let returns ← c.returns.shown
  return s!"  {mark} {padRight 32 name} {padRight 16 c.verdict.name} ({returns}, repo " ++
    Number.fixedText 0 (c.share * 100.0) ++ "%) " ++ Number.fixedText 1 c.time ++ "ms"

def modifiedLines (files : List String) : List String :=
  if files.isEmpty then []
  else
    (s!"\n** repo modified ({files.length} file(s)) — revert these; " ++
        "only microbench.py is yours to edit:")
      :: (files.take 10).map fun f => "   " ++ f

/-- The lines of the table, what has to be mended first; none if there are no self-checks. -/
def table (modified : List String) (cs : List SelfCheck) : List (Except Fault String) :=
  if cs.isEmpty then []
  else (modifiedLines modified ++ legend).map .ok ++
    ((cs.filter fun c => !c.verdict.isOk) ++ (cs.filter fun c => c.verdict.isOk)).map row

end SelfCheck

end Mender.Measure
