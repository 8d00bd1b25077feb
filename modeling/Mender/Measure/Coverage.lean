import Mender.Datum.Access
import Mender.Text.Order
import Mender.Text.Rows

/-! The coverage of the source files by the benchmarks. -/
namespace Mender.Measure
open Text

structure FileCoverage where
  name : Datum
  statements : Datum
  missing : Datum
  percent : Float
  missingLines : List Datum

/-- How far all files are covered. The part run is in percent, as it was written; `failures` counts
the benchmarks that failed. -/
structure Coverage where
  percent : Datum
  covered : Int
  statements : Int
  failures : Nat
  files : List FileCoverage

namespace Coverage

def number (d : Datum) (key : String) : Except Fault Int := do
  match ← d.field key (.int 0) with
  | .int i => return i
  | d => throw (.wrongType s!"unsupported operand type(s) for -: '{d.kindName}' and 'int'")

def file (name d : Datum) : Except Fault FileCoverage := do
  let summary ← d.field "summary" (.dict [])
  let percent ← (← summary.field "percent_covered" (.float 0.0)).toFloat
  return ⟨name, ← summary.field "num_statements" (.int 0), ← summary.field "missing_lines" (.int 0),
    percent, ← (← d.field "missing_lines" (.list [])).members⟩

def ofDatum (d : Datum) : Except Fault Coverage := do
  let totals ← d.field "totals" (.dict [])
  let notes ← d.field "meta" (.dict [])
  let files ← (← d.field "files" (.dict [])).entries
  let failures ← (← notes.field "_pti_bench_errors" (.dict [])).entries
  let codes (name : Datum) := name.codes?.getD []
  let sortedFiles := files.mergeSort fun a b => !(codes b.1).lex (codes a.1) Nat.blt
  return {
    percent := ← totals.field "percent_covered" (.float 0.0)
    covered := ← number totals "covered_lines"
    statements := ← number totals "num_statements"
    failures := failures.length
    files := ← sortedFiles.mapM fun (name, d) => file name d }

def rate (c : Coverage) : Except Fault Float := c.percent.toFloat

def percentText (x : Float) : String := Number.fixedText 0 x ++ "%"

def row (width : Nat) (name statements missing cover : String) : String :=
  padRight width name ++ "  " ++ Number.padLeft 5 ' ' statements ++ "  " ++
    Number.padLeft 4 ' ' missing ++ "  " ++ Number.padLeft 5 ' ' cover

def missingText (ns : List Datum) : String :=
  join "," ((ns.take 12).map Json.render) ++ if 12 < ns.length then "…" else ""

def table (c : Coverage) (rate : Float) : List (Except Fault String) :=
  let width := (c.files.map fun f => (f.name.codes?.getD []).length).foldl max 4
  let rule := replicate (width + 42) '-'
  let header := row width "Name" "Stmts" "Miss" "Cover" ++ "  Missing"
  let files := c.files.map fun f => do
    let cells := row width (← f.name.shown) (Json.render f.statements) (Json.render f.missing)
      (percentText f.percent)
    return cells ++ "  " ++ missingText f.missingLines
  let total := row width "TOTAL" (toString c.statements) (toString (c.statements - c.covered))
    (percentText rate)
  [.ok header, .ok rule] ++ files ++ [.ok rule, .ok total]

end Coverage

end Mender.Measure
