import Mender.Report.Statistics
import Mender.World.Basic

/-! Showing and saving the report of a run. -/
namespace Mender.Statistics

def publish (s : Statistics) (path : Option String) : Run Summary := do
  Run.say s.report
  match path.filter (· ≠ "") with
  | none => return s.summary
  | some path =>
    Run.writeFile path s.report
    Run.say s!"\n报告已保存到: {path}"
    return s.summary

end Mender.Statistics
