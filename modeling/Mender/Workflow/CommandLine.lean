import Mender.Workflow.Counted
import Mender.Workflow.Layered
import Mender.Workflow.Single

/-! The command line: which workflow the arguments ask for. -/
namespace Mender.CommandLine

def usage : List String :=
  ["用法:",
   "  单文件: python auto_fix_multilang.py <文件> [语言]",
   "  多文件: python auto_fix_multilang.py --dir <目录> [语言]",
   "  项目级: python auto_fix_multilang.py --project <目录> [语言]",
   "  分层项目: python auto_fix_multilang.py --layered <目录>",
   "  统计模式: python auto_fix_multilang.py --stats <目录> [语言]",
   "支持语言: python, java, c, cpp",
   "示例:",
   "  python auto_fix_multilang.py code.py",
   "  python auto_fix_multilang.py --dir test_samples/groot_test cpp",
   "  python auto_fix_multilang.py --project my_java_project java",
   "  python auto_fix_multilang.py --layered jyn_test  # 分层项目(data_structure + code + 入口)",
   "  python auto_fix_multilang.py --stats test_project java  # 生成修复统计报告"]

/-- Carries out what the arguments ask for. The result is the exit status where the program ends
early: without arguments it explains itself. -/
def run (args : List String) : Run (Option Nat) := do
  match args with
  | [] =>
    usage.forM Run.say
    return some 1
  | mode :: rest =>
    let path := rest.getD 0 "."
    let lang := rest[1]?
    match mode with
    | "--dir" => discard (Workflow.separate path none lang)
    | "--project" => discard (Workflow.project path none lang)
    | "--layered" => discard (Workflow.layered path none)
    | "--stats" => discard (Workflow.counted path none lang)
    | input => discard (Workflow.single input none rest[0]?)
    return none

end Mender.CommandLine
