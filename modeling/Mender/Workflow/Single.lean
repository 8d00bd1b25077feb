import Mender.Sandbox.Check
import Mender.Workflow.Step

/-! Repairing a single program: it is checked, compiled and run until it runs without errors or
nothing more can be done. -/
namespace Mender.Workflow
open Text

def compileRounds : Nat := 3

def checkPhase (l : Language) (code : String) : Run String := do
  Run.say "\n[PHASE 1] 静态检查"
  let (checked, code) ← Sandbox.checkProgram code l
  if checked.ok then
    Run.say "[OK] 静态检查通过"
    return code
  Run.say "[WARN] 发现静态错误"
  let (code, fixed) ← localFix code checked.errors l.name
  if fixed then return (← Sandbox.checkProgram code l).2 else return code

def compileFix (m : Model) (l : Language) (code message : String) : Run String := do
  let (code, fixed) ← localFix code message l.name
  if fixed then return code
  match (← propose m l code message).change? code with
  | some new => Run.keep code new
  | none => return code

def compileLoop (m : Model) (l : Language) :
    Nat → String → Sandbox.Outcome → Run (String × Sandbox.Outcome)
  | 0, code, o => return (code, o)
  | left + 1, code, o =>
    if o.ok then return (code, o)
    else do
      let message := o.report
      Run.say s!"[COMPILE ERROR] {take 200 message}"
      let code ← compileFix m l code message
      Sandbox.copyProgram code l
      compileLoop m l left code (← Sandbox.compileProgram l)

/-- Compiles the program, if its language is compiled, and repairs it; its text afterwards. -/
def compilePhase (m : Model) (l : Language) (code : String) : Run String := do
  if l.profile.compile.isNone then return code
  Run.say "\n[PHASE 2] 编译检查"
  Sandbox.copyProgram code l
  let (code, o) ← compileLoop m l compileRounds code (← Sandbox.compileProgram l)
  Run.say (if o.ok then "[OK] 编译成功" else "[FAIL] 编译失败，无法继续")
  return code

/-- Compiles and runs the program in its present form; nothing if it does not compile. -/
def execute (l : Language) (code : String) : Run (Option Sandbox.Outcome) := do
  Sandbox.copyProgram code l
  if l.profile.compile.isSome then
    let o ← Sandbox.compileProgram l
    if !o.ok then
      Run.say s!"[COMPILE ERROR] {take 100 o.stderr}"
      return none
  return some (← Sandbox.runProgram l)

/-- Runs and repairs until the program runs, at most `left` times; its text, and whether it ran. -/
def runLoop (m : Model) (l : Language) : Nat → String → Run (String × Bool)
  | 0, code => return (code, false)
  | left + 1, code => do
    Run.say s!"\n=== 迭代 {maxRounds - left}/{maxRounds} ==="
    match ← execute l code with
    | none => return (code, false)
    | some o =>
      if o.ok then
        Run.say "[SUCCESS] 代码执行成功!"
        if trim o.stdout ≠ "" then
          Run.say s!"输出: {take 200 o.stdout}"
        return (code, true)
      let message := o.report
      Run.say s!"[RUNTIME ERROR] {take 200 message}"
      let (code, fixed) ← localFix code message l.name
      if fixed then runLoop m l left code
      else
        match ← propose m l code message with
        | .unlocated =>
          Run.say "[FAIL] 无法定位错误"
          return (code, false)
        | .unanswered =>
          Run.say "[FAIL] LLM 未返回修复"
          return (code, false)
        | .revised new =>
          if new = code then
            Run.say "[WARN] 修复未应用"
            return (code, false)
          else runLoop m l left (← Run.keep code new)

def fixedName (input : String) : String :=
  let (base, ext) := Path.splitExtension input
  base ++ "_fixed" ++ ext

/-- Repairs a program of a known language and writes it to a file; whether it ran at last. -/
def repairProgram (l : Language) (input output : String) : Run Bool := do
  Run.say bar
  Run.say s!"[AUTO DEBUG] 语言: {Prompt.upper l.name}, 文件: {input}"
  Run.say bar
  let code ← Run.readFile input true
  Sandbox.setUp l.name
  let m ← Model.connect "qwen"
  let code ← checkPhase l code
  let code ← compilePhase m l code
  Run.say "\n[PHASE 3] 运行时检查"
  let (code, success) ← runLoop m l maxRounds code
  Run.writeFile output code
  let verdict := if success then "成功" else "部分修复"
  Run.say s!"\n{bar}"
  Run.say s!"[FINAL] {verdict} -> {output}"
  Run.say bar
  Sandbox.remove
  return success

/-- Repairs the program in a file. Without a language the file's extension decides, and without a
file for the result its name gets an addition. -/
def single (input : String) (output lang : Option String) : Run Bool := do
  let lang := (lang.filter (· ≠ "")).getD (Language.ofFile input).name
  match Language.ofName? lang with
  | none =>
    Run.say s!"[ERROR] 不支持的语言: {lang}"
    return false
  | some l => repairProgram l input ((output.filter (· ≠ "")).getD (fixedName input))

end Mender.Workflow
