import Mender.Diagnostic.Target
import Mender.Workflow.Files

/-! Repairing a project as a whole: it is compiled and run, and each report leads to the file to
repair. -/
namespace Mender.Workflow
open Text

abbrev Texts := List (String × String)

namespace Texts

def put (ts : Texts) (name code : String) : Texts :=
  if ts.any fun t => t.1 = name then ts.map fun t => if t.1 = name then (name, code) else t
  else ts ++ [(name, code)]

end Texts

structure Project where
  texts : Texts
  fixes : Nat := 0
  fixed : List String := []
  deriving Repr, DecidableEq

namespace Project

def revise (p : Project) (name code : String) : Project :=
  { texts := p.texts.put name code, fixes := p.fixes + 1, fixed := p.fixed ++ [name] }

end Project

inductive Round where
  | again (p : Project)
  | stop
  deriving Repr, DecidableEq

def adopt (p : Project) (name code note : String) : Run Round := do
  Sandbox.copyFile code name
  Run.say note
  return .again (p.revise name code)

/-- Repairs a file with the model's help; `failure` is shown if that changes nothing. -/
def reviseByModel (m : Model) (l : Language) (p : Project) (t : Diagnostic.Target)
    (code message failure : String) : Run Round := do
  match (← propose m l code message (some t.line)).change? code with
  | some new => adopt p t.file (← Run.keep code new) "  [LLM FIX] 已修复"
  | none =>
    Run.say failure
    return .stop

def reviseCompile (m : Model) (l : Language) (input : String) (p : Project) (message : String) :
    Run Round := do
  Run.say s!"  [COMPILE ERROR] {take 200 message}..."
  match ← Run.ofExcept (Diagnostic.targets (some l) message input) with
  | [] =>
    Run.say "  [STOP] 无法解析错误位置"
    return .stop
  | t :: _ =>
    Run.say s!"  [TARGET] {t.file}:{t.line}"
    match p.texts.lookup t.file with
    | none =>
      Run.say "  [SKIP] 文件不在项目中"
      return .again p
    | some code =>
      let (new, fixed) ← localFix code message l.name
      if fixed then adopt p t.file new "  [LOCAL FIX] 已修复"
      else reviseByModel m l p t code message s!"  [STOP] 无法修复 {t.file}"

def reviseRun (m : Model) (l : Language) (input : String) (p : Project) (message : String) :
    Run Round := do
  Run.say s!"  [RUN ERROR] {take 200 message}..."
  match ← Run.ofExcept (Diagnostic.targets (some l) message input) with
  | [] =>
    Run.say "  [STOP] 无法解析运行时错误位置"
    return .stop
  | t :: _ =>
    Run.say s!"  [TARGET] {t.file}:{t.line} (runtime)"
    match p.texts.lookup t.file with
    | none =>
      Run.say "  [SKIP] 文件不在项目中"
      return .again p
    | some code => reviseByModel m l p t code message "  [STOP] 无法修复运行时错误"

/-- One round: the project is compiled and run, and the first error is repaired. -/
def projectRound (m : Model) (l : Language) (input : String) (main : Option String)
    (files : List String) (p : Project) : Run Round := do
  let compiled ← Sandbox.compileProject files l
  if !compiled.ok then reviseCompile m l input p compiled.errors
  else
    Run.say "  [COMPILE OK] 尝试运行..."
    let o ← Sandbox.runProject l main
    if o.ok then
      Run.say "  [RUN OK] 项目运行成功!"
      return .stop
    else reviseRun m l input p o.stderr

def projectLoop (m : Model) (l : Language) (input : String) (main : Option String)
    (files : List String) (limit : Int) : Nat → Project → Run Project
  | 0, p => return p
  | left + 1, p => do
    Run.say s!"\n[ITER {limit - left}/{limit}] 编译项目..."
    match ← projectRound m l input main files p with
    | .again q => projectLoop m l input main files limit left q
    | .stop => return p

def loadFiles (files : List String) : Run Texts :=
  files.foldlM (fun ts path => do
    let name := Path.baseName path
    let code ← Run.readFile path false
    Sandbox.copyFile code name
    return ts.put name code) []

def saveFiles (output : String) (ts : Texts) : Run Unit :=
  ts.forM fun (name, code) => Run.writeFile (Path.join output name) code

def projectSuffixes : List (String × Language) :=
  [(".py", .python), (".java", .java), (".cpp", .cpp), (".c", .c)]

def defaultMain : Language → Option String
  | .java => some "Main.java"
  | .python => some "main.py"
  | _ => none

def findMain (l : Language) (files : List String) : Run (Option String) := do
  match ← Run.ofExcept (mainFile? (← Run.disk) l files) with
  | some main => return some main
  | none =>
    Run.say "[WARN] 未找到 main 入口，将使用默认"
    return defaultMain l

/-- Repairs the files of a project in a known language. Rounds cannot be counted without a limit;
that is a fault once the files are loaded. -/
def repairProject (l : Language) (input : String) (output : Option String) (limit : Option Int)
    (files : List String) : Run Unit := do
  let output := outputDir input output
  Run.makeDirs output
  let main ← findMain l files
  Run.say bar
  Run.say s!"[PROJECT AUTO DEBUG] 语言: {Prompt.upper l.name}"
  Run.say s!"[INPUT] {input} ({files.length} 个文件)"
  Run.say s!"[MAIN] {Prompt.shown main}"
  Run.say s!"[OUTPUT] {output}"
  Run.say bar
  Sandbox.setUp l.name
  let m ← Model.connect "qwen"
  let texts ← loadFiles files
  let some limit := limit | throw (.wrongType)
  let p ← projectLoop m l input main files limit limit.toNat { texts := texts }
  saveFiles output p.texts
  Run.say ("\n" ++ bar)
  Run.say "[SUMMARY] 项目级修复完成"
  Run.say bar
  Run.say s!"总文件数: {files.length}"
  Run.say s!"修复次数: {p.fixes}"
  let fixed := if p.fixed.isEmpty then "无" else join ", " (sorted p.fixed)
  Run.say s!"已修改文件: {fixed}"
  Sandbox.remove

def project (input : String) (output lang : Option String) (limit : Option Int := some 10) :
    Run Bool := do
  let d ← Run.disk
  let lang := (lang.filter (· ≠ "")) <|> (languageIn d input projectSuffixes).map Language.name
    <|> lang
  match lang.bind Language.ofName? with
  | none =>
    Run.say s!"[ERROR] 无法检测语言或不支持: {Prompt.shown lang}"
    return false
  | some l =>
    let files := Glob.withSuffix d input l.profile.suffix
    if files.isEmpty then
      Run.say s!"[ERROR] 目录中没有 {l.profile.suffix} 文件"
      return false
    repairProject l input output limit files
    return true

end Mender.Workflow
