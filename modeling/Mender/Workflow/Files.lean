import Mender.Project.Glob
import Mender.Project.Order
import Mender.Sandbox.Check
import Mender.Workflow.Step

/-! Repairing the files of a directory one by one, those that others depend on first. -/
namespace Mender.Workflow
open Text

structure FileResult where
  name : String
  fixes : Nat
  changed : Bool
  deriving Repr, DecidableEq

namespace FileResult

def put (rs : List FileResult) (r : FileResult) : List FileResult :=
  if rs.any fun s => s.name = r.name then rs.map fun s => if s.name = r.name then r else s
  else rs ++ [r]

def total (rs : List FileResult) : Nat := rs.foldr (fun r n => r.fixes + n) 0

end FileResult

def outputDir (input : String) (output : Option String) : String :=
  (output.filter (· ≠ "")).getD (input ++ "_fixed")

/-- The language of the source files in a directory: the first of those given that has one. -/
def languageIn (d : Disk) (dir : String) (suffixes : List (String × Language)) : Option Language :=
  (suffixes.find? fun (suffix, _) => !(Glob.withSuffix d dir suffix).isEmpty).map (·.2)

def fileSuffixes : List (String × Language) :=
  [(".cpp", .cpp), (".cc", .cpp), (".c", .c), (".java", .java), (".py", .python)]

/-- Checks and repairs a file until no error is left or nothing more can be done, at most `left`
times; its text and the number of repairs. -/
def fileLoop (m : Model) (l : Language) (name : String) : Nat → String → Nat → Run (String × Nat)
  | 0, code, fixes => return (code, fixes)
  | left + 1, code, fixes => do
    let checked ← Sandbox.checkFile name l
    if checked.ok then
      Run.say "  [OK] 无语法错误"
      return (code, fixes)
    Run.say s!"  [ITER {maxRounds - left}] 发现错误: {take 100 checked.errors}..."
    let (code, fixed) ← localFix code checked.errors l.name
    if fixed then
      Sandbox.copyFile code name
      fileLoop m l name left code (fixes + 1)
    else
      match (← propose m l code checked.errors).change? code with
      | some new =>
        let code ← Run.keep code new
        Sandbox.copyFile code name
        fileLoop m l name left code (fixes + 1)
      | none =>
        Run.say "  [STOP] 无法继续修复"
        return (code, fixes)

def repairFile (m : Model) (l : Language) (output path : String) : Run FileResult := do
  let name := Path.baseName path
  let source ← Run.readFile path false
  Sandbox.copyFile source name
  let (code, fixes) ← fileLoop m l name maxRounds source 0
  Run.writeFile (Path.join output name) code
  return ⟨name, fixes, code ≠ source⟩

def repairFiles (m : Model) (l : Language) (output : String) (count : Nat) :
    List String → Nat → Run (List FileResult)
  | [], _ => return []
  | path :: rest, done => do
    Run.say s!"\n[{done + 1}/{count}] 处理: {Path.baseName path}"
    Run.say (replicate 40 '-')
    let r ← repairFile m l output path
    return r :: (← repairFiles m l output count rest (done + 1))

/-- The files that depend on changed ones and did not change themselves, sorted. -/
def toRecheck (g : Graph) (changed : List String) : List String :=
  sorted (changed.flatMap fun file =>
    (g.filter fun (f, deps) => deps.contains file && !changed.contains f).map (·.1))

def recheck (l : Language) (output : String) (names : List String) : Run Unit :=
  names.forM fun name => do
    let path := Path.join output name
    if (← Run.disk).exists? path then
      Sandbox.copyFile (← Run.readFile path true) name
      let checked ← Sandbox.checkFile name l
      Run.say (if checked.ok then s!"  [OK] {name} 无错误"
        else s!"  [WARN] {name} 仍有错误，可能需要手动处理")

/-- The order of files by their dependencies, with what is shown about it, and the graph. -/
def arrange (l : Language) (files : List String) : Run (List String × Graph) := do
  Run.say "[DEPS] 分析跨文件依赖..."
  let g ← Run.ofExcept (Dependency.graph (← Run.disk) files (some l))
  let order := g.order
  let paths := order.filterMap fun name => files.reverse.find? fun path => Path.baseName path = name
  let first := join " -> " (order.take 5)
  let more := if 5 < order.length then "..." else ""
  Run.say s!"[DEPS] 修复顺序: {first}{more}"
  g.forM fun (file, deps) => do
    let names := join ", " deps
    unless deps.isEmpty do
      Run.say s!"  {file} 依赖: {names}"
  return (paths, g)

def summarise (results : List FileResult) (total : Nat) : Run Unit := do
  Run.say ("\n" ++ bar)
  Run.say "[SUMMARY] 多文件修复完成"
  Run.say bar
  Run.say s!"总文件数: {results.length}"
  Run.say s!"修复的错误数: {total}"
  let changed := results.filter (·.changed)
  Run.say s!"已修改文件: {changed.length}"
  changed.forM fun r => Run.say s!"  - {r.name} ({r.fixes} 处修复)"

/-- Repairs files one after the other in a fresh container. Where dependencies count, those that
depend on changed files are checked again. -/
def repairInOrder (l : Language) (output : String) (deps : Bool) (files : List String) (g : Graph) :
    Run Unit := do
  Run.say bar
  Sandbox.setUp l.name
  let m ← Model.connect "qwen"
  let done ← repairFiles m l output files.length files 0
  let results := done.foldl FileResult.put []
  summarise results (FileResult.total done)
  let changed := (results.filter (·.changed)).map (·.name)
  if deps && !changed.isEmpty then
    Run.say "\n[DEPS] 检查跨文件影响..."
    let names := toRecheck g changed
    unless names.isEmpty do
      let all := join ", " names
      Run.say s!"[DEPS] 需要重新检查: {all}"
      recheck l output names
  Sandbox.remove

def repairDirectory (l : Language) (input : String) (output : Option String) (deps : Bool)
    (files : List String) : Run Unit := do
  let output := outputDir input output
  Run.makeDirs output
  Run.say bar
  Run.say s!"[MULTI-FILE AUTO DEBUG] 语言: {Prompt.upper l.name}"
  Run.say s!"[INPUT] {input} ({files.length} 个文件)"
  Run.say s!"[OUTPUT] {output}"
  let (files, g) ← if deps then arrange l files else pure (files, [])
  repairInOrder l output deps files g

/-- Repairs the source files of a directory, each on its own; whether there were any. -/
def separate (input : String) (output lang : Option String) (deps : Bool := true) : Run Bool := do
  let d ← Run.disk
  match (lang.filter (· ≠ "")) <|> (languageIn d input fileSuffixes).map Language.name with
  | none =>
    Run.say s!"[ERROR] 目录中未找到支持的源文件: {input}"
    return false
  | some lang =>
    match Language.ofName? lang with
    | none =>
      Run.say s!"[ERROR] 不支持的语言: {lang}"
      return false
    | some l =>
      let files := Glob.withSuffix d input l.profile.suffix
      if files.isEmpty then
        Run.say s!"[ERROR] 目录中没有 {l.profile.suffix} 文件"
        return false
      repairDirectory l input output deps files
      return true

end Mender.Workflow
