import Mender.Report.Publish
import Mender.Workflow.Project

/-! Repairing files with figures about it: errors are counted before and after, and each repair is
recorded. -/
namespace Mender.Workflow
open Text

/-- Whether a project is compiled as a whole or file by file. -/
inductive Scope where
  | whole
  | each
  deriving Repr, DecidableEq

/-- The errors that a report on a file lists, one for each line that speaks of one. -/
def listedErrors (file report : String) : Except Fault (List FoundError) :=
  ((lines report).filter fun line => contains (lower line) "error").mapM fun line => do
    let n ← Diagnostic.lineNumber line
    return ⟨(Diagnostic.kind line).name, file, n.getD 0, take 100 line⟩

def fileErrors (l : Language) (name code : String) : Run (List FoundError) := do
  Sandbox.copyFile code name
  let checked ← Sandbox.checkFile name l
  if checked.ok then return [] else Run.ofExcept (listedErrors name checked.errors)

def compileScope (l : Language) (scope : Scope) (files : List String) (texts : Texts) :
    Run Sandbox.Checked :=
  match scope with
  | .whole => Sandbox.compileProject files l
  | .each => do
    let results ← texts.mapM fun (name, _) => Sandbox.checkFile name l
    let failed := results.filter fun r => !r.ok
    return ⟨failed.isEmpty, unlines (failed.map (·.errors))⟩

/-- The first place that a report names; else the first file whose name occurs in it. -/
def firstTarget (l : Language) (input report : String) (texts : Texts) :
    Except Fault (Option Diagnostic.Target) := do
  match ← Diagnostic.targets (some l) report input with
  | t :: _ => return some t
  | [] =>
    match texts.find? fun (name, _) => contains report name with
    | none => return none
    | some (name, _) =>
      let n ← Diagnostic.lineNumber report
      return some ⟨name, ((Diagnostic.given n).getD 1), take 100 report⟩

/-- Files under repair with the figures about it. -/
structure Counted where
  texts : Texts
  stats : Statistics
  fixed : List String := []

namespace Counted

def revise (c : Counted) (t : Diagnostic.Target) (k : Diagnostic.Kind) (method code : String) :
    Counted :=
  { texts := c.texts.put t.file code
    stats := c.stats.addFixed ⟨k.name, t.file, t.line, method, k.hard⟩
    fixed := c.fixed ++ [t.file] }

end Counted

/-- Repairs the file that a report names, first without the model; nothing if that fails. -/
def countedFix (m : Model) (l : Language) (c : Counted) (t : Diagnostic.Target)
    (code report : String) : Run (Option Counted) := do
  let k := Diagnostic.kind report
  let (new, fixed) ← localFix code report l.name
  if fixed && new ≠ code then
    Sandbox.copyFile new t.file
    let c := { c with stats := { c.stats with localFixes := c.stats.localFixes + 1 } }
    return some (c.revise t k "local_rule" new)
  match (← propose m l code report (some t.line)).change? code with
  | some new =>
    let new ← Run.keep code new
    Sandbox.copyFile new t.file
    let c := { c with stats := { c.stats with modelFixes := c.stats.modelFixes + 1 } }
    return some (c.revise t k "llm" new)
  | none => return none

def countedRounds : Nat := 20

def countedLoop (m : Model) (l : Language) (scope : Scope) (input : String) (files : List String) :
    Nat → Counted → Run Counted
  | 0, c => return c
  | left + 1, c => do
    let round := countedRounds - left
    let c := { c with stats := { c.stats with rounds := round } }
    let compiled ← compileScope l scope files c.texts
    if compiled.ok then
      Run.say s!"  [ITER {round}] 编译成功"
      return c
    match ← Run.ofExcept (firstTarget l input compiled.errors c.texts) with
    | none =>
      Run.say s!"  [ITER {round}] 无法解析错误位置"
      return c
    | some t =>
      Run.say s!"  [ITER {round}] {t.file}:{t.line}"
      match c.texts.lookup t.file with
      | none => countedLoop m l scope input files left c
      | some code =>
        match ← countedFix m l c t code compiled.errors with
        | some next => countedLoop m l scope input files left next
        | none =>
          Run.say s!"  [ITER {round}] 无法修复 {t.file}"
          return c

def initialErrors (l : Language) (files : List String) : Run (List FoundError) :=
  files.foldlM (fun errors path => do
    let code ← Run.readFile path false
    return errors ++ (← fileErrors l (Path.baseName path) code)) []

def finalErrors (l : Language) (texts : Texts) : Run (List FoundError) :=
  texts.foldlM (fun errors (name, code) => do return errors ++ (← fileErrors l name code)) []

def readTexts (files : List String) : Run Texts :=
  files.foldlM (fun ts path => do return ts.put (Path.baseName path) (← Run.readFile path false)) []

/-- Repairs files in a container that has been made, and collects the figures. -/
def countedPhases (l : Language) (scope : Scope) (input output : String) (files : List String) :
    Run Statistics := do
  Run.say "\n[阶段 1] 收集初始错误..."
  let initial ← initialErrors l files
  Run.say s!"  初始错误数: {initial.length}"
  Run.say "\n[阶段 2] 执行修复..."
  let m ← Model.connect "qwen"
  let texts ← readTexts files
  let stats : Statistics := { initial := initial, filesProcessed := files.length }
  let c ← countedLoop m l scope input files countedRounds { texts := texts, stats := stats }
  Run.say "\n[阶段 3] 收集最终错误..."
  let final ← finalErrors l c.texts
  saveFiles output c.texts
  Sandbox.remove
  return { c.stats with final := final, filesFixed := (sorted c.fixed).length }

/-- The files to repair, the directory they are in, and the language, which may not be known. -/
def countedFiles (d : Disk) (input : String) (lang : Option String) :
    List String × String × Option String :=
  if d.isFile input then ([input], Path.dirName input, lang)
  else
    let found := (lang.filter (· ≠ "")) <|>
      (languageIn d input projectSuffixes).map Language.name <|> lang
    let suffix := match found.bind Language.ofName? with
      | some l => l.profile.suffix
      | none => ".py"
    (Glob.withSuffix d input suffix, input, found)

/-- Repairs a file or the files of a directory and reports figures. It reports nothing if there are
no files. -/
def counted (input : String) (output lang : Option String) (scope : Scope := .whole) :
    Run (Option Statistics.Summary) := do
  let (files, dir, lang) := countedFiles (← Run.disk) input lang
  if files.isEmpty then
    Run.say "[ERROR] 未找到源文件"
    return none
  let output := outputDir dir output
  Run.makeDirs output
  Run.say bar
  match lang with
  | none => throw .noOperation
  | some lang =>
    Run.say s!"[AUTO FIX WITH STATS] 语言: {Prompt.upper lang}"
    Run.say s!"[INPUT] {input} ({files.length} 个文件)"
    Run.say s!"[OUTPUT] {output}"
    Run.say bar
    Sandbox.setUp lang
    let l ← Run.ofExcept (Language.ofName lang)
    let stats ← countedPhases l scope dir output files
    return some (← stats.publish (some (Path.join output "fix_report.txt")))

end Mender.Workflow
