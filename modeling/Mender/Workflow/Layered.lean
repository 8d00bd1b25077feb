import Mender.Project.Layers
import Mender.Workflow.Files

/-! Repairing a project in layers: data structures first, then the steps in their order, then the
files that start them. -/
namespace Mender.Workflow
open Text

/-- A file of a layer; a dot stands for no layer. -/
structure LayerFile where
  layer : String
  name : String
  deriving Repr, DecidableEq

namespace LayerFile

def label (f : LayerFile) : String := f.layer ++ "/" ++ f.name

def title (f : LayerFile) : String :=
  if f.layer = Layers.dataDir then "L0-基础"
  else if f.layer = Layers.stepDir then "L1-步骤"
  else "L2-入口"

def pathIn (f : LayerFile) (dir : String) : String :=
  if f.layer = "." then Path.join dir f.name else Path.join (Path.join dir f.layer) f.name

end LayerFile

def layerFiles (ls : Layers) : List LayerFile :=
  ls.dataFiles.map (⟨Layers.dataDir, ·⟩) ++ ls.stepFiles.map (⟨Layers.stepDir, ·⟩) ++
    ls.entryFiles.map (⟨".", ·⟩)

/-- Reads back a file that the checker has mended; its text and the number of repairs. -/
def readBack (f : LayerFile) (code : String) (fixes : Nat) : Run (String × Nat) := do
  let o ← Sandbox.exec s!"cat {Sandbox.layeredPath f.layer f.name}" (some 10)
  if o.stdout ≠ "" && o.stdout ≠ code then
    Run.say "  [RUFF] 自动修复应用"
    return (o.stdout, fixes + 1)
  else return (code, fixes)

/-- Checks and repairs a file of a layer, at most `left` times; the checker mends it the first time.
The result is its text and the number of repairs. -/
def layerLoop (m : Model) (l : Language) (f : LayerFile) : Nat → String → Nat → Run (String × Nat)
  | 0, code, fixes => return (code, fixes)
  | left + 1, code, fixes => do
    let first := maxRounds = left + 1
    let checked ← Sandbox.checkLayered f.layer f.name first
    let (code, fixes) ← if first then readBack f code fixes else pure (code, fixes)
    if checked.ok then
      Run.say "  [OK] 无语法错误"
      return (code, fixes)
    Run.say s!"  [ITER {maxRounds - left}] {take 80 checked.errors}..."
    let (new, fixed) ← localFix code checked.errors l.name
    if fixed && new ≠ code then
      Sandbox.copyLayered new f.layer f.name
      layerLoop m l f left new (fixes + 1)
    else
      match (← propose m l code checked.errors).change? code with
      | some new =>
        let code ← Run.keep code new
        Sandbox.copyLayered code f.layer f.name
        layerLoop m l f left code (fixes + 1)
      | none =>
        Run.say "  [STOP] 无法继续修复"
        return (code, fixes)

/-- Repairs one file of a layer and writes it to the directory for the results. -/
def repairLayerFile (m : Model) (l : Language) (project output : String) (f : LayerFile) :
    Run FileResult := do
  let source ← Run.readFile (f.pathIn project) false
  Sandbox.copyLayered source f.layer f.name
  let (code, fixes) ← layerLoop m l f maxRounds source 0
  Run.writeFile (f.pathIn output) code
  return ⟨f.label, fixes, code ≠ source⟩

/-- Repairs files of layers one after the other; `count` is the number of all of them. -/
def repairLayerFiles (m : Model) (l : Language) (project output : String) (count : Nat) :
    List LayerFile → Nat → Run (List FileResult)
  | [], _ => return []
  | f :: rest, done => do
    Run.say s!"\n[{done + 1}/{count}] {f.label}"
    let r ← repairLayerFile m l project output f
    return r :: (← repairLayerFiles m l project output count rest (done + 1))

def verifyEntries (output : String) (entries : List String) : Run Unit :=
  entries.forM fun entry => do
    Sandbox.copyLayered (← Run.readFile (Path.join output entry) true) "." entry
    let checked ← Sandbox.checkLayered "." entry
    let status := if checked.ok then "✓ 通过" else "✗ 错误: " ++ take 50 checked.errors
    Run.say s!"  {entry}: {status}"

def summariseLayers (results : List FileResult) (total : Nat) : Run Unit := do
  Run.say ("\n" ++ bar)
  Run.say "[SUMMARY] 分层项目修复完成"
  Run.say bar
  Run.say s!"总文件数: {results.length}"
  Run.say s!"修复次数: {total}"
  let changed := results.filter (·.changed)
  Run.say s!"已修改: {changed.length} 个文件"
  changed.forM fun r => Run.say s!"  - {r.name} ({r.fixes} 处)"

def announce (files : List LayerFile) : Run Unit := do
  Run.say s!"\n[修复顺序] 共 {files.length} 个文件"
  files.zipIdx.forM fun (f, i) => Run.say s!"  {i + 1}. [{f.title}] {f.label}"
  Run.say ("\n" ++ replicate 60 '-')

def repairLayers (ls : Layers) (project output : String) (lang : Option String) : Run Unit := do
  Run.makeDirs output
  Run.makeDirs (Path.join output Layers.dataDir)
  Run.makeDirs (Path.join output Layers.stepDir)
  Sandbox.setUp lang
  let l ← Run.ofExcept (Language.find lang)
  let dataPath := Sandbox.inWorkspace Layers.dataDir
  let stepPath := Sandbox.inWorkspace Layers.stepDir
  discard (Sandbox.exec s!"mkdir -p {dataPath} {stepPath}" (some 10))
  let m ← Model.connect "qwen"
  let files := layerFiles ls
  announce files
  let done ← repairLayerFiles m l project output files.length files 0
  summariseLayers (done.foldl FileResult.put []) (FileResult.total done)
  Run.say "\n[验证] 检查入口文件..."
  verifyEntries output ls.entryFiles
  Sandbox.remove
  Run.say s!"\n[输出] {output}"

def layered (project : String) (output : Option String) (lang : Option String := some "python") :
    Run Bool := do
  Run.say bar
  Run.say "[LAYERED PROJECT FIX] 分层项目修复"
  Run.say bar
  match ← Run.ofExcept (Layers.find (← Run.disk) project) with
  | none =>
    Run.say s!"[ERROR] 目录 {project} 不是分层结构"
    Run.say "期望结构: data_structure/ + code/ + 入口文件"
    return false
  | some ls =>
    Run.say "\n[结构检测]"
    Run.say s!"  data_structure/: {ls.dataFiles.length} 个文件"
    Run.say s!"  code/:           {ls.stepFiles.length} 个文件"
    Run.say s!"  入口文件:        {quotedList ls.entryFiles}"
    repairLayers ls project (outputDir project output) lang
    return true

end Mender.Workflow
