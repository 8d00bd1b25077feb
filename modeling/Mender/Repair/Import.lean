import Mender.Source.Edit
import Mender.Pattern.Search
import Mender.Project.Modules

/-! Import statements of scripts: module names cut short and relative imports. -/
namespace Mender.Repair
open Text

def lastPart (path : String) : String := (splitOn '.' path).getLastD ""

/-- The full path of a module whose name is missing: an indexed name or path end with an underscore
in its last part, else a module whose last part begins with the name and an underscore. -/
def fullModule? (index : ModuleIndex) (missing : String) : Option String :=
  match index.find? fun (name, path) =>
      (name == missing || endsWith path ("." ++ missing)) && contains (lastPart path) "_" with
  | some (_, path) => some path
  | none => (index.find? fun (_, path) => startsWith (lastPart path) (missing ++ "_")).map (·.2)

def changeFirstLine (ls : List String) (f : String → Option String) : Option (List String) :=
  match ls with
  | [] => none
  | l :: rest =>
    match f l with
    | some new => some (new :: rest)
    | none => (changeFirstLine rest f).map (l :: ·)

def renameImport (old new line : String) : String :=
  replace (replace line s!"from {old} " s!"from {new} ") s!"import {old}" s!"import {new}"

/-- Restores the name of a module that was not found, or makes its relative import absolute. -/
def moduleNotFound (index : ModuleIndex) (code missing : String) : Edit :=
  let ls := lines code
  let restored := (fullModule? index missing).bind fun full =>
    let correct := if contains missing "." then full else lastPart full
    (changeFirstLine ls fun line =>
      if contains line s!"from {missing} import" || contains line s!"import {missing}" then
        changed line (renameImport missing correct line)
      else none).map fun new =>
        Edit.ofLines new [repairNote s!"模块路径恢复: {missing} -> {correct}"]
  match restored with
  | some e => e
  | none =>
    match changeFirstLine ls fun line =>
        changed line (replace line s!"from .{missing}" s!"from {missing}") with
    | some new => .ofLines new [repairNote s!"相对导入转绝对: .{missing} -> {missing}"]
    | none => .decline code s!"  [INFO] 无法自动修复模块不存在错误: {missing}，需 LLM 处理"

def symbolNotImported (index : ModuleIndex) (code symbol module : String) : Edit :=
  let found := (index.find? fun (_, path) =>
    startsWith (lastPart path) (module ++ "_") || contains path module).map fun e => lastPart e.2
  let restored := found.bind fun correct =>
    if correct = "" || correct = module then none
    else (changeFirstLine (lines code) fun line =>
      if contains line s!"from {module} import" && contains line symbol then
        changed line (replace line s!"from {module} " s!"from {correct} ")
      else none).map fun new =>
        Edit.ofLines new [repairNote s!"导入路径修复: from {module} -> from {correct}"]
  match restored with
  | some e => e
  | none => .decline code s!"  [INFO] 无法自动修复导入错误: {symbol} from {module}，需 LLM 处理"

def relativeModule : Pattern := .read "^(\\s*)from\\s+\\.\\s+import\\s+(\\w+)"

def relativeNames : Pattern := .read "^(\\s*)from\\s+\\.(\\w+)\\s+import\\s+(.+)"

def absoluteImport (line : String) : Option (String × String) :=
  match relativeModule.matchStart line with
  | some m =>
    let name := m.group 2
    some (m.group 1 ++ "import " ++ name,
      repairNote s!"相对导入转绝对: from . import {name} -> import {name}")
  | none =>
    (relativeNames.matchStart line).map fun m =>
      let name := m.group 2
      (m.group 1 ++ "from " ++ name ++ " import " ++ m.group 3,
        repairNote s!"相对导入转绝对: from .{name} -> from {name}")

def relativeImport (code : String) : Edit :=
  let ls := lines code
  if ls.any fun l => (absoluteImport l).isSome then
    .ofLines (ls.map fun l => ((absoluteImport l).map (·.1)).getD l)
      (ls.filterMap fun l => (absoluteImport l).map (·.2))
  else .decline code "  [INFO] 无法自动修复相对导入错误，需 LLM 处理"

def restoreImport (short full line : String) : Option String :=
  if contains line s!"from {short} " || contains line s!"import {short}" then
    changed line (renameImport short full line)
  else none

def truncatedImport (code short full : String) : Edit :=
  let ls := lines code
  .ofLines (ls.map fun l => (restoreImport short full l).getD l)
    ((ls.filterMap (restoreImport short full)).map fun _ =>
      repairNote s!"模块路径恢复: {short} -> {full}")

end Mender.Repair
