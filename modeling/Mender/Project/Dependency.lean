import Mender.Language
import Mender.Project.Disk
import Mender.Text.Capital

/-! Which files of a project a source file depends on. -/
namespace Mender
open Text

/-- A dependency graph: files with the files that they depend on, in the order in which they were
added. -/
abbrev Graph := List (String × List String)

namespace Graph

/-- The graph with a file's dependencies set; a file that is there keeps its place. -/
def put (g : Graph) (file : String) (deps : List String) : Graph :=
  if g.any fun e => e.1 = file then g.map fun e => if e.1 = file then (file, deps) else e
  else g ++ [(file, deps)]

end Graph

namespace Dependency

def scriptImport : Pattern :=
  .read "^\\s*(?:from\\s+(\\w+)|import\\s+(\\w+))" { perLine := true }

def classImport : Pattern := .read "^\\s*import\\s+[\\w.]+\\.(\\w+)\\s*;" { perLine := true }

def classUse : Pattern := .read "\\bnew\\s+(\\w+)\\s*\\(|\\b(\\w+)\\s+\\w+\\s*="

def headerInclude : Pattern := .read "#include\\s*\"([^\"]+)\""

def beside (d : Disk) (dir name : String) : Option String :=
  let path := Path.join dir name
  if d.exists? path then some (Path.baseName path) else none

def ofScript (d : Disk) (dir text : String) : List String :=
  (scriptImport.findAll text).filterMap fun m =>
    beside d dir (((m.group? 1 <|> m.group? 2).getD "") ++ ".py")

def ofClass (d : Disk) (dir self text : String) : List String :=
  let imported := (classImport.findAll text).filterMap fun m => beside d dir (m.group 1 ++ ".java")
  let used := (classUse.findAll text).filterMap fun m =>
    let name := (m.group? 1 <|> m.group? 2).getD ""
    if (head? name).any isCapital then
      (beside d dir (name ++ ".java")).filter fun file => file ≠ self
    else none
  imported ++ used

/-- The headers that a C or C++ file includes, and the files that go with them. -/
def ofHeaders (d : Disk) (dir text : String) : List String :=
  (headerInclude.findAll text).flatMap fun m =>
    let header := m.group 1
    (header :: [".cpp", ".c", ".cc"].map (Path.stem header ++ ·)).filterMap (beside d dir)

def ofFile (d : Disk) (path : String) (lang : Option Language) : Except Fault (List String) := do
  let text ← d.read path false
  let dir := Path.dirName path
  return sorted <|
    match lang with
    | some .python => ofScript d dir text
    | some .java => ofClass d dir (Path.baseName path) text
    | some _ => ofHeaders d dir text
    | none => []

def graph (d : Disk) (files : List String) (lang : Option Language) : Except Fault Graph := do
  let names := files.map Path.baseName
  let entries ← files.mapM fun path => do
    let name := Path.baseName path
    let deps ← ofFile d path lang
    return (name, deps.filter fun dep => names.contains dep && dep ≠ name)
  return entries.foldl (fun g (name, deps) => g.put name deps) []

end Dependency

def mainFile? (d : Disk) (lang : Language) : List String → Except Fault (Option String)
  | [] => .ok none
  | path :: rest => do
    let text ← d.read path false
    if lang.mainPattern.occurs text then return some (Path.baseName path)
    else mainFile? d lang rest

end Mender
