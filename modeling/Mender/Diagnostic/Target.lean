import Mender.Fault
import Mender.Language
import Mender.Text.Order

/-! The files that a message speaks of. -/
namespace Mender.Diagnostic
open Text

/-- A place that a message names: a file, a line, and the text from there on. -/
structure Target where
  file : String
  line : Int
  desc : String
  deriving Repr, DecidableEq

def scriptPlace : Pattern := .read "File \"([^\"]+)\", line (\\d+)"

def classPlace : Pattern := .read "([\\w]+\\.java):(\\d+)"

def framePlace : Pattern := .read "at [\\w.]+\\(([\\w]+\\.java):(\\d+)\\)"

def compilerPlace : Pattern := .read "([\\w_-]+\\.(?:c|cpp|cc|h|hpp)):(\\d+):\\d+:"

def target (message : String) (m : Pattern.Found) : Except Fault Target := do
  let n ← readNumber (m.group 2)
  return ⟨m.group 1, n, take 100 (drop m.start message)⟩

/-- The targets of a script's trace that lie in a project.
Names that do not begin at the root do. -/
def scriptTargets (message project : String) : Except Fault (List Target) := do
  let ts ← (scriptPlace.findAll message).mapM (target message)
  return ts.filterMap fun t =>
    if contains t.file project || !startsWith t.file "/" then
      some { t with file := Path.baseName t.file }
    else none

def addFrames (known : List Target) : List Pattern.Found → Except Fault (List Target)
  | [] => .ok known
  | m :: ms => do
    let n ← readNumber (m.group 2)
    let isKnown := known.any fun t => t.file = m.group 1 && t.line = n
    addFrames
      (if isKnown then known else known ++ [⟨m.group 1, n, s!"Runtime error at line {n}"⟩]) ms

def targets (lang : Option Language) (message project : String) : Except Fault (List Target) :=
  match lang with
  | some .python => scriptTargets message project
  | some .java => do
    let known ← (classPlace.findAll message).mapM (target message)
    addFrames known (framePlace.findAll message)
  | some _ => (compilerPlace.findAll message).mapM (target message)
  | none => .ok []

def failedModule : Pattern := .read "from '(\\w+)'"

def namedClass : Pattern := .read "class\\s+(\\w+)"

def namedHeader : Pattern := .read "([\\w-]+\\.h)"

def otherFiles (lang : Option Language) (message : String) : List String :=
  match lang with
  | some .python =>
    match failedModule.search message with
    | some m => [m.group 1 ++ ".py"]
    | none => []
  | some .java => sorted ((namedClass.findAll message).map fun m => m.group 1 ++ ".java")
  | some _ => sorted ((namedHeader.findAll message).map fun m => m.group 1)
  | none => []

end Mender.Diagnostic
