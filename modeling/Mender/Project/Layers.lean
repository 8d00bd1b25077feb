import Mender.Pattern.Search
import Mender.Project.Disk

/-! Projects in layers: data structures, steps, and the files that start them. -/
namespace Mender
open Text

structure Layers where
  dataFiles : List String
  stepFiles : List String
  entryFiles : List String
  deriving Repr, DecidableEq

namespace Layers

def dataDir : String := "data_structure"

def stepDir : String := "code"

def stepPattern : Pattern := .read "step(\\d+)"

def stepNumber (name : String) : Except Fault Int :=
  match stepPattern.search (lower name) with
  | some m => readNumber (m.group 1)
  | none => .ok 999

def scripts (d : Disk) (dir : String) : Except Fault (List String) := do
  return (← d.list dir).filter fun name => endsWith name ".py"

/-- The step files of a directory in their order; files of one number stay as they are listed. -/
def steps (d : Disk) (dir : String) : Except Fault (List String) := do
  let files ← scripts d dir
  let numbered ← files.mapM fun name => do return (← stepNumber name, name)
  return (numbered.mergeSort fun a b => decide (a.1 ≤ b.1)).map (·.2)

def find (d : Disk) (project : String) : Except Fault (Option Layers) := do
  let dataPath := Path.join project dataDir
  let stepPath := Path.join project stepDir
  let entries := (← scripts d project).filter fun name => d.isFile (Path.join project name)
  if d.isDir dataPath || d.isDir stepPath then
    let dataFiles ← if d.isDir dataPath then (scripts d dataPath).map sorted else pure []
    let stepFiles ← if d.isDir stepPath then steps d stepPath else pure []
    return some ⟨dataFiles, stepFiles, entries⟩
  else return none

end Layers

end Mender
