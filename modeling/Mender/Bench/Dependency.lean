import Mender.Project.Layers
import Mender.Project.Modules
import Mender.Project.Order
import Mender.Repair.Import

/-! A project of any size on a disk, whose modules depend on each other in a circle. -/
namespace Mender.Bench
open Text

def otherCount (n : Nat) : Nat := max 4 (n / 4)

def numberedPaths (stem suffix : String) (n : Nat) : List String :=
  (List.range n).map fun i => stem ++ toString i ++ suffix

def moduleText (n i : Nat) : String :=
  unlines ["import os", "import json", s!"from mod{(i + 1) % n} import helper", "",
    "def helper():", "    return 0",
    if i = 0 then "if __name__ == \"__main__\": helper()" else "helper()"]

def classText (n i : Nat) : String :=
  let next := (i + 1) % n
  unlines [s!"public class Cls{i} \x7b",
    if i = 0 then "    public static void main(String[] a) \x7b" else "    void run() \x7b",
    s!"        Cls{next} c = new Cls{next}();", "    \x7d", "\x7d"]

def headerUser (n i : Nat) : String :=
  unlines [s!"#include \"m{(i + 1) % n}.h\"", s!"int f{i}() \x7b return {i}; \x7d"]

def projectFiles (n : Nat) : List (List String × String) :=
  let k := otherCount n
  ((List.range n).map fun i => (["proj", s!"mod{i}.py"], moduleText n i)) ++
  ((List.range k).map fun i => (["proj", s!"Cls{i}.java"], classText k i)) ++
  ((List.range k).map fun i => (["proj", s!"m{i}.cpp"], headerUser k i)) ++
  ((List.range k).map fun i => (["proj", s!"m{i}.h"], s!"int f{i}();")) ++
  [(["proj", "layered", "code", "step0_phase.py"], ""),
   (["proj", "layered", "code", "step1_phase.py"], ""),
   (["proj", "layered", "data_structure", "ds0.py"], ""),
   (["proj", "layered", "data_structure", "ds1.py"], ""),
   (["proj", "layered", "entry.py"], ""),
   (["proj", "flat", "solo.py"], "")]

def projectDisk (n : Nat) : Disk :=
  (projectFiles n).foldl (fun d (place, text) => d.place place ⟨text, true⟩) {}

structure ProjectView where
  scripts : List String
  classes : List String
  compiled : List String
  lineCount : Nat
  mainScript : Option String
  mainClass : Option String
  layers : Option Layers
  noLayers : Option Layers
  nameCount : Nat
  restored : String
  absolute : String

def dependencies (n : Nat) : Except Fault ProjectView := do
  let d := projectDisk n
  let k := otherCount n
  let scripts := numberedPaths "proj/mod" ".py" n
  let classes := numberedPaths "proj/Cls" ".java" k
  let compiled := numberedPaths "proj/m" ".cpp" k
  let texts ← scripts.mapM fun path => d.read path false
  return {
    scripts := (← Dependency.graph d scripts (some .python)).order
    classes := (← Dependency.graph d classes (some .java)).order
    compiled := (← Dependency.graph d compiled (some .cpp)).order
    lineCount := texts.foldr (fun text n => (lines text).length + n) 0
    mainScript := ← mainFile? d .python scripts
    mainClass := ← mainFile? d .java classes
    layers := ← Layers.find d "proj/layered"
    noLayers := ← Layers.find d "proj/flat"
    nameCount := (ModuleIndex.scan d "proj").length
    restored :=
      let code := "from step1 import x\nfrom .rel import y\n"
      (Repair.truncatedImport code "step1" "step1_phase").code
    absolute := (Repair.relativeImport "from .ds0 import X\n").code }

end Mender.Bench
