import Mender.Bench.Sample
import Mender.Diagnostic.Context
import Mender.Diagnostic.Kind
import Mender.Diagnostic.Target

/-! Messages of tools in any number, and what is read from them. -/
namespace Mender.Bench
open Text Diagnostic

def scriptTrace (n : Nat) : String :=
  unlines ((List.range n).map fun i =>
    s!"  File \"proj/mod{i % 5}.py\", line {i + 1}, in func")

/-- Messages of a Java compiler with stack frames, which go round thirty lines. -/
def classMessages (n : Nat) : String :=
  unlines ((List.range n).map fun i =>
    let line := i % 30 + 1
    s!"Main.java:{line}: error: ';' expected\n    at pkg.Main.run(Main.java:{line})")

def compilerMessages (n : Nat) : String :=
  unlines ((List.range n).map fun i =>
    s!"mod{i % 4}.cpp:{i + 1}:3: error: expected ';' before 'x'")

def kindMessages : List String :=
  ["E711 comparison to None", "variable y might not have been initialized",
   "undefined reference to foo", "Traceback (most recent call last):", "error: ';' expected",
   "error: expected '\x7d' at end of input", "error: expected ')' before 'x'",
   "SyntaxError: invalid syntax", "error: unclosed string literal", "something else"]

structure Diagnoses where
  lines : List (List Int)
  contexts : List (Option (Int × String))
  blocks : List (Option String)
  texts : List (Option String)
  places : List (List Target)
  files : List (List String)
  kinds : List Kind
  numbers : List (Option Int)

def diagnoses (n : Nat) : Except Fault Diagnoses := do
  let trace := scriptTrace n
  let classes := classMessages n
  let compiled := compilerMessages n
  let size := max 60 n
  let code := cSample size
  let script := scriptSample size
  let marked := unlines ([3, 30, size - 1].map fun k => s!"a.cpp:{k}:1: error: bad")
  return {
    lines := [← errorLines .python trace, ← errorLines .java classes, ← errorLines .cpp compiled]
    contexts :=
      [← context .cpp code marked, ← context .python script "  File \"a.py\", line 5",
       ← context .python script "no place"]
    blocks :=
      [relatedCode true script (some 30), relatedCode false code (some 30),
       relatedCode false code none]
    texts := [lineText code (some 3), lineText code (some 100000)]
    places :=
      [← targets (some .python) trace "proj", ← targets (some .java) classes "proj",
       ← targets (some .cpp) compiled "proj"]
    files :=
      [otherFiles (some .python) "cannot import name 'x' from 'util'",
       otherFiles (some .java) "symbol: class Helper",
       otherFiles (some .cpp) "fatal error: helper.h: No such file or directory"]
    kinds := (List.replicate (max 1 (n / 10)) (kindMessages.map kind)).flatten
    numbers :=
      [← lineNumber "a.cpp:42: error: bad", ← lineNumber "line 17", ← lineNumber "nothing"] }

end Mender.Bench
