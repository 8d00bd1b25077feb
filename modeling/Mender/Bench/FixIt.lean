import Mender.Diagnostic.Suggestion

/-! Fix-its and suggestions of a compiler, in any number. -/
namespace Mender.Bench
open Text Diagnostic

def fixItLines (n : Nat) : Nat := max 40 (n / 4)

def fixItCode (n : Nat) : String :=
  unlines ((List.range (fixItLines n)).map fun i => s!"int v{i} = {i}")

/-- A compiler's output with a number of fix-its, which go round the lines of the text. Each puts a
semicolon at the start of its line. -/
def fixItOutput (n : Nat) : String :=
  unlines ((List.range n).map fun i =>
    let line := i % fixItLines n + 1
    s!"fix-it:\"f.cpp\":\x7b{line}:1-{line}:1\x7d:\";\"")

/-- A compiler's output that names an undeclared function and suggests another one. -/
def suggestionOutput (line : Nat) : String :=
  unlines [s!"f.cpp:{line}:5: error: 'prinft' was not declared in this scope; " ++
    "did you mean 'printf'?",
    s!"f.cpp:{line}:5: note: suggested alternative: 'printf'"]

/-- What is done with the fix-its and suggestions of a compiler. -/
structure FixItResult where
  found : Nat
  applied : Attempt
  tried : Attempt
  suggested : List String
  renamed : Attempt

def fixIts (n : Nat) : Except Fault FixItResult := do
  let code := fixItCode n
  let output := fixItOutput n
  let found ← Diagnostic.fixIts output
  let tried ← tryFixIts code output "cpp"
  let message := suggestionOutput (fixItLines n + 1)
  let suggested := suggestions message
  let renamed ← applySuggestion (code ++ "\n    prinft(\"hi\");") message suggested
  return { found := found.length, applied := applyFixIts code found, tried, suggested, renamed }

end Mender.Bench
