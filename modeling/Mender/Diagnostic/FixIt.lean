import Mender.Source.Edit
import Mender.Pattern.Search

/-! Fix-it hints of a compiler: a span of columns and the text to put there. -/
namespace Mender

namespace Diagnostic
open Text

/-- A replacement that a compiler proposes. Lines and columns count from one; the end column is the
one after the span. -/
structure FixIt where
  startLine : Int
  startCol : Int
  endLine : Int
  endCol : Int
  text : String
  deriving Repr, DecidableEq

def fixItLine : Pattern :=
  .read "fix-it:\"[^\"]+\":\\\x7b(\\d+):(\\d+)-(\\d+):(\\d+)\\\x7d:\"([^\"]*)\""

def unescapeFixIt (s : String) : String := replace (replace s "\\n" "\n") "\\t" "\t"

def fixIts (output : String) : Except Fault (List FixIt) :=
  (fixItLine.findAll output).mapM fun m => do
    return { startLine := ← readNumber (m.group 1), startCol := ← readNumber (m.group 2),
             endLine := ← readNumber (m.group 3), endCol := ← readNumber (m.group 4),
             text := unescapeFixIt (m.group 5) }

/-- A line with the span of a fix-it replaced; nothing if the columns lie outside the line or the
line stays the same. -/
def FixIt.onLine (f : FixIt) (line : String) : Option String :=
  if f.startCol ≤ length line + 1 ∧ f.endCol ≤ length line + 1 then
    changed line (upTo (f.startCol - 1) line ++ f.text ++ onward (f.endCol - 1) line)
  else none

/-- Applies one fix-it to the lines of a text; only spans within one line are applied. -/
def FixIt.apply (f : FixIt) (ls : List String) : Option (List String) :=
  if f.startLine = f.endLine then
    match lineAt? ls (some f.startLine) with
    | none => none
    | some (i, line) => (f.onLine line).map (ls.set i)
  else none

def FixIt.notBefore (a b : FixIt) : Bool :=
  b.startLine < a.startLine || (b.startLine == a.startLine && b.startCol ≤ a.startCol)

/-- Applies fix-its from the end of the text to its start, so that columns stay valid. -/
def applyFixIts (code : String) (fs : List FixIt) : Attempt :=
  let step (state : List String × List String) (f : FixIt) :=
    match f.apply state.1 with
    | none => state
    | some ls => (ls, state.2 ++ [s!"  [FIXIT] 行 {f.startLine}: 应用修复建议"])
  let (ls, notes) := (fs.mergeSort FixIt.notBefore).foldl step (lines code, [])
  { code := unlines ls, notes := notes, applied := !notes.isEmpty }

/-- Applies the fix-its of a compiler's output, for the languages whose compilers give them. -/
def tryFixIts (code output lang : String) : Except Fault Attempt :=
  if lang = "c" ∨ lang = "cpp" then do
    let fs ← fixIts output
    if fs.isEmpty then return .none code
    let done := applyFixIts code fs
    return { done with notes := s!"  [FIXIT] 发现 {fs.length} 个编译器修复建议" :: done.notes }
  else .ok (.none code)

end Diagnostic

end Mender
