import Mender.Source.Edit

/-! Indentation of scripts. -/
namespace Mender.Repair
open Text

def opensBlock (line : String) : Bool := endsWith (trimEnd line) ":"

/-- Gives line `n` a new indentation, computed from the line before it (if there is one). -/
def reindent (code : String) (n : Option Int) (what : String)
    (width : Option String → Option Nat) : Edit :=
  let ls := lines code
  match lineAt? ls n with
  | none => .keep code
  | some (i, line) =>
    let previous := match i with
      | 0 => none
      | j + 1 => ls[j]?
    match width previous with
    | none => .keep code
    | some w => .ofLines (ls.set i (indented w (trimStart line))) [repairNoteAt what (i + 1)]

/-- Indents line `n` as the line before it, and by four more if that line opens a block. -/
def adjustIndent (code : String) (n : Option Int) : Edit :=
  reindent code n "调整缩进" fun
    | none => some 0
    | some p => some (indentWidth p + if opensBlock p then 4 else 0)

def dropIndent (code : String) (n : Option Int) : Edit :=
  reindent code n "去除多余缩进" fun
    | none => none
    | some p => if opensBlock p then none else some (indentWidth p)

def addIndent (code : String) (n : Option Int) : Edit :=
  reindent code n "添加缩进" fun
    | none => some 4
    | some p => some (indentWidth p + 4)

/-- The indentations that a line may have after the given ones: none, those of the lines that are
not blank, and four more after a line that opens a block. -/
def validIndents (before : List String) : List Nat :=
  0 :: (before.filter fun l => trim l != "").flatMap fun l =>
    indentWidth l :: if opensBlock l then [indentWidth l + 4] else []

def gap (a b : Nat) : Nat := (a - b) + (b - a)

/-- Whether `a` is a better choice than `b` for the width `w`: nearer, or as near and smaller. -/
def nearer (w a b : Nat) : Bool := gap a w < gap b w || (gap a w == gap b w && a < b)

def nearest (w : Nat) (widths : List Nat) : Nat :=
  widths.foldl (fun best a => if nearer w a best then a else best) (widths.headD 0)

def matchIndent (code : String) (n : Option Int) : Edit :=
  let ls := lines code
  match lineAt? ls n with
  | none => .keep code
  | some (i, line) =>
    let width := indentWidth line
    let best := nearest width (validIndents (ls.take i))
    if best = width then .keep code
    else .ofLines (ls.set i (indented best (trimStart line)))
      [repairNote s!"修复缩进不匹配: 第 {i + 1} 行 (调整为 {best} 空格)"]

def tabsToSpaces (code : String) : Edit :=
  match changed code (replace code "\t" "    ") with
  | none => .keep code
  | some new => ⟨new, [repairNote "修复混合缩进"]⟩

end Mender.Repair
