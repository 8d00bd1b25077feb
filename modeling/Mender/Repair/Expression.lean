import Mender.Source.Edit
import Mender.Diagnostic.Location

/-! Missing operands, commas and names inside a statement. -/
namespace Mender.Repair
open Text

def leadingComma : Pattern := .read "\\(\\s*,"

def trailingComma : Pattern := .read ",\\s*\\)"

def doubleSemicolon : Pattern := .read ";\\s*;"

def emptyExpression (code : String) (n : Option Int) : Edit :=
  repairLine code n "修复空表达式" fun line =>
    changed line (doubleSemicolon.replaceAll ";"
      (trailingComma.replaceAll ")" (leadingComma.replaceAll "(" line)))

def emptyStatement (code : String) (n : Option Int) : Except Fault Edit :=
  match Diagnostic.given n with
  | none => .ok (.keep code)
  | some n =>
    if 1 < n then do
      let ls := lines code
      if trim (← lineWithIndex ls (n - 2)) = "" then
        return .ofLines (ls.eraseIdx (n - 2).toNat) [repairNoteAt "删除空行" (n - 1)]
      return .keep code
    else .ok (.keep code)

def closedItem : Pattern := .read "[,;\x7b\x7d]\\s*$"

def missingComma (code : String) (n : Option Int) : Edit :=
  repairLine code n "在行末添加逗号" fun line =>
    let body := trimEnd line
    if closedItem.occurs body then none else some (body ++ ",")

def numberedWord : Pattern := .read "\\b(\\d+\\w*)"

def nameBeforeNumber (code : String) (n : Option Int) : Edit :=
  repairLine code n "修复数字开头的标识符" fun line =>
    changed line (numberedWord.replaceBy (fun m => "_" ++ m.group 1) line)

end Mender.Repair
