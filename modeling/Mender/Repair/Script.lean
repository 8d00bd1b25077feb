import Mender.Source.Edit
import Mender.Diagnostic.Location

/-! Repairs of Python scripts: colons, commas, comparisons and misplaced statements. -/
namespace Mender.Repair
open Text

def blockWords : List String :=
  ["if", "elif", "else", "for", "while", "def", "class", "try", "except", "finally", "with"]

def beginsBlock (content : String) : Bool :=
  blockWords.any fun w =>
    startsWith content (w ++ " ") || startsWith content (w ++ "(") || content = w

/-- Ends line `n` with a colon if it begins a block or ends with a parenthesis. -/
def missingColon (code : String) (n : Option Int) : Edit :=
  repairLine code n "添加缺少的冒号" fun line =>
    let body := trimEnd line
    if endsWith body ":" then none
    else if beginsBlock (trimStart body) || endsWith body ")" then some (body ++ ":")
    else none

/-- Closes what is open on the line that a message points to: a block head, parentheses or square
brackets. -/
def syntaxError (code message : String) : Except Fault Edit := do
  let n ← Diagnostic.lineNumber message
  let ls := lines code
  match lineAt? ls n with
  | none => return .keep code
  | some (i, line) =>
    let colon := missingColon code n
    if contains (lower message) "expected" && contains message ":" && colon.code ≠ code then
      return colon
    let parens := excess line "(" ")"
    if 0 < parens then
      return .ofLines (ls.set i (trimEnd line ++ replicate parens.toNat ')'))
        [repairNoteAt "添加缺少的 ')'" (i + 1)]
    let squares := excess line "[" "]"
    if 0 < squares then
      return .ofLines (ls.set i (trimEnd line ++ replicate squares.toNat ']'))
        [repairNoteAt "添加缺少的 ']'" (i + 1)]
    return .keep code

def missingListComma (code : String) (n : Option Int) : Edit :=
  let ls := lines code
  match lineAt? ls n with
  | some (j + 1, _) =>
    let previous := trimEnd (ls.getD j "")
    if previous = "" || [",", "(", "[", "\x7b", ":"].any (endsWith previous) then .keep code
    else .ofLines (ls.set j (previous ++ ",")) [repairNoteAt "添加缺少的逗号" (j + 1)]
  | _ => .keep code

def commentOut (code : String) (n : Option Int) (what : String) : Edit :=
  repairLine code n what fun line => some ("# " ++ trimStart line)

def misplacedReturn (code : String) (n : Option Int) : Edit :=
  commentOut code n "注释掉函数外的 return"

def misplacedBreak (code : String) (n : Option Int) : Edit :=
  commentOut code n "注释掉循环外的 break"

def misplacedContinue (code : String) (n : Option Int) : Edit :=
  commentOut code n "注释掉循环外的 continue"

def assignedWord : Pattern := .read "(\\s+)(\\w+)\\s*=\\s*(\\w+)"

def assignmentInCondition (code : String) (n : Option Int) : Edit :=
  repairLine code n "将 = 改为 ==" fun line =>
    if contains line " = " &&
        (contains line "if " || contains line "while " || contains line "elif ") then
      changed line (assignedWord.replaceBy
        (fun m => m.group 1 ++ m.group 2 ++ " == " ++ m.group 3) line)
    else none

def conditionWithEquals : Pattern := .read "(if|while|elif).*[^=!<>]=[^=]"

def singleEquals : Pattern := .read "([^=!<>])=([^=])"

def doubleEquals (code : String) (n : Option Int) : Edit :=
  repairLine code n "将 = 改为 ==" fun line =>
    if conditionWithEquals.occurs line then
      changed line (singleEquals.replaceBy (fun m => m.group 1 ++ "==" ++ m.group 2) line)
    else none

def argumentOrder (code : String) : Edit :=
  .decline code "  [INFO] 参数顺序错误需要手动修复或 LLM 处理"

def comparison (op constant : String) : Pattern :=
  .seq (.text s!"{op} {constant}") .wordEdge

def noneComparison (code : String) (n : Option Int) : Edit :=
  repairLine code n "修复 None 比较" fun line =>
    changed line ((comparison "!=" "None").replaceAll "is not None"
      ((comparison "==" "None").replaceAll "is None" line))

def boolComparison (code : String) (n : Option Int) : Edit :=
  repairLine code n "修复 bool 比较" fun line =>
    changed line ((comparison "==" "False").replaceAll "is False"
      ((comparison "==" "True").replaceAll "is True" line))

def negatedMembership : Pattern := .read "\\bnot (\\w+) in\\b"

def notIn (code : String) (n : Option Int) : Edit :=
  repairLine code n "修复 not in 语法" fun line =>
    changed line (negatedMembership.replaceBy (fun m => m.group 1 ++ " not in") line)

def dropLines (code piece : String) : Edit :=
  .ofLines ((lines code).filter fun l => !contains l piece)

end Mender.Repair
