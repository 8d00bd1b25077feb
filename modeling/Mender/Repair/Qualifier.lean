import Mender.Source.Edit
import Mender.Diagnostic.Location

/-! Qualified names: doubled colons, repeated class names, the standard namespace, and members and
classes that are not declared. -/
namespace Mender.Repair
open Text

def singleColonCall : Pattern := .read "(\\w+):(\\w+)\\s*\\("

/-- Doubles the colon of a qualified call on line `n`; where the line begins an initialiser list
after an unclosed parameter list, closes that list instead. -/
def singleColon (code : String) (n : Option Int) : Edit :=
  let ls := lines code
  match lineAt? ls n with
  | none => .keep code
  | some (i, line) =>
    let double :=
      match changed line
          (singleColonCall.replaceBy (fun m => m.group 1 ++ "::" ++ m.group 2 ++ "(") line) with
      | none => Edit.keep code
      | some new => .ofLines (ls.set i new) [repairNoteAt "修复单冒号为双冒号" (i + 1)]
    match i with
    | 0 => double
    | j + 1 =>
      let previous := trimEnd (ls.getD j "")
      if contains previous "(" && !contains previous ")" && startsWith (trim line) ":" then
        .ofLines (ls.set j (previous ++ ")"))
          [repairNoteAt "在构造函数参数列表末尾添加 )" (j + 1)]
      else double

def doubleQualifier : Pattern := .read "'(\\w+)::(\\w+)::"

/-- Removes a repeated class qualifier from the line that a message points to. -/
def extraQualifier (code message : String) : Except Fault Edit := do
  let n ← Diagnostic.lineNumber message
  match doubleQualifier.search message with
  | none => return .keep code
  | some m =>
    let name := m.group 1
    return repairLine code n "移除多余类限定" fun line =>
      changed line (replace line s!"{name}::{name}::" s!"{name}::")

def bareName (name : String) : Pattern :=
  .seq .wordEdge (.seq (.notBehind "std::".toList) (.seq (.text name) .wordEdge))

def qualify (name line : String) : String := (bareName name).replaceAll ("std::" ++ name) line

def standardTypes : List String :=
  ["string", "vector", "map", "set", "list", "pair", "tuple", "array", "queue", "stack", "deque",
   "unordered_map", "unordered_set", "shared_ptr", "unique_ptr", "function", "optional", "variant"]

def noType : Pattern := .read "'(\\w+)' does not name a type"

/-- Qualifies a type of the standard namespace on the line that a message points to. -/
def unknownType (code message : String) : Except Fault Edit := do
  let n ← Diagnostic.lineNumber message
  match noType.search message with
  | none => return .keep code
  | some m =>
    let name := m.group 1
    if standardTypes.contains name then
      return changeLine code n
        (fun _ => [repairNote s!"添加 std:: 前缀: {name} -> std::{name}"]) fun line =>
          changed line (qualify name line)
    return .keep code

def standardSymbols : List String :=
  ["endl", "cout", "cin", "cerr", "string", "vector", "map", "set", "pair", "tuple"]

def undeclaredName : Pattern := .read "'(\\w+)' was not declared in this scope"

/-- Qualifies a symbol of the standard namespace on the line that a message points to, unless the
line qualifies it somewhere already. -/
def undeclaredSymbol (code message : String) : Except Fault Edit := do
  let n ← Diagnostic.lineNumber message
  match undeclaredName.search message with
  | none => return .keep code
  | some m =>
    let name := m.group 1
    if standardSymbols.contains name then
      return repairLine code n s!"修复 {name} -> std::{name}" fun line =>
        if contains line s!"std::{name}" then none else changed line (qualify name line)
    return .keep code

def undeclaredClassName : Pattern := .read "'(\\w+)' has not been declared"

def declareClass (code message : String) : Edit :=
  match undeclaredClassName.search message with
  | none => .keep code
  | some m =>
    let name := m.group 1
    if contains code s!"class {name}" || contains code s!"struct {name}" then .keep code
    else
      let ls := lines code
      let isHead (l : String) := startsWith (trim l) "#include" || startsWith (trim l) "using "
      let position := afterLast isHead ls
      .ofLines (ls.insertIdx position s!"class {name} \x7b\x7d;") [repairNote s!"添加类声明: {name}"]

def missingMember : Pattern := .read "has no member named '(\\w+)'"

def memberCall (member : String) : Pattern :=
  .seq (.text ".") (.seq (.group 1 (.read "\\s*")) (.seq (.text member) (.read "\\s*\\(\\s*\\)")))

/-- Removes calls of a member that does not exist from the line that a message points to. -/
def noMember (code message : String) : Except Fault Edit := do
  let n ← Diagnostic.lineNumber message
  match missingMember.search message with
  | none => return .keep code
  | some m =>
    let member := m.group 1
    return repairLine code n s!"移除不存在的成员调用 .{member}()" fun line =>
      changed line ((memberCall member).replaceAll "" line)

end Mender.Repair
