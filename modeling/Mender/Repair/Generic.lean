import Mender.Source.Edit
import Mender.Diagnostic.Location
import Mender.Pattern.Template

/-! The keywords `typename` and `template` in generic code. -/
namespace Mender.Repair
open Text

def needsTypename : Pattern := .read "need 'typename' before '([^']+)'"

def dependentName : Pattern := .read "dependent-name '([^']+)'"

def dependentType? (message : String) : Option String :=
  match needsTypename.search message with
  | some m => some (m.group 1)
  | none => (dependentName.search message).map (·.group 1)

def bareType (type : String) : Pattern :=
  .seq .wordEdge (.seq (.notBehind "typename ".toList) (.seq (.group 1 (.text type)) .wordEdge))

/-- Puts `typename` before the first bare occurrence of the dependent type that a message names. The
new text is read as a template, so a backslash in the type is an escape. -/
def addTypename (code message : String) : Except Fault Edit := do
  let n ← Diagnostic.lineNumber message
  match dependentType? message with
  | none => return .keep code
  | some type =>
    match lineAt? (lines code) n with
    | none => return .keep code
    | some _ =>
      match Pattern.readTemplate 1 ("typename " ++ type) with
      | .error e => .error (.ofTemplate e)
      | .ok parts =>
        return repairLine code n "添加 typename" fun line =>
          changed line ((bareType type).replaceOnce (Pattern.expand parts) line)

def memberTemplate : Pattern := .read "(->|\\.)\\s*(\\w+)\\s*<"

def addTemplate (code : String) (n : Option Int) : Edit :=
  repairLine code n "添加 template 关键字" fun line =>
    changed line
      (memberTemplate.replaceBy (fun m => m.group 1 ++ "template " ++ m.group 2 ++ "<") line)

def typenameWord : Pattern := .read "\\btypename\\s+"

def dropTypename (code : String) (n : Option Int) : Edit :=
  repairLine code n "移除 typename" fun line => changed line (typenameWord.replaceAll "" line)

def friendTypename : Pattern := .read "\\bfriend\\s+typename\\b"

def friendClass (code : String) (n : Option Int) : Edit :=
  repairLine code n "typename -> class" fun line =>
    changed line (friendTypename.replaceAll "friend class" line)

end Mender.Repair
