import Mender.Source.Edit
import Mender.Pattern.Search

/-! String and character literals. -/
namespace Mender.Repair
open Text

def oddQuotes (quote : Char) (line : String) : Bool :=
  let unescaped := excess line (String.singleton quote) (String.ofList ['\\', quote])
  unescaped % 2 == 1

def closeString (code : String) (n : Option Int) : Edit :=
  changeLine code n (fun _ => []) fun line =>
    if oddQuotes '"' line then some (trimEnd line ++ "\"")
    else if oddQuotes '\'' line then some (trimEnd line ++ "'")
    else none

/-- Closes a script's string left open on line `n`; single quotes are looked at first. -/
def closeScriptString (code : String) (n : Option Int) : Edit :=
  let ls := lines code
  match lineAt? ls n with
  | none => .keep code
  | some (i, line) =>
    if oddQuotes '\'' line then
      .ofLines (ls.set i (trimEnd line ++ "'")) [repairNoteAt "添加缺少的单引号" (i + 1)]
    else if oddQuotes '"' line then
      .ofLines (ls.set i (trimEnd line ++ "\"")) [repairNoteAt "添加缺少的双引号" (i + 1)]
    else .keep code

def fillCharLiteral (code : String) (n : Option Int) : Edit :=
  repairLine code n "修复空字符常量" fun line => changed line (replace line "''" "' '")

end Mender.Repair
