import Mender.Source.Edit
import Mender.Diagnostic.Location

/-! Missing semicolons. A semicolon goes to the end of a line or, where a comment follows the
statement, in front of the comment. -/
namespace Mender.Repair
open Text

def isClosedStatement (body : String) : Bool :=
  endsWith body ";" || endsWith body "\x7b" || endsWith body "\x7d"

def earliest (markers : List String) (s : String) : Option Nat :=
  (markers.filterMap (find? s)).min?

def withSemicolon (markers : List String) (line : String) : Option (String × Bool) :=
  let body := trimEnd line
  if isClosedStatement body then none
  else match earliest markers body with
    | some (pos + 1) =>
      let before := trimEnd (take (pos + 1) body)
      if before.isEmpty || endsWith before ";" then none
      else some (before ++ ";  " ++ drop (pos + 1) body, true)
    | _ => some (body ++ ";", false)

def commentMarkers : List String := ["//", "/*", "#"]

def slashMarkers : List String := ["//", "/*"]

def addSemicolon (code : String) (n : Option Int) : Edit :=
  changeLine code n (fun _ => []) fun line => (withSemicolon commentMarkers line).map (·.1)

def addSemicolonBefore (code : String) (n : Option Int) : Edit :=
  match Diagnostic.given n with
  | none => .keep code
  | some n => addSemicolon code (some (n - 1))

/-- Ends the nearest line above that is a lone closing brace with a semicolon; nine lines are
looked at, the first line of the text is not. -/
def closeTypeBody (code : String) (n : Option Int) : Except Fault Edit :=
  match Diagnostic.given n with
  | none => .ok (.keep code)
  | some n =>
    let ls := lines code
    let rec go : List Int → Except Fault Edit
      | [] => .ok (.keep code)
      | i :: is =>
        match lineWithIndex ls i with
        | .error e => .error e
        | .ok line =>
          if trim line = "\x7d" then .ok (.ofLines (ls.set i.toNat (trimEnd line ++ ";")))
          else go is
    go (indexesUp n (max 0 (n - 10)))

def semicolonNote (n : Int) (comment : Bool) (token : String) : String :=
  let place := if comment then "行注释前加分号" else "行末加分号"
  repairNote s!"在第 {n} {place} (before '{token}')"

def semicolonBeforeBrace (code : String) (n : Option Int) : Edit :=
  let ls := lines code
  match lineAt? ls n with
  | none => .keep code
  | some (i, line) =>
    match withSemicolon slashMarkers line with
    | none => .keep code
    | some (new, comment) => .ofLines (ls.set i new) [semicolonNote (i + 1) comment "\x7d"]

def beforeWord : Pattern := .read "before '(\\w+)'"

/-- Ends the line above with a semicolon, for one line of a message that names a word at the start
of the next line. -/
def semicolonForMessageLine (code message : String) : Except Fault (Option Edit) :=
  match beforeWord.search message with
  | none => .ok none
  | some m =>
    let token := m.group 1
    if !(head? token).any fun c => isLetter c || c == '_' then .ok none
    else match Diagnostic.colonNumber.search message with
      | none => .ok none
      | some l =>
        match readNumber (l.group 1) with
        | .error e => .error e
        | .ok n =>
          let ls := lines code
          match lineAt? ls (some (n - 1)) with
          | none => .ok none
          | some (i, line) =>
            .ok ((withSemicolon slashMarkers line).map fun (new, comment) =>
              .ofLines (ls.set i new) [semicolonNote (i + 1) comment token])

/-- Ends with a semicolon the line above the first place that a message names a word at. -/
def semicolonBeforeWord (code message : String) : Except Fault Edit :=
  let rec go : List String → Except Fault Edit
    | [] => .ok (.keep code)
    | l :: ls =>
      match semicolonForMessageLine code l with
      | .error e => .error e
      | .ok (some e) => .ok e
      | .ok none => go ls
  go (lines message)

def dropSemicolon (code : String) (n : Option Int) : Edit :=
  repairLine code n "移除行末分号" fun line =>
    let body := trimEnd line
    if endsWith body ";" then some (upTo (-1) body) else none

end Mender.Repair
