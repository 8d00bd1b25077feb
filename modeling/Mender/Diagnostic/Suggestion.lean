import Mender.Diagnostic.FixIt
import Mender.Diagnostic.Location
import Mender.Pattern.Template

/-! Names that a compiler suggests in place of undeclared ones. -/
namespace Mender.Diagnostic
open Text

/-- The forms in which a compiler suggests a name, in the order of preference. -/
def suggestionForms : List Pattern :=
  ["note:.*suggested alternative.*?['\"]?(\\w+)['\"]?",
   "did you mean ['\"]?(\\w+)['\"]?",
   "did you mean ['\"]?(\\w+)['\"]?\\?"].map fun s => .read s { caseless := true }

def suggestions (output : String) : List String :=
  suggestionForms.flatMap fun p => (p.findAll output).map (·.group 1)

def undeclaredForms : Pattern :=
  .read "'(\\w+)' was not declared|'(\\w+)' undeclared|use of undeclared identifier '(\\w+)'"

def undeclared? (message : String) : Option String :=
  (undeclaredForms.search message).map fun m => m.group 1 ++ m.group 2 ++ m.group 3

/-- Replaces an undeclared name by the first suggestion, on the line that the message points to. The
suggestion is read as a template. -/
def applySuggestion (code message : String) (names : List String) : Except Fault Attempt :=
  match names with
  | [] => .ok (.none code)
  | name :: _ => do
    let n ← lineNumber message
    match undeclared? message with
    | none => return .none code
    | some wrong =>
      let ls := lines code
      match lineAt? ls n with
      | none => return .none code
      | some (i, line) =>
        match Pattern.readTemplate 0 name with
        | .error e => .error (.ofTemplate e)
        | .ok parts =>
          match changed line ((Pattern.wholeWord wrong).replaceBy (Pattern.expand parts) line) with
          | none => return .none code
          | some new =>
            return { code := unlines (ls.set i new)
                     notes := [s!"  [SUGGESTION] 替换 '{wrong}' -> '{name}': 第 {i + 1} 行"]
                     applied := true }

end Mender.Diagnostic
