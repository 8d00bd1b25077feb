import Mender.Diagnostic.Suggestion
import Mender.Language
import Mender.Noted
import Mender.Repair.Qualifier
import Mender.Rule.C
import Mender.Rule.Cpp
import Mender.Rule.Java
import Mender.Rule.Script

/-! Repairs that need no model: fix-its, suggestions, and the rules of a language. -/
namespace Mender
open Text

def Language.rules : Language → List Rule
  | .python => Rule.scriptRules
  | .java => Rule.javaRules
  | .c => Rule.cRules
  | .cpp => Rule.cppRules

structure LocalFix where
  code : String
  applied : Bool := false
  readModules : Bool := false

namespace LocalFix

def ruleNote (r : Rule) : String := repairNote s!"应用本地规则: {take 30 r.form}..."

/-- Applies the first rule that changes the text, for one line of a message. A rule that fails is
passed over. -/
def applyFirst (modules : ModuleIndex) (message : String) : List Rule → LocalFix → Noted LocalFix
  | [], s => pure s
  | r :: rs, s =>
    match r.remedy, r.pattern.search message with
    | some remedy, some found => do
      let s := if remedy.readsModules then { s with readModules := true } else s
      match remedy.apply ⟨found, message, s.code, modules⟩ with
      | .error _ => applyFirst modules message rs s
      | .ok e =>
        Noted.notes e.notes
        if e.code = s.code then applyFirst modules message rs s
        else
          Noted.note (ruleNote r)
          return { s with code := e.code, applied := true }
    | _, _ => applyFirst modules message rs s

/-- Applies at most one rule for each line of a message that reports an error. -/
def applyRules (modules : ModuleIndex) (rules : List Rule) :
    List String → LocalFix → Noted LocalFix
  | [], s => pure s
  | line :: rest, s =>
    if contains line "error:" then do
      let s ← applyFirst modules line rules s
      applyRules modules rules rest s
    else applyRules modules rules rest s

def attempt (s : LocalFix) (a : Attempt) : Noted LocalFix := do
  Noted.notes a.notes
  return if a.applied then { s with code := a.code, applied := true } else s

def settle (s : LocalFix) (e : Edit) (next : LocalFix → Noted LocalFix) : Noted LocalFix := do
  let new ← Noted.edit e
  if new = s.code then next s else return { s with code := new, applied := true }

def isCompiled (lang : String) : Bool := lang = "c" || lang = "cpp"

def byProposals (message lang : String) (s : LocalFix) : Noted LocalFix := do
  if isCompiled lang then
    let s ← attempt s (← Noted.ofExcept (Diagnostic.tryFixIts s.code message lang))
    if contains (lower message) "did you mean" then
      let names := Diagnostic.suggestions message
      attempt s (← Noted.ofExcept (Diagnostic.applySuggestion s.code message names))
    else return s
  else return s

def byRules (modules : ModuleIndex) (message lang : String) (s : LocalFix) : Noted LocalFix :=
  match Language.ofName? lang with
  | none => return s
  | some l => applyRules modules l.rules (lines message) s

/-- Puts a semicolon before a word that the message names; the rules follow if there is none to
put. -/
def byWord (modules : ModuleIndex) (message lang : String) (s : LocalFix) : Noted LocalFix :=
  if (isCompiled lang || lang = "java") && contains message "before '" then do
    settle s (← Noted.ofExcept (Repair.semicolonBeforeWord s.code message))
      (byRules modules message lang)
  else byRules modules message lang s

/-- Doubles a single colon in a qualified name; the repair by words follows if there is none. -/
def byColon (modules : ModuleIndex) (message lang : String) (s : LocalFix) : Noted LocalFix :=
  if isCompiled lang && contains message "found ':' in nested-name-specifier" then do
    settle s (Repair.singleColon s.code (← Noted.ofExcept (Diagnostic.lineNumber message)))
      (byWord modules message lang)
  else byWord modules message lang s

/-- Repairs a text without the model: by the compiler's proposals first, then by a single colon, by
a semicolon before a word, and at last by the rules. A repair of the second or third kind is the
last. -/
def run (modules : ModuleIndex) (code message lang : String) : Noted LocalFix := do
  byColon modules message lang (← byProposals message lang { code := code })

end LocalFix

end Mender
