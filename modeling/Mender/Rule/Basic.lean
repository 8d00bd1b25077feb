import Mender.Source.Edit
import Mender.Diagnostic.Location
import Mender.Project.Modules

/-! Repair rules: a pattern of diagnostics and what to do about them. -/
namespace Mender

/-- A diagnostic that a rule applies to, with the text to repair. -/
structure Finding where
  found : Pattern.Found
  message : String
  code : String
  modules : ModuleIndex

structure Remedy where
  apply : Finding → Except Fault Edit
  readsModules : Bool := false

namespace Remedy

def atLineOrFail (f : String → Option Int → Except Fault Edit) : Remedy where
  apply x := do f x.code (← Diagnostic.lineNumber x.message)

def atLine (f : String → Option Int → Edit) : Remedy := atLineOrFail fun code n => .ok (f code n)

/-- A repair at the line before the one that the diagnostic points to; it needs a line number. -/
def beforeLine (f : String → Option Int → Edit) : Remedy where
  apply x := do
    match ← Diagnostic.lineNumber x.message with
    | none => .error .wrongType
    | some n => return f x.code (some (n - 1))

def onText (f : String → Edit) : Remedy where
  apply x := .ok (f x.code)

def byMessageOrFail (f : String → String → Except Fault Edit) : Remedy where
  apply x := f x.code x.message

def byMessage (f : String → String → Edit) : Remedy := byMessageOrFail fun code m => .ok (f code m)

def byFound (f : String → Pattern.Found → Edit) : Remedy where
  apply x := .ok (f x.code x.found)

def byModules (f : ModuleIndex → String → Pattern.Found → Edit) : Remedy where
  apply x := .ok (f x.modules x.code x.found)
  readsModules := true

def ignore : Remedy := onText .keep

end Remedy

structure Rule where
  form : String
  pattern : Pattern
  remedy : Option Remedy

def Rule.fix (form : String) (remedy : Remedy) : Rule := ⟨form, .read form, some remedy⟩

def Rule.model (form : String) : Rule := ⟨form, .read form, none⟩

end Mender
