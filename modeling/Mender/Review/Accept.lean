import Mender.Repair.Import
import Mender.Review.Objection

/-! Taking an edit or refusing it. -/
namespace Mender.Review
open Text

/-- Takes an edit to which there is no objection. A cut import is restored where that meets no
objection either; otherwise the text before the edit is kept. -/
def accept (lang : Option Language) (source fixed : String) (order : Arrangement := .byName) :
    Attempt :=
  match objection? lang source fixed order with
  | none => ⟨.keep fixed, true⟩
  | some o =>
    let refusal := s!"  [VALIDATE] 修复被拒绝: {o.message}"
    match o with
    | .cutImport c =>
      let e := Repair.truncatedImport fixed c.cut c.full
      if e.code ≠ fixed && (objection? lang source e.code order).isNone then
        let note := s!"  [AUTO-RECOVER] 自动恢复截断的 import: {c.cut} -> {c.full}"
        ⟨⟨e.code, e.notes ++ [note]⟩, true⟩
      else ⟨⟨source, e.notes ++ [refusal]⟩, false⟩
    | _ => ⟨.decline source refusal, false⟩

def errorCount (message : String) : Nat :=
  if message = "" then 0
  else ((lines message).filter fun l => contains (lower l) "error").length

def isImproving (before after : Int) : Bool := after < before

end Mender.Review
