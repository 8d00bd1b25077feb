import Mender.Source.Edit

/-! Computations that show notes and may end with a fault; the notes shown before a fault stay. -/
namespace Mender

abbrev Noted := ExceptT Fault (StateM (List String))

namespace Noted

def note (line : String) : Noted Unit := modify (· ++ [line])

def notes (ls : List String) : Noted Unit := modify (· ++ ls)

def fail {α : Type} (e : Fault) : Noted α := throw e

def ofExcept {α : Type} : Except Fault α → Noted α
  | .error e => throw e
  | .ok a => pure a

def edit (e : Edit) : Noted String := do
  notes e.notes
  return e.code

def outcome {α : Type} (x : Noted α) : Except Fault α × List String := x.run.run []

end Noted

end Mender
