import Mender.Project.Dependency

/-! An order of files in which each comes after those it depends on. Where files depend on each
other in a circle, the one that most others depend on comes first. -/
namespace Mender.Graph

structure Pending where
  name : String
  users : Nat
  waits : List String
  deriving Repr, DecidableEq

def users (g : Graph) (name : String) : Nat := g.foldr (fun e n => e.2.count name + n) 0

def pending (g : Graph) : List Pending := g.map fun (name, deps) => ⟨name, g.users name, deps⟩

def mostUsed? : List Pending → Option Pending
  | [] => none
  | p :: ps =>
    match mostUsed? ps with
    | some q => some (if p.users < q.users then q else p)
    | none => some p

/-- The next file to place: one that waits for nothing, or any if there is none such. -/
def next? (ps : List Pending) : Option Pending :=
  match mostUsed? (ps.filter fun p => p.waits.isEmpty) with
  | some p => some p
  | none => mostUsed? ps

def place (name : String) (ps : List Pending) : List Pending :=
  (ps.filter fun p => p.name ≠ name).map fun p =>
    { p with waits := p.waits.filter fun dep => dep ≠ name }

def orderFrom : Nat → List Pending → List String
  | 0, _ => []
  | fuel + 1, ps =>
    match next? ps with
    | none => []
    | some p => p.name :: orderFrom fuel (place p.name ps)

def order (g : Graph) : List String := orderFrom g.length g.pending

end Mender.Graph
