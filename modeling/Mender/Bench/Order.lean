import Mender.Project.Order

/-! Graphs of any size to put in order: a circle of modules, and leaves that share a few cores. -/
namespace Mender.Bench

def threeDigits (i : Nat) : String :=
  (if i < 10 then "00" else if i < 100 then "0" else "") ++ toString i

def moduleName (i : Nat) : String := s!"m{threeDigits i}.py"

def coreName (i : Nat) : String := s!"core{i}.py"

def leafName (i : Nat) : String := s!"leaf{threeDigits i}.py"

def coreCount : Nat := 4

/-- A circle: each module depends on the one before, the first one on the last. -/
def chain (n : Nat) : Graph :=
  (List.range n).map fun i => (moduleName i, [moduleName ((i + (n - 1)) % n)])

def fan (n : Nat) : Graph :=
  (List.range coreCount).map (fun i => (coreName i, [])) ++
    (List.range n).map fun i => (leafName i, [coreName (i % coreCount)])

structure OrderSize where
  size : Nat
  first : String
  deriving Repr, DecidableEq

/-- The length and the first file of the order of a graph; an empty graph has no first file. -/
def orderSize (g : Graph) : Except Fault OrderSize :=
  match g.order with
  | [] => .error .outOfRange
  | first :: rest => .ok ⟨rest.length + 1, first⟩

def orders (n : Nat) : Except Fault (OrderSize × OrderSize) := do
  return (← orderSize (chain n), ← orderSize (fan n))

end Mender.Bench
