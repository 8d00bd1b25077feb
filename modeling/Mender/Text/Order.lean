/-! Texts in order of their code points, and texts that have no order of their own. -/
namespace Mender

def Text.sorted (names : List String) : List String :=
  (names.mergeSort fun a b => decide (a ≤ b)).eraseDups

/-- The order in which names are met that have none of their own: those in a directory, the paths
that fit a pattern, the members of a set. It may depend on where the names come from: the place of
the directory, the pattern, or the texts that were put into the set one after the other. -/
structure Arrangement where
  arrange : List String → List String → List String
  perm (source names : List String) : (arrange source names).Perm names

namespace Arrangement

def byName : Arrangement := ⟨fun _ names => names, fun _ _ => .refl _⟩

instance : Inhabited Arrangement := ⟨byName⟩

def members (order : Arrangement) (texts : List String) : List String :=
  order.arrange texts (Text.sorted texts)

end Arrangement

end Mender
