/-! Character properties given as ranges of code points. -/
namespace Mender.Text

def inRanges (ranges : List (Nat × Nat)) (n : Nat) : Bool :=
  ranges.any fun (lo, hi) => lo ≤ n && n ≤ hi

end Mender.Text
