import Mender.Proofs.Measure.Log

/-! When measuring should stop. The advice looks at the counts of benchmarks that need work, round
by round: it is given when the least count came up first some rounds ago. -/
namespace Mender.Measure
open Text

/-- The least of some counts comes up first so many places before the last one. -/
def LeastFirst (ns : List Nat) (least since : Nat) : Prop :=
  ∃ before after, ns = before ++ least :: after ∧ after.length = since ∧
    (∀ n ∈ before, least < n) ∧ ∀ n ∈ after, least ≤ n

namespace LeastFirst
variable {ns : List Nat} {b k n : Nat}

private theorem mem (h : LeastFirst ns b k) : b ∈ ns := by
  obtain ⟨before, after, rfl, -⟩ := h
  simp

private theorem le (h : LeastFirst ns b k) : ∀ n ∈ ns, b ≤ n := by
  obtain ⟨before, after, rfl, -, hbefore, hafter⟩ := h
  intro n hn
  rcases List.mem_append.mp hn with hn | hn
  · exact (hbefore n hn).le
  · rcases List.mem_cons.mp hn with rfl | hn
    · exact le_rfl
    · exact hafter n hn

private theorem unique {c j : Nat} (h : LeastFirst ns b k) (h' : LeastFirst ns c j) :
    b = c ∧ k = j := by
  obtain rfl : b = c := le_antisymm (h.le c h'.mem) (h'.le b h.mem)
  obtain ⟨before, after, rfl, rfl, hbefore, -⟩ := h
  obtain ⟨before', after', he, rfl, hbefore', -⟩ := h'
  have hb : b ∉ before := fun hm => lt_irrefl b (hbefore b hm)
  have hb' : b ∉ before' := fun hm => lt_irrefl b (hbefore' b hm)
  have hcut (xs ys : List Nat) (hx : b ∉ xs) : (xs ++ b :: ys).dropWhile (· ≠ b) = b :: ys := by
    rw [List.dropWhile_append_of_pos, List.dropWhile_cons_of_neg (by simp)]
    exact fun x hm => decide_eq_true fun hxb => hx (hxb ▸ hm)
  have hafter := congrArg (List.dropWhile (· ≠ b)) he
  rw [hcut _ _ hb, hcut _ _ hb'] at hafter
  exact ⟨rfl, congrArg List.length (List.cons.inj hafter).2⟩

end LeastFirst

section Advice

end Advice

section Report
variable {v : Visit} {o : Observation}

end Report

end Mender.Measure
