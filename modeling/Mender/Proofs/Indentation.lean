import Mender.Proofs.Completion
import Mathlib.Algebra.Order.Group.Unbundled.Int

/-! The indentation of a line that fits none of the blocks above it. The line may go on with a line
above it, stand in a block that such a line opens, or stand at the margin. Main statement: it keeps
its content and moves to the nearest of these levels, to the smaller one of two that are as near. -/
namespace Mender.Repair
open Text

/-- The widths that the lines above leave to a line. -/
inductive Level (above : List String) : Nat → Prop
  | margin : Level above 0
  | beside {l : String} (hl : l ∈ above) (hb : trim l ≠ "") : Level above (indentWidth l)
  | inside {l : String} (hl : l ∈ above) (hb : trim l ≠ "") (ho : endsWith (trimEnd l) ":" = true) :
      Level above (indentWidth l + 4)

theorem mem_validIndents {above : List String} {w : Nat} :
    w ∈ validIndents above ↔ Level above w := by
  constructor
  · intro h
    rcases List.mem_cons.mp h with rfl | h
    · exact .margin
    · obtain ⟨l, hl, hw⟩ := List.mem_flatMap.mp h
      obtain ⟨hmem, hblank⟩ := List.mem_filter.mp hl
      have hb : trim l ≠ "" := by simpa using hblank
      rcases List.mem_cons.mp hw with rfl | hw
      · exact .beside hmem hb
      · split at hw
        · rename_i ho
          obtain rfl := List.mem_singleton.mp hw
          exact .inside hmem hb ho
        · cases hw
  · intro h
    have hfound {l : String} (hl : l ∈ above) (hb : trim l ≠ "")
        (hw : w ∈ indentWidth l :: if opensBlock l then [indentWidth l + 4] else []) :
        w ∈ validIndents above :=
      List.mem_cons_of_mem _ (List.mem_flatMap.mpr
        ⟨l, List.mem_filter.mpr ⟨hl, by simpa using hb⟩, hw⟩)
    cases h with
    | margin => exact List.mem_cons_self
    | beside hl hb => exact hfound hl hb List.mem_cons_self
    | inside hl hb ho =>
      apply hfound hl hb
      rw [opensBlock, if_pos ho]
      exact List.mem_cons_of_mem _ (List.mem_singleton_self _)

section Nearest
variable {w : Nat}

def Preferred (w a b : Nat) : Prop :=
  |(a : ℤ) - w| ≤ |(b : ℤ) - w| ∧ (|(b : ℤ) - w| = |(a : ℤ) - w| → a ≤ b)

theorem Preferred.refl (w a : Nat) : Preferred w a a := ⟨le_rfl, fun _ => le_rfl⟩

private theorem Preferred.trans {a b c : Nat} (hab : Preferred w a b) (hbc : Preferred w b c) :
    Preferred w a c := by
  obtain ⟨hab, hba⟩ := hab
  obtain ⟨hbc, hcb⟩ := hbc
  refine ⟨hab.trans hbc, fun he => ?_⟩
  have hsame : |(b : ℤ) - w| = |(a : ℤ) - w| := le_antisymm (he ▸ hbc) hab
  exact (hba hsame).trans (hcb (he.trans hsame.symm))

private theorem gap_eq (a b : Nat) : (gap a b : ℤ) = |(a : ℤ) - b| := by
  rw [gap]
  rcases Nat.le_total a b with h | h
  · rw [abs_of_nonpos (by omega)]
    omega
  · rw [abs_of_nonneg (by omega)]
    omega

private theorem preferred_better (best a : Nat) :
    Preferred w (better w best a) best ∧ Preferred w (better w best a) a := by
  have hgap (a : Nat) := gap_eq a w
  by_cases h : nearer w a best = true
  · rw [better, if_pos h]
    refine ⟨?_, .refl w a⟩
    rw [Preferred, ← hgap, ← hgap]
    simp only [nearer, Bool.or_eq_true, Bool.and_eq_true, decide_eq_true_eq, beq_iff_eq] at h
    omega
  · rw [better, if_neg h]
    refine ⟨.refl w best, ?_⟩
    rw [Preferred, ← hgap, ← hgap]
    simp only [nearer, Bool.or_eq_true, Bool.and_eq_true, decide_eq_true_eq, beq_iff_eq] at h
    omega

private theorem preferred_foldl (widths : List Nat) (best : Nat) :
    ∀ v ∈ best :: widths, Preferred w (widths.foldl (better w) best) v := by
  induction widths generalizing best with
  | nil =>
    intro v hv
    obtain rfl := List.mem_singleton.mp hv
    exact .refl w v
  | cons a widths ih =>
    intro v hv
    rw [List.foldl_cons]
    have hstep := ih (better w best a) _ List.mem_cons_self
    rcases List.mem_cons.mp hv with rfl | hv
    · exact hstep.trans (preferred_better v a).1
    · rcases List.mem_cons.mp hv with rfl | hv
      · exact hstep.trans (preferred_better best v).2
      · exact ih (better w best a) v (List.mem_cons_of_mem _ hv)

private theorem preferred_nearest {widths : List Nat} {v : Nat} (hv : v ∈ widths) :
    Preferred w (nearest w widths) v := by
  obtain ⟨a, rest, rfl⟩ := List.exists_cons_of_ne_nil (List.ne_nil_of_mem hv)
  exact preferred_foldl (a :: rest) a v (List.mem_cons_of_mem _ hv)

end Nearest

section Line
variable {code line : String} {n : Nat}

private theorem lines_matchIndent (hn : 1 ≤ n) (hline : (lines code)[n - 1]? = some line) :
    ∃ new, lines (matchIndent code (some n)).code = (lines code).set (n - 1) new ∧
      trimStart new = trimStart line ∧
      indentWidth new = nearest (indentWidth line) (validIndents ((lines code).take (n - 1))) := by
  have hat : lineAt? (lines code) (some n) = some (n - 1, line) :=
    lineAt_eq_some.mpr ⟨congrArg some (by omega), hline⟩
  by_cases hbest : nearest (indentWidth line) (validIndents ((lines code).take (n - 1))) =
      indentWidth line
  · refine ⟨line, ?_, rfl, hbest.symm⟩
    simp only [matchIndent, hat, hbest, if_true, Edit.keep]
    obtain ⟨hi, hget⟩ := List.getElem?_eq_some_iff.mp hline
    rw [← hget, List.set_getElem_self]
  · refine ⟨indented (nearest _ _) (trimStart line), ?_, trimStart_indented _ line,
      indentWidth_indented _ line⟩
    simp only [matchIndent, hat, hbest, if_false, Edit.ofLines]
    exact lines_set code (n - 1) (unbroken_indented _
      (Unbroken.of_mem_lines (List.mem_of_getElem? hline)).trimStart)

/-- The line moves to the nearest level that the lines above it leave, and to the smaller one of two
that are as near; its content and the other lines stay. -/
theorem unindent_takes_nearest_level (hn : 1 ≤ n) (hline : (lines code)[n - 1]? = some line) :
    ∃ new, lines (matchIndent code (some n)).code = (lines code).set (n - 1) new ∧
      trimStart new = trimStart line ∧
      Level ((lines code).take (n - 1)) (indentWidth new) ∧
      ∀ v, Level ((lines code).take (n - 1)) v →
        |(indentWidth new : ℤ) - indentWidth line| ≤ |(v : ℤ) - indentWidth line| ∧
        (|(v : ℤ) - indentWidth line| = |(indentWidth new : ℤ) - indentWidth line| →
          indentWidth new ≤ v) := by
  obtain ⟨new, hlines, hcontent, hwidth⟩ := lines_matchIndent hn hline
  refine ⟨new, hlines, hcontent, ?_, fun v hv => ?_⟩
  · rw [hwidth]
    exact mem_validIndents.mp (nearest_mem (List.cons_ne_nil _ _))
  · rw [hwidth]
    exact preferred_nearest (mem_validIndents.mpr hv)

/-- Between the method and its body, a line that is as near to both stands beside the method. -/
theorem smaller_of_two_levels :
    (matchIndent "class A:\n    def f():\n          x\n\n      y" (some 5)).code =
      "class A:\n    def f():\n          x\n\n    y" ∧
    Level ["class A:", "    def f():", "          x", ""] 8 ∧
    ∃ new, lines (matchIndent "class A:\n    def f():\n          x\n\n      y" (some 5)).code =
        ["class A:", "    def f():", "          x", "", new] ∧
      trimStart new = "y" ∧
      |(indentWidth new : ℤ) - 6| ≤ |(8 : ℤ) - 6| ∧
      (|(8 : ℤ) - 6| = |(indentWidth new : ℤ) - 6| → indentWidth new ≤ 8) := by
  have hline : (lines "class A:\n    def f():\n          x\n\n      y")[5 - 1]? =
    some "      y" := by decide
  have hbody : Level ["class A:", "    def f():", "          x", ""] 8 :=
    .inside (l := "    def f():") (by decide) (by decide) (by decide)
  obtain ⟨new, hlines, hcontent, -, hnearest⟩ := unindent_takes_nearest_level (by omega) hline
  exact ⟨by decide, hbody, new, hlines, hcontent, hnearest 8 hbody⟩

end Line

end Mender.Repair
