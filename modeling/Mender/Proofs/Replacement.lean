import Mender.Answer.Replacement
import Mender.Proofs.Pattern
import Mender.Proofs.Text

/-! Carrying out a replacement whose old text occurs: the first occurrence gives way, and what comes
in its place is the new text without everything in it that looks like a line number. -/
namespace Mender.Replacement
open Text Pattern

def Numbered (s : String) : Prop :=
  ∃ ds rest, ds ≠ [] ∧ (∀ d ∈ ds, isDecimal d = true) ∧ s.toList = ds ++ ':' :: rest

def HoldsNumber (s : String) : Prop :=
  ∃ pre d post, isDecimal d = true ∧ s.toList = pre ++ d :: ':' :: post

theorem anyNumber_eq : anyNumber =
    .seq (.seq (.char .digit) (.many true (.char .digit)))
      (.seq (.char (.literal ':')) (.many true (.char .blank))) := by decide

theorem rowNumber_eq : rowNumber = .seq (.anchor .textStart) anyNumber := by decide

theorem matches_anyNumber {s t : Cursor} : anyNumber.Matches s t ↔
    ∃ ds bs, ds ≠ [] ∧ (∀ d ∈ ds, isDecimal d = true) ∧ (∀ b ∈ bs, isBlank b = true) ∧
      s.Reads (ds ++ ':' :: bs) t := by
  rw [anyNumber_eq]
  constructor
  · rintro ⟨u, ⟨v, hv, hu⟩, w, hw, ht⟩
    obtain ⟨d, hd, hv⟩ := matches_char.mp hv
    obtain ⟨ds, hds, hu⟩ := matches_many_char.mp hu
    obtain ⟨c, hc, hw⟩ := matches_char.mp hw
    obtain ⟨bs, hbs, ht⟩ := matches_many_char.mp ht
    obtain rfl : c = ':' := by simpa [CharClass.holds] using hc
    refine ⟨d :: ds, bs, by simp, ?_, hbs, by simpa using (hv.trans hu).trans (hw.trans ht)⟩
    intro x hx
    rcases List.mem_cons.mp hx with rfl | hx
    · exact hd
    · exact hds x hx
  · rintro ⟨ds, bs, hne, hds, hbs, ht⟩
    obtain ⟨d, ds, rfl⟩ := List.exists_cons_of_ne_nil hne
    obtain ⟨u, hu, ht⟩ := ht.split
    obtain ⟨v, hv, hu⟩ := Cursor.Reads.split (v := [d]) hu
    obtain ⟨w, hw, ht⟩ := Cursor.Reads.split (v := [':']) ht
    refine ⟨u, ⟨v, matches_char.mpr ⟨d, hds d List.mem_cons_self, hv⟩,
      matches_many_char.mpr ⟨ds, fun x hx => hds x (List.mem_cons_of_mem _ hx), hu⟩⟩,
      w, matches_char.mpr ⟨':', by simp [CharClass.holds], hw⟩, matches_many_char.mpr ⟨bs, hbs, ht⟩⟩

theorem anyNumber_moves : anyNumber.Moves := by
  intro s t h
  obtain ⟨ds, bs, -, -, -, hr⟩ := matches_anyNumber.mp h
  have := hr.pos
  simp only [List.length_append, List.length_cons] at this
  omega

theorem rowNumber_moves : rowNumber.Moves := by
  rw [rowNumber_eq]
  rintro s t ⟨u, ⟨-, rfl⟩, ht⟩
  exact anyNumber_moves u t ht

theorem rowNumber_replaceAll {s : String} (h : ¬ Numbered s) : rowNumber.replaceAll "" s = s := by
  rw [replaceAll_empty_eq_self rowNumber_moves]
  intro pre post hs
  rw [matchAt_eq_none, rowNumber_eq]
  rintro t ⟨u, ⟨ha, rfl⟩, ht⟩
  -- only the very start of the text can hold the match
  obtain rfl : pre = [] := by simpa [Anchor.holds, Cursor.between] using ha
  obtain ⟨ds, bs, hne, hds, -, hr⟩ := matches_anyNumber.mp ht
  refine h ⟨ds, bs ++ t.rest, hne, hds, ?_⟩
  have := hr.rest
  simp only [Cursor.between] at this
  simpa [hs] using this

theorem anyNumber_replaceAll {s : String} : anyNumber.replaceAll "" s = s ↔ ¬ HoldsNumber s := by
  rw [replaceAll_empty_eq_self anyNumber_moves]
  constructor
  · rintro h ⟨pre, d, post, hd, hs⟩
    have hn := matchAt_eq_none.mp (h pre (d :: ':' :: post) hs)
    obtain ⟨t, ht, -⟩ := Cursor.exists_reads (s := .between pre (d :: ':' :: post)) (w := [d, ':']) rfl
    exact hn t (matches_anyNumber.mpr ⟨[d], [], by simp, by simpa using hd, by simp, ht⟩)
  · intro h pre post hs
    rw [matchAt_eq_none]
    intro t ht
    obtain ⟨ds, bs, hne, hds, -, hr⟩ := matches_anyNumber.mp ht
    -- the last digit of the match is the one before the colon
    obtain ⟨ds, d, rfl⟩ := List.eq_nil_or_concat ds |>.resolve_left hne
    refine h ⟨pre ++ ds, d, bs ++ t.rest, hds d (by simp), ?_⟩
    have := hr.rest
    simp only [Cursor.between] at this
    simp [hs, this]

theorem ofDatum_replacement (old new : String) :
    ofDatum (.replacement old new) = .ok ⟨old, new⟩ := by
  simp [ofDatum, Datum.replacement, field, Datum.get?, bind, Except.bind, pure, Except.pure]

theorem applyDatum_single (code old new : String) :
    (applyDatum code (.list [.replacement old new])).outcome.1 =
      .ok ((⟨old, new⟩ : Replacement).apply code).code := by
  simp only [applyDatum, Datum.members?, applyAll, ofDatum_replacement]
  rfl

theorem applyPlain_of_infix {code old : String} (new : String) (h0 : old ≠ "")
    (hin : old.toList <:+: code.toList) : ∃ pre post, FirstAt old.toList code.toList pre post ∧
      ((⟨old, new⟩ : Replacement).applyPlain code).code =
        String.ofList (pre ++ new.toList ++ post) := by
  obtain ⟨pre, post, hf, he⟩ := replaceFirst_eq new hin
  refine ⟨pre, post, hf, ?_⟩
  simp only [applyPlain, h0, if_false, contains_iff.mpr hin, if_true, he]

theorem apply_of_not_numbered {old : String} (new code : String) (ho : ¬ Numbered old) :
    (⟨old, new⟩ : Replacement).apply code =
      (⟨old, anyNumber.replaceAll "" new⟩ : Replacement).applyPlain code := by
  rw [apply, unnumbered, rowNumber_replaceAll ho]

/-- The new text comes in for the first occurrence of an old text without a line number in front,
less what looks like line numbers in it; nothing else changes. -/
private theorem apply_of_infix {code old : String} (new : String) (h0 : old ≠ "")
    (hin : old.toList <:+: code.toList)
    (ho : ¬ Numbered old) : ∃ pre post, FirstAt old.toList code.toList pre post ∧
      ((⟨old, new⟩ : Replacement).apply code).code =
        String.ofList (pre ++ (anyNumber.replaceAll "" new).toList ++ post) := by
  rw [apply_of_not_numbered new code ho]
  exact applyPlain_of_infix (anyNumber.replaceAll "" new) h0 hin

/-- A replacement whose old text occurs always succeeds at the first occurrence. It is exact, that
is, what comes in is the new text itself, if and only if no digit in the new text stands before a
colon: line numbers are taken out of it anywhere, not only in front. -/
theorem direct_replacement_exact_iff (code old new : String) (h0 : old ≠ "")
    (hin : old.toList <:+: code.toList) (ho : ¬ Numbered old) :
    ∃ pre post, FirstAt old.toList code.toList pre post ∧
      (applyDatum code (.list [.replacement old new])).outcome.1 =
        .ok (String.ofList (pre ++ (anyNumber.replaceAll "" new).toList ++ post)) ∧
      ((applyDatum code (.list [.replacement old new])).outcome.1 =
        .ok (String.ofList (pre ++ new.toList ++ post)) ↔ ¬ HoldsNumber new) := by
  obtain ⟨pre, post, hf, he⟩ := apply_of_infix new h0 hin ho
  refine ⟨pre, post, hf, by rw [applyDatum_single, he], ?_⟩
  rw [applyDatum_single, he, ← anyNumber_replaceAll]
  constructor
  · intro h
    have hl := congrArg String.toList (Except.ok.inj h)
    simp only [String.toList_ofList, List.append_assoc] at hl
    have := List.append_cancel_right (List.append_cancel_left hl)
    exact String.toList_inj.mp this
  · intro h
    rw [h]

/-- The first bound of a slice is taken for a line number, although the new text begins with none. -/
theorem slice_bound_lost :
    let outcome := (applyDatum "y = x" (.list [.replacement "x" "x[1:2]"])).outcome.1
    ¬ Numbered "x" ∧ ¬ Numbered "x[1:2]" ∧ ∃ pre post,
      FirstAt "x".toList "y = x".toList pre post ∧
      outcome = .ok (String.ofList (pre ++ "x[2]".toList ++ post)) ∧
      outcome ≠ .ok (String.ofList (pre ++ "x[1:2]".toList ++ post)) := by
  have hx (s : String) (h : s.toList.head? = some 'x') : ¬ Numbered s := by
    rintro ⟨ds, rest, hne, hds, hs⟩
    obtain ⟨d, ds, rfl⟩ := List.exists_cons_of_ne_nil hne
    obtain rfl : d = 'x' := by simpa [hs] using h
    exact absurd (hds 'x' List.mem_cons_self) (by decide)
  have hin : "x".toList <:+: "y = x".toList := ⟨['y', ' ', '=', ' '], [], by decide⟩
  obtain ⟨pre, post, hf, he, h⟩ :=
    direct_replacement_exact_iff "y = x" "x" "x[1:2]" (by decide) hin (hx _ (by decide))
  have hb : anyNumber.replaceAll "" "x[1:2]" = "x[2]" := by decide
  refine ⟨hx _ (by decide), hx _ (by decide), pre, post, hf, by rw [← hb]; exact he, fun hc => ?_⟩
  exact h.mp hc ⟨['x', '['], '1', ['2', ']'], by decide, by decide⟩

end Mender.Replacement
