import Mender.Datum.Json
import Mender.Proofs.Text

/-! Strings as JSON writes them: what stands between the quotes, and how it is read back. -/
namespace Mender.Json
open Text
variable {c : Char} {n : Nat}

def escaped (cs : List Char) : List Char := cs.flatMap fun c => (charText c).toList

@[simp] theorem escaped_nil : escaped [] = [] := rfl

theorem escaped_cons (c : Char) (cs : List Char) :
    escaped (c :: cs) = (charText c).toList ++ escaped cs := rfl

theorem escaped_append (xs ys : List Char) : escaped (xs ++ ys) = escaped xs ++ escaped ys :=
  List.flatMap_append

def Plain (c : Char) : Prop := 32 ≤ c.toNat ∧ c.toNat < 127 ∧ c ≠ '"' ∧ c ≠ '\\'

/-- A character that only ever stands for itself: no escape holds it. -/
def Mark (c : Char) : Prop := Plain c ∧ c.isAlphanum = false

/-- A character inside an escape, behind its backslash and the one after. -/
def Inner (c : Char) : Prop := c = '\\' ∨ c.isAlphanum = true

instance (c : Char) : Decidable (Plain c) := inferInstanceAs (Decidable (_ ∧ _))

instance (c : Char) : Decidable (Mark c) := inferInstanceAs (Decidable (_ ∧ _))

instance (c : Char) : Decidable (Inner c) := inferInstanceAs (Decidable (_ ∨ _))

theorem Plain.charText (h : Plain c) : (charText c).toList = [c] := by
  obtain ⟨h1, h2, h3, h4⟩ := h
  unfold Json.charText
  split
  all_goals first | exact absurd rfl h3 | exact absurd rfl h4 | (exfalso; revert h1; decide) | skip
  simp [h1, h2]

theorem toNat_lt (c : Char) : c.toNat < 0x110000 := by
  have h := c.valid
  simp only [UInt32.isValidChar, Nat.isValidChar] at h
  unfold Char.toNat
  omega

private theorem not_surrogate (c : Char) : ¬ (0xd800 ≤ c.toNat ∧ c.toNat < 0xe000) := by
  have h := c.valid
  simp only [UInt32.isValidChar, Nat.isValidChar] at h
  unfold Char.toNat
  omega

private theorem digitChar_inner : ∀ d < 16, Inner (Nat.digitChar d) := by decide

private theorem hexValue_digitChar : ∀ d < 16, hexValue? (Nat.digitChar d) = some d := by decide

private theorem toDigits_step {m : Nat} (h : 16 ≤ m) :
    Nat.toDigits 16 m = Nat.toDigits 16 (m / 16) ++ [(m % 16).digitChar] :=
  Nat.toDigits_of_base_le (by decide) h

theorem unitEscape_eq (h : n < 65536) :
    (unitEscape n).toList = ['\\', 'u', (n / 4096).digitChar, (n / 256 % 16).digitChar,
      (n / 16 % 16).digitChar, (n % 16).digitChar] := by
  have hl {m : Nat} (h : m < 16) : Nat.toDigits 16 m = [m.digitChar] := Nat.toDigits_of_lt_base h
  have h2 : n / 16 / 16 = n / 256 := Nat.div_div_eq_div_mul ..
  have h3 : n / 256 / 16 = n / 4096 := Nat.div_div_eq_div_mul ..
  have he : (unitEscape n).toList = '\\' :: 'u' ::
      (List.replicate (4 - (Nat.toDigits 16 n).length) '0' ++ Nat.toDigits 16 n) := by
    simp [unitEscape, replicate]
  rw [he]
  by_cases h16 : n < 16
  · rw [hl h16, Nat.div_eq_of_lt (show n < 4096 by omega), Nat.div_eq_of_lt (show n < 256 by omega),
      Nat.div_eq_of_lt h16, Nat.mod_eq_of_lt h16]
    rfl
  rw [toDigits_step (Nat.not_lt.mp h16)]
  by_cases h256 : n < 256
  · have hm : n / 16 < 16 := by omega
    rw [hl hm, Nat.div_eq_of_lt (show n < 4096 by omega), Nat.div_eq_of_lt h256,
      Nat.mod_eq_of_lt hm]
    rfl
  rw [toDigits_step (show 16 ≤ n / 16 by omega), h2]
  by_cases h4096 : n < 4096
  · have hm : n / 256 < 16 := by omega
    rw [hl hm, Nat.div_eq_of_lt h4096, Nat.mod_eq_of_lt hm]
    rfl
  · rw [toDigits_step (show 16 ≤ n / 256 by omega), h3, hl (show n / 4096 < 16 by omega)]
    rfl

private theorem hexDigits_four {a b c d : Nat} (ha : a < 16) (hb : b < 16) (hc : c < 16)
    (hd : d < 16) : hexDigits? [a.digitChar, b.digitChar, c.digitChar, d.digitChar] =
      some (16 * (16 * (16 * a + b) + c) + d) := by
  simp [hexDigits?, hexValue_digitChar, ha, hb, hc, hd]

private theorem hexValue_lt (h : hexValue? c = some n) : n < 16 := by
  unfold hexValue? at h
  simp only [Char.isDigit, Bool.and_eq_true, decide_eq_true_eq, ge_iff_le, Char.le_def,
    UInt32.le_iff_toNat_le] at h
  simp at h
  split at h
  · cases h
    omega
  · split at h
    · cases h
      omega
    · split at h <;> cases h
      omega

theorem hexDigits_eq_some {a b c d : Char} (h : hexDigits? [a, b, c, d] = some n) :
    ∃ w x y z, hexValue? a = some w ∧ hexValue? b = some x ∧ hexValue? c = some y ∧
      hexValue? d = some z ∧ n = 16 * (16 * (16 * w + x) + y) + z := by
  simp only [hexDigits?, List.foldl_cons, List.foldl_nil, Option.bind_eq_some_iff,
    Option.map_eq_some_iff, Option.some.injEq] at h
  obtain ⟨_, ⟨_, ⟨_, ⟨_, rfl, w, hw, rfl⟩, x, hx, rfl⟩, y, hy, rfl⟩, z, hz, rfl⟩ := h
  exact ⟨w, x, y, z, hw, hx, hy, hz, by omega⟩

theorem hexDigits_lt {a b c d : Char} (h : hexDigits? [a, b, c, d] = some n) : n < 65536 := by
  obtain ⟨w, x, y, z, hw, hx, hy, hz, rfl⟩ := hexDigits_eq_some h
  have := hexValue_lt hw
  have := hexValue_lt hx
  have := hexValue_lt hy
  have := hexValue_lt hz
  omega

theorem lowUnit_eq_some {cs : List Char} (h : lowUnit cs = .ok (some n)) :
    ∃ a b c d r, cs = '\\' :: 'u' :: a :: b :: c :: d :: r ∧ hexDigits? [a, b, c, d] = some n ∧
      n < 0xe000 := by
  unfold lowUnit at h
  split at h
  · rename_i a b c d _ _
    split at h
    · cases h
    · rename_i m hm
      split at h
      · rename_i hr
        cases h
        exact ⟨a, b, c, d, _, rfl, hm, hr.2⟩
      · cases h
  · cases h

theorem hexDigits_unitEscape (h : n < 65536) :
    hexDigits? [(n / 4096).digitChar, (n / 256 % 16).digitChar, (n / 16 % 16).digitChar,
      (n % 16).digitChar] = some n := by
  rw [hexDigits_four (by omega) (by omega) (by omega) (by omega)]
  congr 1
  omega

/-- The ways in which a character is written: as itself, by a short escape, as one code unit or as
a pair of them. -/
inductive Writing (c : Char) : Prop where
  | plain (h : Plain c) (he : (charText c).toList = [c])
  | short (d : Char) (hd : d = '"' ∨ Inner d) (hs : simpleEscape? d = some c)
      (he : (charText c).toList = ['\\', d])
  | unit (h : c.toNat < 65536) (hp : c.toNat < 32 ∨ 127 ≤ c.toNat)
      (he : (charText c).toList = (unitEscape c.toNat).toList)
  | pair (h : 65536 ≤ c.toNat)
      (he : (charText c).toList = (unitEscape (0xd800 + (c.toNat - 0x10000) / 0x400)).toList ++
        (unitEscape (0xdc00 + (c.toNat - 0x10000) % 0x400)).toList)

theorem writing (c : Char) : Writing c := by
  by_cases hp : Plain c
  · exact .plain hp hp.charText
  unfold Plain at hp
  by_cases h1 : c = '"'
  · exact h1 ▸ .short '"' (by decide) rfl rfl
  by_cases h2 : c = '\\'
  · exact h2 ▸ .short '\\' (by decide) rfl rfl
  by_cases h3 : c = '\n'
  · exact h3 ▸ .short 'n' (by decide) rfl rfl
  by_cases h4 : c = '\r'
  · exact h4 ▸ .short 'r' (by decide) rfl rfl
  by_cases h5 : c = '\t'
  · exact h5 ▸ .short 't' (by decide) rfl rfl
  by_cases h6 : c = '\x0c'
  · exact h6 ▸ .short 'f' (by decide) rfl rfl
  by_cases h7 : c = '\x08'
  · exact h7 ▸ .short 'b' (by decide) rfl rfl
  have hn : ¬ (32 ≤ c.toNat ∧ c.toNat < 127) := fun h => hp ⟨h.1, h.2, h1, h2⟩
  have he : (charText c) = if c.toNat < 0x10000 then unitEscape c.toNat else
      unitEscape (0xd800 + (c.toNat - 0x10000) / 0x400) ++
        unitEscape (0xdc00 + (c.toNat - 0x10000) % 0x400) := by
    unfold charText
    split
    all_goals first | contradiction | skip
    rw [if_neg hn]
  by_cases h : c.toNat < 0x10000
  · rw [if_pos h] at he
    exact .unit h (by omega) (congrArg _ he)
  · rw [if_neg h] at he
    exact .pair (Nat.not_lt.mp h) (by rw [he, String.toList_append])

private theorem unitEscape_shape (h : n < 65536) :
    ∃ ds, (unitEscape n).toList = '\\' :: 'u' :: ds ∧ ∀ x ∈ ds, Inner x := by
  refine ⟨_, unitEscape_eq h, fun x hx => ?_⟩
  simp only [List.mem_cons, List.not_mem_nil, or_false] at hx
  rcases hx with rfl | rfl | rfl | rfl <;> exact digitChar_inner _ (by omega)

theorem charText_shape (c : Char) : (Plain c ∧ (charText c).toList = [c]) ∨
    ¬ Plain c ∧ ∃ d ds, (charText c).toList = '\\' :: d :: ds ∧ (d = '"' ∨ Inner d) ∧
      ∀ x ∈ ds, Inner x := by
  cases writing c with
  | plain h he => exact .inl ⟨h, he⟩
  | short d hd hs he =>
    refine .inr ⟨fun hp => ?_, d, [], he, hd, by simp⟩
    simpa [he] using hp.charText
  | unit h hp he =>
    obtain ⟨ds, hu, hi⟩ := unitEscape_shape h
    exact .inr ⟨fun hc => by have := hc.1; have := hc.2.1; omega, 'u', ds, he.trans hu,
      .inr (by decide), hi⟩
  | pair h he =>
    have hm : c.toNat < 0x110000 := toNat_lt c
    obtain ⟨ds, hu, hi⟩ := unitEscape_shape (n := 0xd800 + (c.toNat - 0x10000) / 0x400) (by omega)
    obtain ⟨es, hv, hj⟩ := unitEscape_shape (n := 0xdc00 + (c.toNat - 0x10000) % 0x400) (by omega)
    refine .inr ⟨fun hc => by have := hc.2.1; omega, 'u', ds ++ '\\' :: 'u' :: es,
      by rw [he, hu, hv]; rfl, .inr (by decide), fun x hx => ?_⟩
    simp only [List.mem_append, List.mem_cons] at hx
    rcases hx with hx | rfl | rfl | hx
    · exact hi x hx
    · exact .inl rfl
    · exact .inr rfl
    · exact hj x hx

theorem Plain.escaped_cons (h : Plain c) (cs : List Char) :
    escaped (c :: cs) = c :: escaped cs := by
  rw [Json.escaped_cons, h.charText]
  rfl

private theorem Mark.not_inner (h : Mark c) : ¬ Inner c := by
  rintro (rfl | hi)
  · exact h.1.2.2.2 rfl
  · rw [h.2] at hi
    cases hi

theorem Mark.eq_of_mem {c x : Char} (h : Mark c) (hm : c ∈ (charText x).toList) :
    x = c ∧ (charText x).toList = [c] := by
  rcases charText_shape x with ⟨-, he⟩ | ⟨-, d, ds, he, hd, hi⟩
  · rw [he, List.mem_singleton] at hm
    exact ⟨hm.symm, hm ▸ he⟩
  · rw [he, List.mem_cons, List.mem_cons] at hm
    rcases hm with rfl | rfl | hm
    · exact absurd rfl h.1.2.2.2
    · exact (hd.elim h.1.2.2.1 h.not_inner).elim
    · exact (h.not_inner (hi c hm)).elim

theorem escaped_split (h : Mark c) {xs A B : List Char}
    (he : escaped xs = A ++ c :: B) : ∃ a b, xs = a ++ c :: b ∧ A = escaped a ∧ B = escaped b := by
  induction xs generalizing A with
  | nil => simp at he
  | cons x xs ih =>
    rw [escaped_cons] at he
    rcases List.append_eq_append_iff.mp he with ⟨as, hA, hr⟩ | ⟨bs, ht, hr⟩
    · obtain ⟨a, b, rfl, rfl, rfl⟩ := ih hr
      exact ⟨x :: a, b, rfl, hA, rfl⟩
    · cases bs with
      | nil =>
        obtain ⟨a, b, rfl, ha, rfl⟩ := ih (A := []) hr.symm
        exact ⟨x :: a, b, rfl, by rw [escaped_cons, ← ha, ht, List.append_nil, List.append_nil], rfl⟩
      | cons d bs =>
        obtain ⟨rfl, hB⟩ := List.cons.inj hr
        obtain ⟨rfl, hx⟩ := h.eq_of_mem (ht ▸ List.mem_append_right A List.mem_cons_self)
        have hs : A = [] ∧ bs = [] := by simpa [List.append_eq_singleton_iff] using ht.symm.trans hx
        exact ⟨[], xs, rfl, hs.1, by rw [hB, hs.2]; rfl⟩

theorem escaped_peel {v xs r z : List Char} (hv : ∀ c ∈ v, Mark c)
    (he : escaped xs ++ '"' :: r = v ++ z) : ∃ ys, xs = v ++ ys ∧ z = escaped ys ++ '"' :: r := by
  induction v generalizing xs with
  | nil => exact ⟨xs, rfl, he.symm⟩
  | cons c v ih =>
    obtain ⟨hc, hw⟩ := List.forall_mem_cons.mp hv
    cases xs with
    | nil => exact absurd (List.cons.inj he).1.symm hc.1.2.2.1
    | cons x xs =>
      rw [escaped_cons] at he
      rcases charText_shape x with ⟨-, hx⟩ | ⟨-, d, ds, hx, -⟩ <;> rw [hx] at he
      · obtain ⟨hxc, ht⟩ := List.cons.inj he
        obtain ⟨ys, rfl, hz⟩ := ih hw ht
        exact ⟨ys, hxc ▸ rfl, hz⟩
      · exact absurd (List.cons.inj he).1.symm hc.1.2.2.2

private theorem escaped_eq_nil {xs : List Char} (h : escaped xs = []) : xs = [] := by
  cases xs with
  | nil => rfl
  | cons x xs => rcases charText_shape x with ⟨-, he⟩ | ⟨-, d, ds, he, -⟩ <;> simp [escaped_cons, he] at h

theorem infix_escaped {w xs : List Char} (hw : ∀ c ∈ w, Mark c) :
    w <:+: escaped xs ↔ w <:+: xs := by
  have hp {w : List Char} (hw : ∀ c ∈ w, Mark c) {xs B : List Char} (he : escaped xs = w ++ B) :
      w <+: xs := by
    induction w generalizing xs with
    | nil => exact List.nil_prefix
    | cons c w ih =>
      obtain ⟨a, b, rfl, ha, hb⟩ := escaped_split (hw c List.mem_cons_self) (A := []) he
      obtain rfl := escaped_eq_nil ha.symm
      exact List.cons_prefix_cons.mpr ⟨rfl, ih (fun d hd => hw d (List.mem_cons_of_mem c hd)) hb.symm⟩
  constructor
  · rintro ⟨A, B, he⟩
    cases w with
    | nil => exact List.nil_infix
    | cons c w =>
      rw [List.append_assoc, List.cons_append] at he
      obtain ⟨a, b, rfl, -, hb⟩ := escaped_split (hw c List.mem_cons_self) he.symm
      obtain ⟨r, rfl⟩ := hp (fun d hd => hw d (List.mem_cons_of_mem c hd)) hb.symm
      exact ⟨a, r, by simp⟩
  · rintro ⟨A, B, rfl⟩
    have hs : escaped w = w := by
      induction w with
      | nil => rfl
      | cons c w ih =>
        rw [escaped_cons, (hw c List.mem_cons_self).1.charText,
          ih fun d hd => hw d (List.mem_cons_of_mem c hd)]
        rfl
    exact ⟨escaped A, escaped B, by rw [escaped_append, escaped_append, hs]⟩

theorem filter_escaped {p : Char → Bool} (hp : ∀ c, p c = true → Mark c) (xs : List Char) :
    (escaped xs).filter p = xs.filter p := by
  induction xs with
  | nil => rfl
  | cons x xs ih =>
    rw [escaped_cons, List.filter_append, ih]
    cases hx : p x with
    | true => rw [(hp x hx).1.charText, List.filter_cons_of_pos hx, List.filter_cons_of_pos hx]; rfl
    | false =>
      have hn : (charText x).toList.filter p = [] := by
        rw [List.filter_eq_nil_iff]
        intro c hc hpc
        rw [(hp c hpc).eq_of_mem hc |>.1, hpc] at hx
        cases hx
      rw [hn, List.filter_cons_of_neg (by simp [hx])]
      rfl

theorem count_escaped (hc : Mark c) (xs : List Char) : (escaped xs).count c = xs.count c := by
  have hf := congrArg List.length (filter_escaped (p := (· == c)) (fun x hx => by
    rw [beq_iff_eq.mp hx]; exact hc) xs)
  simpa only [List.count, List.countP_eq_length_filter] using hf

theorem quote_escaped {xs A B : List Char} (he : escaped xs = A ++ '"' :: B) :
    ∃ A', A = A' ++ ['\\'] := by
  induction xs generalizing A with
  | nil => simp at he
  | cons x xs ih =>
    rw [escaped_cons] at he
    rcases List.append_eq_append_iff.mp he with ⟨as, rfl, hr⟩ | ⟨bs, ht, hr⟩
    · obtain ⟨A', rfl⟩ := ih hr
      exact ⟨_, (List.append_assoc ..).symm⟩
    · cases bs with
      | nil =>
        obtain ⟨A', hA⟩ := ih (A := []) hr.symm
        simp at hA
      | cons d bs =>
        obtain ⟨rfl, -⟩ := List.cons.inj hr
        rcases charText_shape x with ⟨hp, hx⟩ | ⟨-, d, ds, hx, -, hi⟩
        · have hm : '"' ∈ [x] := hx ▸ ht ▸ List.mem_append_right A List.mem_cons_self
          exact absurd (List.mem_singleton.mp hm).symm hp.2.2.1
        · have hq : '"' ∉ ds := fun hm => absurd (hi _ hm) (by decide)
          rcases A with _ | ⟨a, _ | ⟨b, A⟩⟩ <;> rw [hx] at ht
          · simp at ht
          · exact ⟨[], by simpa using (List.cons.inj ht).1.symm⟩
          · have hd : ds = A ++ '"' :: bs := (List.cons.inj (List.cons.inj ht).2).2
            exact absurd (hd ▸ List.mem_append_right A List.mem_cons_self) hq

theorem escaped_append_quote {xs r z : List Char} (h : escaped xs ++ r = '"' :: z) :
    xs = [] ∧ r = '"' :: z := by
  cases xs with
  | nil => exact ⟨rfl, h⟩
  | cons x xs =>
    rw [escaped_cons] at h
    rcases charText_shape x with ⟨hp, hx⟩ | ⟨-, d, ds, hx, -⟩ <;> rw [hx] at h
    · exact absurd (List.cons.inj h).1 hp.2.2.1
    · exact absurd (List.cons.inj h).1 (by decide)

/-- The characters that are written as they are, and those of escapes. -/
def Printable (c : Char) : Prop := 32 ≤ c.toNat ∧ c.toNat < 127

instance (c : Char) : Decidable (Printable c) := inferInstanceAs (Decidable (_ ∧ _))

theorem Inner.printable (h : Inner c) : Printable c := by
  rcases h with rfl | h
  · decide
  · have he : c.isAlphanum = ((decide (65 ≤ c.val ∧ c.val ≤ 90) ||
        (decide (97 ≤ c.val) && decide (c.val ≤ 122))) ||
        (decide (48 ≤ c.val) && decide (c.val ≤ 57))) := rfl
    rw [he] at h
    simp only [Bool.or_eq_true, Bool.and_eq_true, decide_eq_true_eq,
      UInt32.le_iff_toNat_le, UInt32.reduceToNat] at h
    change 32 ≤ c.val.toNat ∧ c.val.toNat < 127
    omega

theorem printable_escaped {xs : List Char} (h : c ∈ escaped xs) : Printable c := by
  obtain ⟨x, -, hx⟩ := List.mem_flatMap.mp h
  rcases charText_shape x with ⟨hp, he⟩ | ⟨-, d, ds, he, hd, hi⟩
  · rw [he, List.mem_singleton] at hx
    exact hx ▸ ⟨hp.1, hp.2.1⟩
  · rw [he, List.mem_cons, List.mem_cons] at hx
    rcases hx with rfl | rfl | hx
    · decide
    · rcases hd with rfl | hd
      · decide
      · exact hd.printable
    · exact (hi c hx).printable

/-- Read from its start on, a text has quotes and backslashes only behind backslashes, and each of
these stands before another character. -/
inductive Guarded : List Char → Prop where
  | nil : Guarded []
  | cons {c : Char} {cs : List Char} (h1 : c ≠ '"') (h2 : c ≠ '\\') (h3 : c ≠ '\n')
      (h : Guarded cs) : Guarded (c :: cs)
  | pair (c : Char) {cs : List Char} (h : Guarded cs) : Guarded ('\\' :: c :: cs)

private theorem Guarded.append {xs ys : List Char} (hx : Guarded xs) (hy : Guarded ys) :
    Guarded (xs ++ ys) := by
  induction hx with
  | nil => exact hy
  | cons h1 h2 h3 _ ih => exact .cons h1 h2 h3 ih
  | pair c _ ih => exact .pair c ih

private theorem guarded_unitEscape (h : n < 65536) : Guarded (unitEscape n).toList := by
  have hd {d : Nat} (hd : d < 16) {cs : List Char} (h : Guarded cs) : Guarded (d.digitChar :: cs) := by
    have hall : ∀ d < 16, Nat.digitChar d ≠ '"' ∧ Nat.digitChar d ≠ '\\' ∧ Nat.digitChar d ≠ '\n' := by
      decide
    exact .cons (hall d hd).1 (hall d hd).2.1 (hall d hd).2.2 h
  rw [unitEscape_eq h]
  exact .pair 'u' (hd (by omega) (hd (by omega) (hd (by omega) (hd (by omega) .nil))))

theorem guarded_escaped (xs : List Char) : Guarded (escaped xs) := by
  induction xs with
  | nil => exact .nil
  | cons x xs ih =>
    rw [escaped_cons]
    refine Guarded.append ?_ ih
    cases writing x with
    | plain h he =>
      have hn : x ≠ '\n' := by rintro rfl; exact absurd h.1 (by decide)
      exact he ▸ .cons h.2.2.1 h.2.2.2 hn .nil
    | short d _ _ he => exact he ▸ .pair d .nil
    | unit h _ he => exact he ▸ guarded_unitEscape h
    | pair h he =>
      have := toNat_lt x
      exact he ▸ (guarded_unitEscape (by omega)).append (guarded_unitEscape (by omega))

section Step

variable {start fuel pos : Nat} {acc : List Nat} {r : List Char}

private theorem readString_plain (h : 32 ≤ c.toNat) (hq : c ≠ '"') (hb : c ≠ '\\') :
    readString start (fuel + 1) acc ⟨pos, c :: r⟩ =
      readString start fuel (c.toNat :: acc) ⟨pos + 1, r⟩ := by
  rw [readString]
  split
  case h_7 he =>
    obtain ⟨rfl, rfl⟩ := List.cons.inj he
    exact if_neg (by omega)
  all_goals simp_all

private theorem readString_short {d c : Char} (h : simpleEscape? d = some c) :
    readString start (fuel + 1) acc ⟨pos, '\\' :: d :: r⟩ =
      readString start fuel (c.toNat :: acc) ⟨pos + 2, r⟩ := by
  have hu : d ≠ 'u' := by rintro rfl; cases h
  rw [readString]
  split
  all_goals simp_all [Place.skip]
  rename_i hne heq
  exact absurd heq.2.symm (hne _ _ heq.1.symm)

theorem readString_unit {a b c d : Char} (hr : r ≠ [])
    (h : hexDigits? [a, b, c, d] = some n) (hn : ¬ (0xd800 ≤ n ∧ n < 0xdc00)) :
    readString start (fuel + 1) acc ⟨pos, '\\' :: 'u' :: a :: b :: c :: d :: r⟩ =
      readString start fuel (n :: acc) ⟨pos + 6, r⟩ := by
  obtain ⟨x, r, rfl⟩ := List.exists_cons_of_ne_nil hr
  simp only [readString, h, if_neg hn]
  rfl

theorem readString_pair {a b c d e f g i : Char} {high low : Nat} (hr : r ≠ [])
    (h : hexDigits? [a, b, c, d] = some high) (hh : 0xd800 ≤ high ∧ high < 0xdc00)
    (l : hexDigits? [e, f, g, i] = some low) (hl : 0xdc00 ≤ low ∧ low < 0xe000) :
    readString start (fuel + 1) acc ⟨pos, '\\' :: 'u' :: a :: b :: c :: d ::
        '\\' :: 'u' :: e :: f :: g :: i :: r⟩ =
      readString start fuel ((0x10000 + (high - 0xd800) * 0x400 + (low - 0xdc00)) :: acc)
        ⟨pos + 12, r⟩ := by
  obtain ⟨x, r, rfl⟩ := List.exists_cons_of_ne_nil hr
  simp only [readString, lowUnit, h, l, if_pos hh, if_pos hl]
  rfl

theorem readString_charText (c : Char) (hr : r ≠ []) :
    readString start (fuel + 1) acc ⟨pos, (charText c).toList ++ r⟩ =
      readString start fuel (c.toNat :: acc) ⟨pos + (charText c).toList.length, r⟩ := by
  cases writing c with
  | plain h he =>
    rw [he]
    exact readString_plain h.1 h.2.2.1 h.2.2.2
  | short d hd hs he =>
    rw [he]
    exact readString_short hs
  | unit h hp he =>
    have hn := not_surrogate c
    rw [he, unitEscape_eq h]
    exact readString_unit hr (hexDigits_unitEscape h) (by omega)
  | pair h he =>
    have hm := toNat_lt c
    generalize hi : 0xd800 + (c.toNat - 0x10000) / 0x400 = high at he
    generalize lo : 0xdc00 + (c.toNat - 0x10000) % 0x400 = low at he
    have hh : high < 65536 := by omega
    have hl : low < 65536 := by omega
    have hc : 0x10000 + (high - 0xd800) * 0x400 + (low - 0xdc00) = c.toNat := by omega
    rw [he, unitEscape_eq hh, unitEscape_eq hl]
    refine (readString_pair hr (hexDigits_unitEscape hh) (by omega) (hexDigits_unitEscape hl)
      (by omega)).trans ?_
    rw [hc]
    rfl

end Step

variable {r : List Char}

private theorem ofCodes_chars (cs : List Char) :
    Datum.ofCodes (cs.map Char.toNat) = .text (String.ofList cs) := by
  have hvalid : (cs.map Char.toNat).all (fun n => decide n.isValidChar) = true := by
    rw [List.all_map, List.all_eq_true]
    exact fun c _ => decide_eq_true c.valid
  have hback : (cs.map Char.toNat).map Char.ofNat = cs := by
    rw [List.map_map]
    exact List.map_id'' Char.ofNat_toNat cs
  rw [Datum.ofCodes, if_pos hvalid, hback]

private theorem readString_codes {start fuel pos : Nat} {acc : List Nat} (xs : List Char)
    (hf : xs.length < fuel) : readString start fuel acc ⟨pos, escaped xs ++ '"' :: r⟩ =
      .ok (.ofCodes (acc.reverse ++ xs.map Char.toNat), ⟨pos + (escaped xs).length + 1, r⟩) := by
  induction xs generalizing fuel pos acc with
  | nil =>
    obtain ⟨fuel, rfl⟩ := Nat.exists_eq_succ_of_ne_zero (Nat.ne_of_gt hf)
    simp [readString, Place.skip]
  | cons x xs ih =>
    obtain ⟨fuel, rfl⟩ := Nat.exists_eq_succ_of_ne_zero (Nat.ne_zero_of_lt hf)
    rw [escaped_cons, List.append_assoc, readString_charText x (by simp),
      ih (Nat.lt_of_succ_lt_succ hf)]
    simp [Nat.add_assoc]

theorem readString_escaped {start fuel pos : Nat} (xs : List Char)
    (hf : xs.length < fuel) : readString start fuel [] ⟨pos, escaped xs ++ '"' :: r⟩ =
      .ok (.text (String.ofList xs), ⟨pos + (escaped xs).length + 1, r⟩) := by
  rw [readString_codes xs hf, List.reverse_nil, List.nil_append, ofCodes_chars]

theorem length_le_escaped (xs : List Char) : xs.length ≤ (escaped xs).length := by
  induction xs with
  | nil => simp
  | cons x xs ih =>
    rw [escaped_cons, List.length_cons, List.length_append]
    rcases charText_shape x with ⟨-, he⟩ | ⟨-, d, ds, he, -⟩ <;> rw [he] <;>
      simp only [List.length_cons, List.length_nil] <;> omega

def Legible (i : Int) : Prop := Number.digitCount i.natAbs ≤ 4300

instance (i : Int) : Decidable (Legible i) := inferInstanceAs (Decidable (_ ≤ _))

private theorem digitCount_digitsValue {ds : List Char} {k : Nat} (hk : 0 < k)
    (h : ds.length ≤ k) : Number.digitCount (digitsValue ds) ≤ k := by
  rw [Number.digitCount, Nat.length_toDigits_le_iff (by decide) hk]
  exact (digitsValue_lt ds).trans_le (Nat.pow_le_pow_right (by decide) h)

private theorem legible_digitsValue {ds : List Char} (h : ds.length ≤ 4300) (negative : Bool) :
    Legible (if negative then -(digitsValue ds : Int) else digitsValue ds) := by
  have habs : (if negative then -(digitsValue ds : Int) else digitsValue ds).natAbs =
      digitsValue ds := by
    cases negative <;> simp
  rw [Legible, habs]
  exact digitCount_digitsValue (by decide) h

theorem readNumber_cases {p q : Place} {d : Datum} (h : readNumber p = .ok (d, q)) :
    ∃ n, ((∃ i, Legible i ∧ d = .int i) ∨ ∃ x, d = .float x) ∧ q = p.skip n := by
  have from_sign {negative : Bool} {body : List Char}
      (h : numberFrom p negative body = .ok (d, q)) :
      ∃ n, ((∃ i, Legible i ∧ d = .int i) ∨ ∃ x, d = .float x) ∧ q = p.skip n := by
    unfold numberFrom at h
    extract_lets at h
    split at h
    · cases h
    split at h
    · split at h
      · rename_i hl
        cases h
        exact ⟨_, .inl ⟨_, legible_digitsValue hl negative, rfl⟩, rfl⟩
      · cases h
    · cases h
      exact ⟨_, .inr ⟨_, rfl⟩, rfl⟩
  unfold readNumber at h
  split at h
  · exact from_sign h
  · exact from_sign h

def opening : List Char := ['\x7b', '"', 'o', 'l', 'd', '"', ':', ' ', '"']

def middle : List Char := ['"', ',', ' ', '"', 'n', 'e', 'w', '"', ':', ' ', '"']

def closing : List Char := ['"', '\x7d']

def frame (old new : List Char) : List Char := opening ++ (old ++ (middle ++ (new ++ closing)))

theorem stringText_toList (s : String) :
    (stringText s).toList = '"' :: (escaped s.toList ++ ['"']) := by
  simp [stringText, escaped, String.toList_join, List.flatMap, Function.comp_def]

theorem render_replacement (old new : String) :
    (render (.replacement old new)).toList = frame (escaped old.toList) (escaped new.toList) := by
  have ho : (stringText "old").toList = "\"old\"".toList := by decide
  have hn : (stringText "new").toList = "\"new\"".toList := by decide
  have hj (a b : String) : (join ", " [a, b]).toList = a.toList ++ (", ".toList ++ b.toList) := by
    simp [join]
  simp [Datum.replacement, render, renderEntries, keyText, hj, ho, hn, stringText_toList old,
    stringText_toList new, frame, opening, middle, closing]

theorem layout_of_solid {pos : Nat} (h : isLayout c = false) :
    Place.layout ⟨pos, c :: r⟩ = ⟨pos, c :: r⟩ := by
  simp [Place.layout, Place.skip, h]

theorem layout_of_space {pos : Nat} (h : isLayout c = false) :
    Place.layout ⟨pos, ' ' :: c :: r⟩ = ⟨pos + 1, c :: r⟩ := by
  have hs : isLayout ' ' = true := rfl
  simp [Place.layout, Place.skip, h, hs]

private theorem readValue_escaped {fuel depth pos : Nat} {xs r : List Char} :
    readValue (fuel + 1) depth ⟨pos, '"' :: (escaped xs ++ '"' :: r)⟩ =
      .ok (.text (String.ofList xs), ⟨pos + 1 + (escaped xs).length + 1, r⟩) := by
  have hl := length_le_escaped xs
  simp only [readValue, Place.skip, List.drop_succ_cons, List.drop_zero]
  rw [readString_escaped xs (by simp; omega)]

private theorem readMembers_entry {fuel depth pos : Nat} {acc : List (Datum × Datum)}
    {k v r : List Char} : ∃ pos', readMembers (fuel + 2) depth acc
        ⟨pos, '"' :: (escaped k ++ '"' :: ':' :: ' ' :: '"' :: (escaped v ++ '"' :: r))⟩ =
      let q := Place.layout ⟨pos', r⟩
      let acc := (.text (String.ofList k), .text (String.ofList v)) :: acc
      match q.rest with
      | '\x7d' :: _ => .ok (.ofEntries acc.reverse, q.skip 1)
      | ',' :: _ => readMembers (fuel + 1) depth acc (q.skip 1).layout
      | _ => .error ⟨"Expecting ',' delimiter", q.pos⟩ := by
  have hl := length_le_escaped k
  simp only [readMembers, Place.skip, List.drop_succ_cons, List.drop_zero]
  rw [readString_escaped k (by simp; omega)]
  simp only [layout_of_solid (show isLayout ':' = false from rfl), List.drop_succ_cons,
    List.drop_zero, layout_of_space (show isLayout '"' = false from rfl), readValue_escaped]
  exact ⟨_, rfl⟩

private theorem frame_eq (o n : List Char) : frame (escaped o) (escaped n) =
    '\x7b' :: '"' :: (escaped "old".toList ++ '"' :: ':' :: ' ' :: '"' :: (escaped o ++ '"' ::
      ',' :: ' ' :: '"' :: (escaped "new".toList ++ '"' :: ':' :: ' ' :: '"' :: (escaped n ++ '"' ::
        ['\x7d'])))) := by
  have ho : escaped "old".toList = ['o', 'l', 'd'] := by decide
  have hn : escaped "new".toList = ['n', 'e', 'w'] := by decide
  rw [ho, hn]
  simp only [frame, opening, middle, closing, List.cons_append, List.nil_append]

theorem parse_frame (o n : List Char) : parse (String.ofList (frame (escaped o) (escaped n))) =
    .ok (.replacement (String.ofList o) (String.ofList n)) := by
  have hb : isLayout '\x7b' = false := rfl
  have hq : isLayout '"' = false := rfl
  have hc : isLayout ',' = false := rfl
  have hd : isLayout '\x7d' = false := rfl
  unfold parse
  rw [String.toList_ofList, frame_eq]
  rw [if_neg (by simp)]
  generalize hf : 2 * List.length _ + 2 = fuel
  obtain ⟨fuel, rfl⟩ : ∃ k, fuel = k + 4 := ⟨fuel - 4, by simp at hf; omega⟩
  rw [layout_of_solid hb]
  simp only [readValue, maxDepth, Place.skip, List.drop_succ_cons, List.drop_zero,
    layout_of_solid hq]
  obtain ⟨p, hp⟩ := readMembers_entry
  rw [hp]
  simp only [layout_of_solid hc, Place.skip, List.drop_succ_cons, List.drop_zero,
    layout_of_space hq]
  obtain ⟨q, hq⟩ := readMembers_entry
  rw [hq]
  simp only [layout_of_solid hd, Place.skip, List.drop_succ_cons, List.drop_zero]
  rfl

end Mender.Json
