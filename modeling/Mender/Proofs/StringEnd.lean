import Mathlib.Algebra.Group.Nat.Even
import Mathlib.Data.Nat.Find
import Mathlib.Order.Bounds.Basic
import Mender.Proofs.Extraction

/-! Where a string ends. A scan that passes over every backslash together with the character behind
it stops at the first quote with an even number of backslashes right before it. So a text whose
quotes and backslashes are protected is passed as a whole, up to the quote behind it. -/
namespace Mender.Answer
open Text

def trailing (cs : List Char) : Nat := (cs.reverse.takeWhile (· == '\\')).length

/-- A quote at a position closes a string whose text begins at `start`: an even number of
backslashes stands right before it, none of them counted before `start`. -/
structure Closes (cs : List Char) (start p : Nat) : Prop where
  behind : start ≤ p
  quote : cs[p]? = some '"'
  even : Even (trailing ((cs.take p).drop start))

section Trailing
variable {c : Char} {cs : List Char}

private theorem trailing_le (cs : List Char) : trailing cs ≤ cs.length := by
  have hle := (List.takeWhile_prefix (l := cs.reverse) (· == '\\')).length_le
  rwa [List.length_reverse] at hle

theorem trailing_cons (c : Char) (cs : List Char) : trailing (c :: cs) =
    if trailing cs = cs.length then cs.length + trailing [c] else trailing cs := by
  simp only [trailing, List.reverse_cons, List.takeWhile_append, List.length_reverse,
    List.reverse_nil, List.nil_append]
  split
  · rw [List.length_append, List.length_reverse]
  · rfl

theorem trailing_cons_of_ne (h : c ≠ '\\') : trailing (c :: cs) = trailing cs := by
  have hc : trailing [c] = 0 := by simp [trailing, h]
  rw [trailing_cons, hc]
  split
  · rename_i hall
    exact hall.symm
  · rfl

private theorem even_trailing_pair (c : Char) (cs : List Char) :
    Even (trailing ('\\' :: c :: cs)) ↔ Even (trailing cs) := by
  have hmark : trailing ['\\'] = 1 := by decide
  have hle := trailing_le cs
  rw [trailing_cons, hmark, List.length_cons]
  by_cases hc : c = '\\'
  · subst hc
    rw [trailing_cons, hmark]
    by_cases hall : trailing cs = cs.length
    · rw [if_pos hall, if_pos rfl, hall]
      simp [parity_simps]
    · rw [if_neg hall, if_neg (by omega)]
  · rw [trailing_cons_of_ne hc, if_neg (by omega)]

end Trailing

theorem isLeast_shift {P Q : Nat → Prop} {p : Nat} (k : Nat) (low : ∀ i < k, ¬ P i)
    (shift : ∀ i, P (i + k) ↔ Q i) :
    IsLeast {i | P i} p ↔ ∃ q, IsLeast {i | Q i} q ∧ q + k = p := by
  constructor
  · rintro ⟨hp, hleast⟩
    obtain ⟨q, rfl⟩ := Nat.exists_eq_add_of_le' (Nat.le_of_not_lt fun hlt => low p hlt hp)
    refine ⟨q, ⟨(shift q).mp hp, fun i hi => ?_⟩, rfl⟩
    exact Nat.le_of_add_le_add_right (hleast ((shift i).mpr hi))
  · rintro ⟨q, ⟨hq, hleast⟩, rfl⟩
    refine ⟨(shift q).mpr hq, fun i hi => ?_⟩
    obtain ⟨j, rfl⟩ := Nat.exists_eq_add_of_le' (Nat.le_of_not_lt fun hlt => low i hlt hi)
    exact Nat.add_le_add_right (hleast ((shift j).mp hi)) k

section Scan
variable {c : Char} {cs : List Char} {p : Nat}

private theorem closes_pair : Closes ('\\' :: c :: cs) 0 (p + 2) ↔ Closes cs 0 p := by
  constructor
  · rintro ⟨-, hquote, heven⟩
    exact ⟨Nat.zero_le p, hquote, (even_trailing_pair c (cs.take p)).mp heven⟩
  · rintro ⟨-, hquote, heven⟩
    exact ⟨Nat.zero_le _, hquote, (even_trailing_pair c (cs.take p)).mpr heven⟩

private theorem not_closes_pair : ∀ i < 2, ¬ Closes ('\\' :: c :: cs) 0 i := by
  rintro (_ | _ | i) hi ⟨-, hquote, heven⟩
  · exact absurd (Option.some.inj hquote) (by decide)
  · exact Nat.not_even_one heven
  · omega

private theorem closes_cons (hc : c ≠ '\\') : Closes (c :: cs) 0 (p + 1) ↔ Closes cs 0 p := by
  have htrailing : trailing (c :: cs.take p) = trailing (cs.take p) := trailing_cons_of_ne hc
  constructor
  · rintro ⟨-, hquote, heven⟩
    exact ⟨Nat.zero_le p, hquote, htrailing ▸ heven⟩
  · rintro ⟨-, hquote, heven⟩
    exact ⟨Nat.zero_le _, hquote, htrailing.symm ▸ heven⟩

theorem closingQuote_eq_some_iff :
    closingQuote? cs = some p ↔ IsLeast {i | Closes cs 0 i} p := by
  fun_induction closingQuote? cs generalizing p with
  | case1 =>
    refine iff_of_false (by simp) fun h => ?_
    cases h.1.quote
  | case2 d cs ih =>
    rw [isLeast_shift 2 not_closes_pair fun _ => closes_pair, Option.map_eq_some_iff]
    simp only [ih]
  | case3 c cs hpair hc =>
    obtain rfl : c = '"' := by simpa using hc
    have hfirst : Closes ('"' :: cs) 0 0 := ⟨le_refl 0, rfl, Even.zero⟩
    constructor
    · rintro h
      exact Option.some.inj h ▸ ⟨hfirst, fun i _ => Nat.zero_le i⟩
    · intro h
      exact congrArg some (Nat.le_zero.mp (h.2 hfirst)).symm
  | case4 c cs hpair hc ih =>
    have hlow : ∀ i < 1, ¬ Closes (c :: cs) 0 i := by
      rintro (_ | i) hi h
      · exact hc (by simpa using h.quote)
      · omega
    by_cases hmark : c = '\\'
    · -- a backslash that nothing follows
      obtain rfl : cs = [] := by
        cases cs with
        | nil => rfl
        | cons d cs => exact (hpair d cs hmark rfl).elim
      refine iff_of_false (by simp [closingQuote?]) fun h => ?_
      obtain ⟨q, hq⟩ := Nat.exists_eq_add_one_of_ne_zero (n := p) fun h0 => hlow p (by omega) h.1
      exact absurd (hq ▸ h.1.quote) (by simp)
    · rw [isLeast_shift 1 hlow fun _ => closes_cons hmark, Option.map_eq_some_iff]
      simp only [ih]

theorem closingQuote_eq_none_iff : closingQuote? cs = none ↔ ∀ i, ¬ Closes cs 0 i := by
  constructor
  · intro h i hi
    obtain ⟨p, hp⟩ : ∃ p, IsLeast {i | Closes cs 0 i} p := by
      classical exact ⟨Nat.find ⟨i, hi⟩, Nat.find_spec ⟨i, hi⟩, fun j hj => Nat.find_min' _ hj⟩
    rw [closingQuote_eq_some_iff.mpr hp] at h
    cases h
  · intro h
    rw [Option.eq_none_iff_forall_ne_some]
    intro p hp
    exact h p (closingQuote_eq_some_iff.mp hp).1

end Scan

def protect (s : String) : String :=
  String.ofList (s.toList.flatMap fun c => if c = '\\' ∨ c = '"' then ['\\', c] else [c])

private theorem closingQuote_protect (s : String) (r : List Char) :
    closingQuote? ((protect s).toList ++ r) =
    (closingQuote? r).map (· + (protect s).toList.length) := by
  rw [protect, String.toList_ofList]
  induction s.toList with
  | nil => simp
  | cons c cs ih =>
    rw [List.flatMap_cons, List.append_assoc]
    split
    · rw [List.cons_append, List.cons_append, List.nil_append, closingQuote?, ih, Option.map_map]
      rfl
    · rename_i hc
      rw [not_or] at hc
      rw [List.cons_append, List.nil_append, closingQuote_cons hc.2 hc.1, ih, Option.map_map]
      rfl

private theorem closes_drop {cs : List Char} {start i : Nat} :
    Closes cs start (i + start) ↔ Closes (cs.drop start) 0 i := by
  have hcut : (cs.take (i + start)).drop start = ((cs.drop start).take i).drop 0 := by
    rw [List.drop_take, Nat.add_sub_cancel, List.drop_zero]
  constructor
  · rintro ⟨-, hquote, heven⟩
    rw [Nat.add_comm] at hquote
    exact ⟨Nat.zero_le i, List.getElem?_drop ▸ hquote, hcut ▸ heven⟩
  · rintro ⟨-, hquote, heven⟩
    rw [List.getElem?_drop, Nat.add_comm] at hquote
    exact ⟨Nat.le_add_left start i, hquote, hcut ▸ heven⟩

private theorem stringEnd_of_nat (s : String) (start : Nat) : stringEnd s start =
    .ok ((closingQuote? (s.toList.drop start)).map fun n => ((n + start : Nat) : Int)) := by
  rw [stringEnd, if_pos (Int.natCast_nonneg start), Int.toNat_natCast]
  cases closingQuote? (s.toList.drop start) with
  | none => rfl
  | some n => exact congrArg (Except.ok ∘ some) (Int.add_comm start n)

/-- The end of a string is the first quote at or behind its start with an even number of backslashes
right before it, counted from the start on; there is no end just if there is no such quote. A
protected text, wherever it stands and whatever follows, ends at the quote behind it. -/
theorem stringEnd_first_closing (s : String) (start : Nat) :
    (∃ e, stringEnd s start = .ok e ∧
      (∀ p : Nat, e = some (p : Int) ↔ IsLeast {i | Closes s.toList start i} p) ∧
      (e = none ↔ ∀ p, ¬ Closes s.toList start p)) ∧
    ∀ front text tail : String,
      stringEnd (front ++ protect text ++ "\"" ++ tail) (length front) =
        .ok (some (length front + length (protect text) : Nat)) := by
  have hlow : ∀ i < start, ¬ Closes s.toList start i := fun i hi h => absurd h.behind (by omega)
  refine ⟨⟨_, stringEnd_of_nat s start, fun p => ?_, ?_⟩, fun front text tail => ?_⟩
  · rw [isLeast_shift start hlow fun _ => closes_drop, Option.map_eq_some_iff]
    simp only [closingQuote_eq_some_iff, Int.natCast_inj]
  · rw [Option.map_eq_none_iff, closingQuote_eq_none_iff]
    refine ⟨fun h p hp => ?_, fun h i hi => h _ (closes_drop.mpr hi)⟩
    obtain ⟨i, rfl⟩ := Nat.exists_eq_add_of_le' hp.behind
    exact h i (closes_drop.mp hp)
  · have htext : (front ++ protect text ++ "\"" ++ tail).toList.drop (length front) =
        (protect text).toList ++ '"' :: tail.toList := by
      simp [length]
    have hquote : closingQuote? ('"' :: tail.toList) = some 0 := by simp [closingQuote?]
    rw [stringEnd_of_nat, htext, closingQuote_protect, hquote, Nat.add_comm (length front)]
    simp [length]

end Mender.Answer
