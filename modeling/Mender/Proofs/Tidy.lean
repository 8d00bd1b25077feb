import Mathlib.Data.List.Infix
import Mender.Answer.Payload
import Mender.Proofs.Json
import Mender.Proofs.Pattern
import Mender.Proofs.Trim

/-! What making an answer tidy does to its text: where characters go and where they come in, and
which texts stay as they are. -/
namespace Mender.Answer
open Text Pattern Json Relation
variable {a b : Char}

def gap (a b : Char) : Pattern :=
  .seq (.char (.literal a)) (.seq (.many true (.char .blank)) (.char (.literal b)))

theorem commaBrace_eq : commaBrace = gap ',' '\x7d' := by decide

theorem commaBracket_eq : commaBracket = gap ',' ']' := by decide

theorem braceBrace_eq : braceBrace = gap '\x7d' '\x7b' := by decide

theorem matches_gap {s t : Cursor} : (gap a b).Matches s t ↔
    ∃ w, (∀ c ∈ w, isBlank c = true) ∧ s.Reads (a :: (w ++ [b])) t := by
  constructor
  · rintro ⟨u, hu, v, hv, ht⟩
    obtain ⟨c, hc, hs⟩ := matches_char.mp hu
    obtain ⟨w, hw, hu⟩ := matches_many_char.mp hv
    obtain ⟨d, hd, hv⟩ := matches_char.mp ht
    have hc : c = a := by simpa [CharClass.holds] using hc
    have hd : d = b := by simpa [CharClass.holds] using hd
    rw [hc] at hs
    rw [hd] at hv
    exact ⟨w, hw, hs.trans (hu.trans hv)⟩
  · rintro ⟨w, hw, ht⟩
    obtain ⟨u, hu, ht⟩ := Cursor.Reads.split (v := [a]) ht
    obtain ⟨v, hv, ht⟩ := ht.split
    exact ⟨u, matches_char.mpr ⟨a, by simp [CharClass.holds], hu⟩, v,
      matches_many_char.mpr ⟨w, hw, hv⟩, matches_char.mpr ⟨b, by simp [CharClass.holds], ht⟩⟩

private theorem gap_moves (a b : Char) : (gap a b).Moves := by
  intro s t h
  obtain ⟨w, -, hr⟩ := matches_gap.mp h
  have := hr.pos
  simp only [List.length_cons] at this
  omega

/-- The second text is the first with `new` in the place of each gap. -/
inductive Bridged (a b : Char) (new : List Char) : List Char → List Char → Prop where
  | nil : Bridged a b new [] []
  | keep {c : Char} {x y : List Char}
      (hn : ∀ w r, (∀ d ∈ w, isBlank d = true) → c :: x ≠ a :: (w ++ b :: r))
      (h : Bridged a b new x y) : Bridged a b new (c :: x) (c :: y)
  | gap {w x y : List Char} (hw : ∀ d ∈ w, isBlank d = true) (h : Bridged a b new x y) :
      Bridged a b new (a :: (w ++ b :: x)) (new ++ y)

private theorem bridged_replaced {new : String} {before : List Char} {pos : Nat} (cs : List Char) :
    Bridged a b new.toList cs ((gap a b).replaced (fun _ => new) 0 before pos cs) := by
  refine replaced_induct (gap_moves a b) .nil ?_ ?_ cs
  · intro before pos c cs out hm h
    refine .keep (fun w r hw he => ?_) h
    obtain ⟨t, ht, -⟩ := Cursor.exists_reads (s := ⟨before, c :: cs, pos, []⟩)
      (w := a :: (w ++ [b])) (r := r) (by simpa using he)
    exact matchAt_eq_none.mp hm t (matches_gap.mpr ⟨w, hw, ht⟩)
  · intro before pos cs m t out _ ht _ h
    obtain ⟨w, hw, hr⟩ := matches_gap.mp ht
    have hcs : cs = a :: (w ++ b :: t.rest) := by simpa using hr.rest
    rw [hcs]
    exact .gap hw h

theorem bridged_replaceAll (a b : Char) (new s : String) :
    Bridged a b new.toList s.toList ((gap a b).replaceAll new s).toList := by
  rw [replaceAll, replaceBy_eq, String.toList_ofList]
  exact bridged_replaced s.toList

def GapFree (a b : Char) (x : List Char) : Prop :=
  ∀ w, (∀ d ∈ w, isBlank d = true) → ¬ a :: (w ++ [b]) <:+: x

/-- A text without gaps stays as it is, and where what comes in for a gap is never the gap itself,
no other text does. -/
theorem Bridged.eq_iff {new x y : List Char} (h : Bridged a b new x y)
    (hnew : ∀ w x y, (∀ d ∈ w, isBlank d = true) → Bridged a b new x y →
      new ++ y ≠ a :: (w ++ b :: x)) : y = x ↔ GapFree a b x := by
  induction h with
  | nil => simp [GapFree]
  | @keep c x y hn h ih =>
    rw [List.cons_inj_right, ih]
    constructor
    · intro hf w hw hi
      rcases List.infix_cons_iff.mp hi with ⟨r, hr⟩ | hi
      · exact hn w r hw (by simpa using hr.symm)
      · exact hf w hw hi
    · exact fun hf w hw hi => hf w hw (List.infix_cons hi)
  | @gap w x y hw h ih =>
    constructor
    · exact fun he => absurd he (hnew w x y hw h)
    · exact fun hf => absurd ⟨[], x, by simp⟩ (hf w hw)

/-- The second text comes from the first by taking out commas before a closing brace or bracket, by
putting commas between braces, and by merging spaces; each at any number of places. -/
inductive Tidies : List Char → List Char → Prop where
  | nil : Tidies [] []
  | keep (c : Char) {x y : List Char} (h : Tidies x y) : Tidies (c :: x) (c :: y)
  | drop (n : Nat) {b : Char} {x y : List Char} (hb : b = '\x7d' ∨ b = ']') (h : Tidies x y) :
      Tidies (',' :: (List.replicate n ' ' ++ b :: x)) (b :: y)
  | join (n : Nat) {x y : List Char} (h : Tidies x y) :
      Tidies ('\x7d' :: (List.replicate n ' ' ++ '\x7b' :: x)) ('\x7d' :: ',' :: '\x7b' :: y)
  | merge (n : Nat) {x y : List Char} (hx : x.head? ≠ some ' ') (h : Tidies x y) :
      Tidies (' ' :: ' ' :: (List.replicate n ' ' ++ x)) (' ' :: y)

namespace Tidies
variable {x y : List Char} {c : Char}

theorem refl (x : List Char) : Tidies x x := by
  induction x with
  | nil => exact .nil
  | cons c x ih => exact .keep c ih

theorem cases_cons (h : Tidies (c :: x) y) : (∃ z, y = c :: z ∧ Tidies x z) ∨
    (∃ n b v z, c = ',' ∧ (b = '\x7d' ∨ b = ']') ∧ x = List.replicate n ' ' ++ b :: v ∧
      y = b :: z ∧ Tidies v z) ∨
    (∃ n v z, c = '\x7d' ∧ x = List.replicate n ' ' ++ '\x7b' :: v ∧
      y = '\x7d' :: ',' :: '\x7b' :: z ∧ Tidies v z) ∨
    (∃ n v z, c = ' ' ∧ x = ' ' :: (List.replicate n ' ' ++ v) ∧ v.head? ≠ some ' ' ∧
      y = ' ' :: z ∧ Tidies v z) := by
  generalize hu : c :: x = u at h
  cases h with
  | nil => cases hu
  | keep d h =>
    cases hu
    exact .inl ⟨_, rfl, h⟩
  | drop n hb h =>
    cases hu
    exact .inr (.inl ⟨n, _, _, _, rfl, hb, rfl, rfl, h⟩)
  | join n h =>
    cases hu
    exact .inr (.inr (.inl ⟨n, _, _, rfl, rfl, rfl, h⟩))
  | merge n hx h =>
    cases hu
    exact .inr (.inr (.inr ⟨n, _, _, rfl, rfl, hx, rfl, h⟩))

theorem cons_inv (h : Tidies (c :: x) y) (h1 : c ≠ ',')
    (h2 : c ≠ '\x7d') (h3 : c ≠ ' ') : ∃ z, y = c :: z ∧ Tidies x z := by
  rcases h.cases_cons with h | ⟨_, _, _, _, hc, _⟩ | ⟨_, _, _, hc, _⟩ | ⟨_, _, _, hc, _⟩
  · exact h
  · exact absurd hc h1
  · exact absurd hc h2
  · exact absurd hc h3

theorem space_inv (h : Tidies (' ' :: c :: x) y) (hc : c ≠ ' ') :
    ∃ z, y = ' ' :: z ∧ Tidies (c :: x) z := by
  rcases h.cases_cons with h | ⟨_, _, _, _, hs, _⟩ | ⟨_, _, _, hs, _⟩ | ⟨_, _, _, -, hx, _⟩
  · exact h
  · exact absurd hs (by decide)
  · exact absurd hs (by decide)
  · exact absurd (List.cons.inj hx).1 hc

theorem head_ne (h : Tidies x y) (hx : x.head? ≠ some ' ') : y.head? ≠ some ' ' := by
  cases h with
  | nil => exact hx
  | keep c h => exact hx
  | drop n hb h => rcases hb with rfl | rfl <;> simp
  | join n h => simp
  | merge n _ h => simp at hx

theorem nil_iff (h : Tidies x y) : y = [] ↔ x = [] := by
  cases h <;> simp

theorem last_ne (h : Tidies x y) (hx : x.getLast? ≠ some ' ') : y.getLast? ≠ some ' ' := by
  -- in front of a text that is not empty, nothing changes its last character
  have hcons (c : Char) {z : List Char} (hz : z ≠ []) : (c :: z).getLast? = z.getLast? := by
    obtain ⟨d, z, rfl⟩ := List.exists_cons_of_ne_nil hz
    exact List.getLast?_cons_cons
  have happ (w : List Char) {z : List Char} (hz : z ≠ []) : (w ++ z).getLast? = z.getLast? := by
    induction w with
    | nil => rfl
    | cons c w ih => rw [List.cons_append, hcons c (by simp [hz]), ih]
  have hstep (b : Char) (hb : b ≠ ' ') {x y : List Char} (h : Tidies x y)
      (ih : x.getLast? ≠ some ' ' → y.getLast? ≠ some ' ') (hx : (b :: x).getLast? ≠ some ' ') :
      (b :: y).getLast? ≠ some ' ' := by
    by_cases hn : x = []
    · rw [h.nil_iff.mpr hn]
      simpa using hb
    · rw [hcons b (mt h.nil_iff.mp hn)]
      rw [hcons b hn] at hx
      exact ih hx
  induction h with
  | nil => exact hx
  | @keep c x y h ih =>
    by_cases hn : x = []
    · subst hn
      rw [h.nil_iff.mpr rfl]
      exact hx
    · rw [hcons c (mt h.nil_iff.mp hn)]
      rw [hcons c hn] at hx
      exact ih hx
  | drop n hb h ih =>
    rw [← List.cons_append, happ _ (by simp)] at hx
    exact hstep _ (by rintro rfl; simp at hb) h ih hx
  | join n h ih =>
    rw [← List.cons_append, happ _ (by simp)] at hx
    rw [hcons _ (by simp), hcons _ (by simp)]
    exact hstep _ (by decide) h ih hx
  | @merge n x y hh h ih =>
    by_cases hn : x = []
    · subst hn
      exact absurd (by cases n <;> simp [List.getLast?_cons, List.getLast?_replicate]) hx
    · rw [hcons _ (mt h.nil_iff.mp hn)]
      rw [← List.cons_append, ← List.cons_append, happ _ hn] at hx
      exact ih hx

/-- A number for each character such that every change puts a greater one in the first place that it
changes. -/
def rank (c : Char) : Nat :=
  if c = ' ' then 0 else if c = '\x7b' then 1 else if c = ',' then 2 else 3

def ranks (x : List Char) : List Nat := x.map rank ++ [4]

/-- The second text is the first or comes after it in the order of the ranks. -/
def Upward (x y : List Char) : Prop := y = x ∨ ranks x < ranks y

theorem Upward.trans {x y z : List Char} (h : Upward x y) (k : Upward y z) : Upward x z := by
  rcases h with rfl | h
  · exact k
  · rcases k with rfl | k
    · exact .inr h
    · exact .inr (List.lt_trans h k)

theorem Upward.antisymm (h : Upward x y) (k : Upward y x) : y = x := by
  rcases h with h | h
  · exact h
  · rcases k with k | k
    · exact k.symm
    · exact absurd (List.lt_trans h k) (List.lt_irrefl _)

theorem upward (h : Tidies x y) : Upward x y := by
  induction h with
  | nil => exact .inl rfl
  | keep c h ih =>
    rcases ih with rfl | ih
    · exact .inl rfl
    · exact .inr (List.cons_lt_cons_iff.mpr (.inr ⟨rfl, ih⟩))
  | drop n hb h =>
    refine .inr (List.cons_lt_cons_iff.mpr (.inl ?_))
    rcases hb with rfl | rfl <;> decide
  | join n h =>
    refine .inr (List.cons_lt_cons_iff.mpr (.inr ⟨rfl, ?_⟩))
    cases n <;> exact List.cons_lt_cons_iff.mpr (.inl (by decide))
  | @merge n x y hx h =>
    refine .inr (List.cons_lt_cons_iff.mpr (.inr ⟨rfl, ?_⟩))
    have hy := h.head_ne hx
    cases y with
    | nil => exact List.cons_lt_cons_iff.mpr (.inl (by decide))
    | cons c y =>
      have hc : c ≠ ' ' := by simpa using hy
      have hr : rank ' ' < rank c := by
        unfold rank
        rw [if_pos rfl, if_neg hc]
        split
        · decide
        · split <;> decide
      exact List.cons_lt_cons_iff.mpr (.inl hr)

theorem printable (h : Tidies x y) (hx : ∀ c ∈ x, Printable c) : ∀ c ∈ y, Printable c := by
  induction h with
  | nil => exact hx
  | keep c h ih =>
    simp only [List.forall_mem_cons] at hx ⊢
    exact ⟨hx.1, ih hx.2⟩
  | drop n hb h ih =>
    simp only [List.forall_mem_cons, List.forall_mem_append] at hx ⊢
    exact ⟨hx.2.2.1, ih hx.2.2.2⟩
  | join n h ih =>
    simp only [List.forall_mem_cons, List.forall_mem_append] at hx ⊢
    exact ⟨by decide, by decide, by decide, ih hx.2.2.2⟩
  | merge n _ h ih =>
    simp only [List.forall_mem_cons, List.forall_mem_append] at hx ⊢
    exact ⟨by decide, ih hx.2.2.2⟩

theorem filter_eq (h : Tidies x y) (p : Char → Bool) (hc : p ',' = false)
    (hs : p ' ' = false) : y.filter p = x.filter p := by
  have hr (n : Nat) : (List.replicate n ' ').filter p = [] := by simp [hs]
  induction h with
  | nil => rfl
  | keep c h ih => simp only [List.filter_cons, ih]
  | drop n hb h ih => simp only [List.filter_cons, List.filter_append, hc, hr, ih, List.nil_append]; rfl
  | join n h ih => simp [List.filter_cons, hc, hr, ih]
  | merge n _ h ih => simp [hs, hr, ih]

theorem append_inv {w x y : List Char} (hw : ∀ c ∈ w, c ≠ ',' ∧ c ≠ '\x7d' ∧ c ≠ ' ')
    (h : Tidies (w ++ x) y) : ∃ z, y = w ++ z ∧ Tidies x z := by
  induction w generalizing y with
  | nil => exact ⟨y, rfl, h⟩
  | cons c w ih =>
    obtain ⟨hc, hw⟩ := List.forall_mem_cons.mp hw
    obtain ⟨u, rfl, hu⟩ := h.cons_inv hc.1 hc.2.1 hc.2.2
    obtain ⟨z, rfl, hz⟩ := ih hw hu
    exact ⟨z, rfl, hz⟩

private theorem spaces_mark {n : Nat} {v : List Char} (hv : ∀ c ∈ v, Mark c) :
    ∀ c ∈ List.replicate n ' ' ++ v, Mark c := by
  intro c hc
  rcases List.mem_append.mp hc with hc | hc
  · exact List.eq_of_mem_replicate hc ▸ by decide
  · exact hv c hc

private theorem escape_inert (h : ¬ Plain c) :
    ∀ x ∈ (charText c).toList, x ≠ ',' ∧ x ≠ '\x7d' ∧ x ≠ ' ' := by
  have hm {x : Char} (hx : x ∈ (charText c).toList) (hm : Mark x) : False :=
    h ((hm.eq_of_mem hx).1 ▸ hm.1)
  refine fun x hx => ⟨?_, ?_, ?_⟩ <;> rintro rfl <;> exact hm hx (by decide)

theorem escaped_inv {x r y : List Char} (h : Tidies (escaped x ++ '"' :: r) y) :
    ∃ o z, y = escaped o ++ '"' :: z ∧ Tidies x o ∧ Tidies r z := by
  induction hn : x.length using Nat.strongRecOn generalizing x y with
  | ind n ih =>
    subst hn
    cases x with
    | nil =>
      obtain ⟨z, hy, hz⟩ := h.cons_inv (by decide) (by decide) (by decide)
      exact ⟨[], z, hy, .nil, hz⟩
    | cons c x =>
      by_cases hp : Plain c
      · rw [hp.escaped_cons] at h
        rcases cases_cons h with ⟨u, rfl, hu⟩ | ⟨n, b, v, u, rfl, hb, hx, rfl, hu⟩ |
          ⟨n, v, u, rfl, hx, rfl, hu⟩ | ⟨n, v, u, rfl, hx, hv, rfl, hu⟩
        · obtain ⟨o, z, rfl, ho, hz⟩ := ih _ (by simp) hu rfl
          exact ⟨c :: o, z, by rw [hp.escaped_cons]; rfl, .keep c ho, hz⟩
        · have hm : Mark b := by rcases hb with rfl | rfl <;> decide
          obtain ⟨w, rfl, rfl⟩ := escaped_peel (v := List.replicate n ' ' ++ [b])
            (spaces_mark (by simpa using hm)) (by simpa using hx)
          obtain ⟨o, z, rfl, ho, hz⟩ := ih _
            (by simp only [List.length_cons, List.length_append]; omega) hu rfl
          exact ⟨b :: o, z, by rw [hm.1.escaped_cons]; rfl, by simpa using .drop n hb ho, hz⟩
        · obtain ⟨w, rfl, rfl⟩ := escaped_peel (v := List.replicate n ' ' ++ ['\x7b'])
            (spaces_mark (forall_mem_of_all (by decide))) (by simpa using hx)
          obtain ⟨o, z, rfl, ho, hz⟩ := ih _
            (by simp only [List.length_cons, List.length_append]; omega) hu rfl
          refine ⟨'\x7d' :: ',' :: '\x7b' :: o, z, ?_, by simpa using .join n ho, hz⟩
          rw [Plain.escaped_cons (by decide), Plain.escaped_cons (by decide),
            Plain.escaped_cons (by decide)]
          rfl
        · obtain ⟨w, rfl, rfl⟩ := escaped_peel (v := List.replicate (n + 1) ' ' ++ [])
            (spaces_mark (by simp)) (by simpa [List.replicate_succ] using hx)
          obtain ⟨o, z, rfl, ho, hz⟩ := ih _
            (by simp only [List.length_cons, List.length_append]; omega) hu rfl
          refine ⟨' ' :: o, z, by rw [hp.escaped_cons]; rfl, ?_, hz⟩
          have hw : w.head? ≠ some ' ' := by
            cases w with
            | nil => simp
            | cons e w =>
              intro he
              obtain rfl : e = ' ' := by simpa using he
              rw [hp.escaped_cons] at hv
              exact hv rfl
          simpa [List.replicate_succ] using .merge n hw ho
      · rw [escaped_cons, List.append_assoc] at h
        obtain ⟨u, rfl, hu⟩ := append_inv (escape_inert hp) h
        obtain ⟨o, z, rfl, ho, hz⟩ := ih _ (by simp) hu rfl
        exact ⟨c :: o, z, by rw [escaped_cons, List.append_assoc], .keep c ho, hz⟩

private theorem cons_source (h : Tidies x (c :: y)) (h1 : c ≠ '\x7d')
    (h2 : c ≠ ']') (h3 : c ≠ ' ') : ∃ z, x = c :: z ∧ Tidies z y := by
  cases h with
  | keep c h => exact ⟨_, rfl, h⟩
  | drop n hb h => exact (hb.elim h1 h2).elim
  | join n h => exact absurd rfl h1
  | merge n hx h => exact absurd rfl h3

private theorem fence_source (h : Tidies x y) (hy : ['`', '`', '`'] <:+: y) :
    ['`', '`', '`'] <:+: x := by
  have hskip {c : Char} {y : List Char} (hc : c ≠ '`') (hy : ['`', '`', '`'] <:+: c :: y) :
      ['`', '`', '`'] <:+: y := by
    rcases List.infix_cons_iff.mp hy with ⟨r, hr⟩ | hy
    · exact absurd (List.cons.inj hr).1.symm hc
    · exact hy
  induction h with
  | nil => exact hy
  | keep c h ih =>
    rcases List.infix_cons_iff.mp hy with ⟨r, hr⟩ | hy
    · obtain ⟨rfl, rfl⟩ := List.cons.inj hr
      obtain ⟨u, rfl, hu⟩ := h.cons_source (by decide) (by decide) (by decide)
      obtain ⟨v, rfl, -⟩ := hu.cons_source (by decide) (by decide) (by decide)
      exact ⟨[], v, rfl⟩
    · exact List.infix_cons (ih hy)
  | @drop n b x y hb h ih =>
    have hb : b ≠ '`' := by rcases hb with rfl | rfl <;> decide
    exact List.infix_cons ((ih (hskip hb hy)).trans ((List.suffix_cons ..).trans
      (List.suffix_append ..)).isInfix)
  | join n h ih =>
    have hy := hskip (by decide) (hskip (by decide) (hskip (by decide) hy))
    exact List.infix_cons ((ih hy).trans ((List.suffix_cons ..).trans
      (List.suffix_append ..)).isInfix)
  | merge n hx h ih =>
    exact List.infix_cons (List.infix_cons ((ih (hskip (by decide) hy)).trans
      (List.suffix_append ..).isInfix))

end Tidies

variable {c : Char} {x y : List Char} {s : String}

/-- One text comes from another by tidying again and again. -/
abbrev Tidied : List Char → List Char → Prop := ReflTransGen Tidies

theorem Tidied.filter_eq (h : Tidied x y) (p : Char → Bool) (hc : p ',' = false)
    (hs : p ' ' = false) : y.filter p = x.filter p := by
  induction h with
  | refl => rfl
  | tail _ hstep ih => rw [hstep.filter_eq p hc hs, ih]

theorem Tidied.fence_source (h : Tidied x y) (hy : ['`', '`', '`'] <:+: y) :
    ['`', '`', '`'] <:+: x := by
  induction h with
  | refl => exact hy
  | tail _ hstep ih => exact ih (hstep.fence_source hy)

theorem Tidied.count_eq (h : Tidied x y) (hc : c ≠ ',') (hs : c ≠ ' ') : y.count c = x.count c := by
  have hf := congrArg List.length (h.filter_eq (· == c) (by simpa using hc.symm) (by simpa using hs.symm))
  simpa only [List.count, List.countP_eq_length_filter] using hf

theorem eq_space_of_blank (hp : Printable c) (hb : isBlank c = true) : c = ' ' := by
  unfold Printable at hp
  simp only [isBlank, inRanges, blankRanges, List.any_cons, List.any_nil, Bool.or_false,
    Bool.or_eq_true, Bool.and_eq_true, decide_eq_true_eq] at hb
  exact Char.toNat_inj.mp (by change c.toNat = 32; omega)

theorem eq_replicate_of_blank {w : List Char} (hp : ∀ c ∈ w, Printable c)
    (hb : ∀ c ∈ w, isBlank c = true) : w = List.replicate w.length ' ' :=
  List.eq_replicate_iff.mpr ⟨rfl, fun c hc => eq_space_of_blank (hp c hc) (hb c hc)⟩

private theorem Bridged.tidies {a b : Char} {new x y : List Char} (h : Bridged a b new x y)
    (hx : ∀ c ∈ x, Printable c) (hg : ∀ n x y, Tidies x y →
      Tidies (a :: (List.replicate n ' ' ++ b :: x)) (new ++ y)) : Tidies x y := by
  induction h with
  | nil => exact .nil
  | keep hn h ih => exact .keep _ (ih fun c hc => hx c (List.mem_cons_of_mem _ hc))
  | @gap w x y hw h ih =>
    simp only [List.forall_mem_cons, List.forall_mem_append] at hx
    rw [eq_replicate_of_blank hx.2.1 hw]
    exact hg _ _ _ (ih hx.2.2.2)

/-- Replacing gaps is a way of tidying where each single replacement is; it leaves a text as it is
exactly where there are none. -/
theorem tidies_gap {a b : Char} {new s : String} (hs : ∀ c ∈ s.toList, Printable c)
    (hg : ∀ n x y, Tidies x y →
      Tidies (a :: (List.replicate n ' ' ++ b :: x)) (new.toList ++ y))
    (hnew : ∀ w r y, (∀ d ∈ w, isBlank d = true) → new.toList ++ y ≠ a :: (w ++ b :: r)) :
    Tidies s.toList ((gap a b).replaceAll new s).toList ∧
      (((gap a b).replaceAll new s).toList = s.toList ↔ GapFree a b s.toList) :=
  have h := bridged_replaceAll a b new s
  ⟨h.tidies hs hg, h.eq_iff fun w x y hw _ => hnew w x y hw⟩

def spaced (cs : List Char) : List Char := [' '].intercalate (wordChars cs)

theorem join_words (s : String) : (Text.join " " (Text.words s)).toList = spaced s.toList := by
  simp [Text.join, Text.words, spaced, String.toList_intercalate, Function.comp_def]

theorem spaced_blank (cs : List Char) (hc : isBlank c = true) : spaced (c :: cs) = spaced cs := by
  simp [spaced, wordChars, hc]

theorem spaced_last (hc : isBlank c = false) : spaced [c] = [c] := by
  simp [spaced, wordChars, hc, List.intercalate]

theorem spaced_solid {c d : Char} {cs : List Char} (hc : isBlank c = false)
    (hd : isBlank d = false) : spaced (c :: d :: cs) = c :: spaced (d :: cs) := by
  have hne := wordChars_ne_nil (List.mem_cons_self (a := d) (l := cs)) hd
  obtain ⟨w, ws, hw⟩ := List.exists_cons_of_ne_nil hne
  unfold spaced
  rw [wordChars]
  simp only [hc, hd, hw, Bool.false_eq_true, if_false]
  cases ws <;> simp [List.intercalate]

private theorem spaced_gap {c d : Char} {cs : List Char} (hc : isBlank c = false)
    (hd : isBlank d = true)
    (hne : wordChars cs ≠ []) : spaced (c :: d :: cs) = c :: ' ' :: spaced cs := by
  obtain ⟨w, ws, hw⟩ := List.exists_cons_of_ne_nil hne
  rw [← spaced_blank cs hd]
  have hw : wordChars (d :: cs) = w :: ws := by simp [wordChars, hd, hw]
  unfold spaced
  rw [wordChars]
  simp only [hc, hd, hw, Bool.false_eq_true, if_false, if_true]
  simp [List.intercalate]

private theorem not_blank (hp : Printable c) (hc : c ≠ ' ') : isBlank c = false := by
  cases hb : isBlank c with
  | false => rfl
  | true => exact absurd (eq_space_of_blank hp hb) hc

private theorem exists_spaces (x : List Char) :
    ∃ n z, x = List.replicate n ' ' ++ z ∧ z.head? ≠ some ' ' := by
  induction x with
  | nil => exact ⟨0, [], rfl, by simp⟩
  | cons c x ih =>
    by_cases hc : c = ' '
    · obtain ⟨n, z, rfl, hz⟩ := ih
      exact ⟨n + 1, z, by rw [hc]; rfl, hz⟩
    · exact ⟨0, c :: x, rfl, by simpa using hc⟩

private theorem spaced_spaces (n : Nat) (z : List Char) :
    spaced (List.replicate n ' ' ++ z) = spaced z := by
  induction n with
  | zero => rfl
  | succ n ih => exact (spaced_blank _ rfl).trans ih

private theorem double_cons (h : c ≠ ' ' ∨ x.head? ≠ some ' ') :
    [' ', ' '] <:+: c :: x ↔ [' ', ' '] <:+: x := by
  rw [List.infix_cons_iff, or_iff_right]
  rintro ⟨r, hr⟩
  cases hr
  simp at h

/-- Setting single spaces between the words is a way of tidying; it leaves a text that neither
begins nor ends with a space as it is exactly where no two spaces meet. -/
theorem tidies_spaced (hx : ∀ c ∈ x, Printable c) (hh : x.head? ≠ some ' ')
    (hl : x.getLast? ≠ some ' ') :
    Tidies x (spaced x) ∧ (spaced x = x ↔ ¬ [' ', ' '] <:+: x) := by
  induction hn : x.length using Nat.strongRecOn generalizing x with
  | ind n ih =>
    subst hn
    rcases x with _ | ⟨c, _ | ⟨d, x⟩⟩
    · exact ⟨.nil, by simp [spaced, wordChars]⟩
    · have hc := not_blank (hx c List.mem_cons_self) (by simpa using hh)
      rw [spaced_last hc]
      exact ⟨.refl _, iff_of_true rfl fun h => by simpa using h.length_le⟩
    have hcs : c ≠ ' ' := by simpa using hh
    have hc := not_blank (hx c List.mem_cons_self) hcs
    by_cases hds : d = ' '
    · subst hds
      obtain ⟨n, z, rfl, hz⟩ := exists_spaces x
      have hlz : z ≠ [] ∧ z.getLast? ≠ some ' ' := by
        cases z with
        | nil =>
          refine absurd ?_ hl
          cases n <;> simp [List.getLast?_cons, List.getLast?_replicate]
        | cons e z => simpa [List.getLast?_cons] using hl
      obtain ⟨ht, he⟩ := ih z.length (by simp; omega) (fun e h => hx e (by simp [h])) hz hlz.2 rfl
      obtain ⟨e, r, rfl⟩ := List.exists_cons_of_ne_nil hlz.1
      have hb := not_blank (hx e (by simp)) (by simpa using hz)
      rw [spaced_gap hc rfl (wordChars_ne_nil (c := e) (by simp) hb), spaced_spaces]
      cases n with
      | zero =>
        refine ⟨.keep c (.keep ' ' ht), ?_⟩
        rw [double_cons (.inl hcs), List.replicate_zero, List.nil_append, double_cons (.inr hz), ← he]
        simp
      | succ n =>
        refine ⟨.keep c (.merge n hz ht), iff_of_false (fun h => ?_) (fun h => h ?_)⟩
        · have hy := ht.head_ne hz
          simp only [List.cons.injEq, true_and] at h
          rw [h] at hy
          exact hy rfl
        · exact ⟨[c], List.replicate n ' ' ++ e :: r, rfl⟩
    · have hd := not_blank (hx d (by simp)) hds
      obtain ⟨ht, he⟩ := ih _ (by simp) (fun e h => hx e (List.mem_cons_of_mem c h))
        (by simpa using hds) (by simpa using hl) rfl
      rw [spaced_solid hc hd, List.cons_inj_right, he, double_cons (.inl hcs)]
      exact ⟨.keep c ht, Iff.rfl⟩

def IsTidy (x : List Char) : Prop :=
  GapFree ',' '\x7d' x ∧ GapFree ',' ']' x ∧ GapFree '\x7d' '\x7b' x ∧ ¬ [' ', ' '] <:+: x

private theorem tidies_comma {b : Char} (new : String) (hb : b = '\x7d' ∨ b = ']')
    (hn : new.toList = [b]) (hs : ∀ c ∈ s.toList, Printable c) :
    Tidies s.toList ((gap ',' b).replaceAll new s).toList ∧
      (((gap ',' b).replaceAll new s).toList = s.toList ↔ GapFree ',' b s.toList) := by
  refine tidies_gap hs (fun n x y h => ?_) fun w r y _ h => ?_
  · rw [hn]
    exact .drop n hb h
  · rw [hn] at h
    have hc : b = ',' := (List.cons.inj h).1
    rcases hb with rfl | rfl <;> cases hc

private theorem tidies_braces (hs : ∀ c ∈ s.toList, Printable c) :
    Tidies s.toList ((gap '\x7d' '\x7b').replaceAll "\x7d,\x7b" s).toList ∧
      (((gap '\x7d' '\x7b').replaceAll "\x7d,\x7b" s).toList = s.toList ↔
        GapFree '\x7d' '\x7b' s.toList) := by
  have hn : "\x7d,\x7b".toList = ['\x7d', ',', '\x7b'] := rfl
  refine tidies_gap hs (fun n x y h => ?_) fun w r y hw h => ?_
  · rw [hn]
    exact .join n h
  · rw [hn] at h
    cases w with
    | nil => simp at h
    | cons d w =>
      have hd : ',' = d := (List.cons.inj (List.cons.inj h).2).1
      exact absurd (hd ▸ hw d List.mem_cons_self) (by decide)

/-- Tidying a text goes through the four kinds of changes; it leaves a text as it is exactly where
none of them has anything to do. -/
theorem tidy_spec (hs : ∀ c ∈ s.toList, Printable c) (hh : s.toList.head? ≠ some ' ')
    (hl : s.toList.getLast? ≠ some ' ') : Tidied s.toList (tidy s).toList ∧
      ((tidy s).toList = s.toList ↔ IsTidy s.toList) := by
  obtain ⟨t1, e1⟩ := tidies_comma "\x7d" (.inl rfl) rfl hs
  obtain ⟨t2, e2⟩ := tidies_comma "]" (.inr rfl) rfl (t1.printable hs)
  obtain ⟨t3, e3⟩ := tidies_braces (t2.printable (t1.printable hs))
  obtain ⟨t4, e4⟩ := tidies_spaced (t3.printable (t2.printable (t1.printable hs)))
    (t3.head_ne (t2.head_ne (t1.head_ne hh))) (t3.last_ne (t2.last_ne (t1.last_ne hl)))
  rw [← join_words] at t4 e4
  simp only [tidy, commaBrace_eq, commaBracket_eq, braceBrace_eq]
  refine ⟨((ReflTransGen.single t1).tail t2 |>.tail t3).tail t4, ?_⟩
  generalize (gap ',' '\x7d').replaceAll "\x7d" s = s1 at *
  generalize (gap ',' ']').replaceAll "]" s1 = s2 at *
  generalize (gap '\x7d' '\x7b').replaceAll "\x7d,\x7b" s2 = s3 at *
  generalize Text.join " " (Text.words s3) = s4 at *
  constructor
  · intro h
    rw [h] at t4 e4
    have u1 := t1.upward.antisymm ((t2.upward.trans t3.upward).trans t4.upward)
    rw [u1] at t2 e2
    have u2 := t2.upward.antisymm (t3.upward.trans t4.upward)
    rw [u2] at t3 e3
    have u3 := t3.upward.antisymm t4.upward
    rw [u3] at e4
    exact ⟨e1.mp u1, e2.mp u2, e3.mp u3, e4.mp rfl⟩
  · rintro ⟨g1, g2, g3, g4⟩
    have u1 := e1.mpr g1
    rw [u1] at e2
    have u2 := e2.mpr g2
    rw [u2] at e3
    have u3 := e3.mpr g3
    rw [u3] at e4
    exact e4.mpr g4

end Mender.Answer
