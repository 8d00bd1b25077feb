import Mender.Proofs.Agreement
import Mender.Proofs.Completion
import Mender.Proofs.FixItText
import Mender.Proofs.Suggestion

/-! Types of the standard namespace that are named without it. On the line of a message each
occurrence of the type as a whole word gets the mark of the namespace, unless the mark stands before
it. Main statement: the line is cut at exactly these occurrences, nothing but the marks comes in,
and a second repair finds nothing to do. What carries it: whole words of one text do not overlap,
and the mark makes no new one. -/
namespace Mender
open Text

namespace Pattern

private theorem goes_text {w : String} {s : Cursor} {r : List Char} (hs : s.rest = w.toList ++ r) :
    (text w).Goes s (s.past w.toList r) := by
  intro k _
  have hrun := run_text w.toList k s
  rw [String.ofList_toList, run_spelled hs] at hrun
  exact hrun

theorem search_framed {c : CharClass} {a : Char} {x run lead : List Char} {pre post text : String}
    (htext : text.toList = x ++ (pre.toList ++ (run ++ post.toList)))
    (hpre : pre.toList = a :: lead) (ha : a ∉ x) (hr : Run c run)
    (hpost : post.toList.head?.any (fun y => !c.holds y) = true) :
    ∃ m, (framed c 1 pre post).search text = some m ∧ m.group 1 = String.ofList run := by
  let s : Cursor := .between x (pre.toList ++ (run ++ post.toList))
  have hrun : (group 1 (plus c)).Goes (s.past pre.toList (run ++ post.toList)) _ :=
    (goes_plus rfl hr.1 hr.2 (by simpa using not_holds_head hpost [])).group rfl 1
  have hend := goes_text (w := post)
    (s := (s.past pre.toList (run ++ post.toList)).noting 1 run post.toList) (r := [])
    (List.append_nil _).symm
  have hm := (goes_spelled (s := s) rfl (hrun.seq hend)).matchAt
  refine ⟨_, search_eq_some_of_first htext hm fun u v t huv ht => ?_, rfl⟩
  obtain ⟨w, -, -, hv, -⟩ := matches_framed ht
  have hhead : v = a :: (lead ++ w ++ post.toList ++ t.rest) := by
    change v = _ at hv
    rw [hv, hpre]
    simp only [List.cons_append]
  by_contra hlt
  rcases List.append_eq_append_iff.mp (htext.symm.trans huv) with ⟨z, rfl, -⟩ | ⟨z, rfl, hz⟩
  · exact hlt (by simp)
  · cases z with
    | nil => exact hlt (by simp)
    | cons b z =>
      obtain rfl : a = b := (List.cons.inj (hhead.symm.trans hz)).1
      exact ha (List.mem_append_right u List.mem_cons_self)

end Pattern

namespace Repair
open Pattern

def mark : List Char := "std::".toList

/-- A word stands in a text as a whole, between `pre` and `post`. -/
structure WholeIn (w cs pre post : List Char) : Prop where
  text : cs = pre ++ (w ++ post)
  before : ∀ c ∈ pre.getLast?, isWord c = false
  behind : ∀ c ∈ post.head?, isWord c = false

structure BareIn (w cs pre post : List Char) : Prop extends WholeIn w cs pre post where
  unmarked : ¬ mark <:+ pre

/-- Between `pre` and `post` two pieces of a text meet that a word joins. -/
def CutAt (w : List Char) (pieces : List (List Char)) (pre post : List Char) : Prop :=
  ∃ l r, l ≠ [] ∧ r ≠ [] ∧ pieces = l ++ r ∧ pre = w.intercalate l ∧ post = w.intercalate r

/-- The text `new` has the mark before each bare occurrence of a word in `cs`, and is `cs` apart
from that: cut at these occurrences, both have the same pieces. -/
def MarkedAtBare (w cs new : List Char) : Prop :=
  ∃ pieces, w.intercalate pieces = cs ∧ (mark ++ w).intercalate pieces = new ∧
    ∀ pre post, CutAt w pieces pre post ↔ BareIn w cs pre post

/-- A name that can be qualified: a word other than the namespace itself. -/
structure IsName (w : List Char) : Prop where
  ne_nil : w ≠ []
  word : ∀ c ∈ w, isWord c = true
  foreign : w ≠ "std".toList

section Words
variable {w cs pre post x y : List Char}

theorem getLast?_word (hw : ∀ c ∈ w, isWord c = true) (hne : w ≠ []) (pre : List Char) :
    ∃ c ∈ (pre ++ w).getLast?, isWord c = true := by
  refine ⟨w.getLast hne, ?_, hw _ (List.getLast_mem hne)⟩
  rw [List.getLast?_append_of_ne_nil _ hne, List.getLast?_eq_some_getLast hne]
  rfl

theorem WholeIn.apart (hw : IsName w) (h : WholeIn w cs pre post) (hx : WholeIn w cs x y) :
    (x = pre ∧ y = post) ∨ (∃ z, x = pre ++ (w ++ z) ∧ post = z ++ (w ++ y)) ∨
      ∃ z, pre = x ++ (w ++ z) ∧ y = z ++ (w ++ post) := by
  -- the part of one word before the other is no part of a word, so it is none or the whole word
  have hpart {pre post x y u : List Char} (hx : WholeIn w cs x y) (he : x = pre ++ u)
      (hu : w ++ post = u ++ (w ++ y)) : u = [] ∨ ∃ z, u = w ++ z ∧ post = z ++ (w ++ y) := by
    rcases List.append_eq_append_iff.mp hu with ⟨z, rfl, hz⟩ | ⟨v, hv, -⟩
    · exact .inr ⟨z, rfl, hz⟩
    · left
      by_contra hne
      have hword : ∀ c ∈ u, isWord c = true := fun c hc =>
        hw.word c (hv ▸ List.mem_append_left v hc)
      obtain ⟨c, hc, hcw⟩ := getLast?_word hword hne pre
      rw [hx.before c (he ▸ hc)] at hcw
      cases hcw
  rcases List.append_eq_append_iff.mp (h.text.symm.trans hx.text) with ⟨u, he, hu⟩ | ⟨u, he, hu⟩
  · rcases hpart hx he hu with rfl | ⟨z, rfl, hz⟩
    · rw [List.append_nil] at he
      exact .inl ⟨he, (List.append_cancel_left hu).symm⟩
    · exact .inr (.inl ⟨z, he, hz⟩)
  · rcases hpart h he hu with rfl | ⟨z, rfl, hz⟩
    · rw [List.append_nil] at he
      exact .inl ⟨he.symm, List.append_cancel_left hu⟩
    · exact .inr (.inr ⟨z, he, hz⟩)

/-- What is cut off the mark ends within the namespace or with a colon; it is a word that ends there
only if it is the namespace. -/
theorem mark_split {a b : List Char} (h : a ++ b = mark) : a = [] ∨
    ((∃ c ∈ a.getLast?, isWord c = true) ∨ ∀ c ∈ b.head?, isWord c = false) ∧
    (a = "std".toList ∨ (∃ c ∈ b.head?, isWord c = true) ∨ ∃ c ∈ a, isWord c = false) := by
  have hall : ∀ k ∈ List.range 6, mark.take k = [] ∨
      ((mark.take k).getLast?.any isWord = true ∨
        (mark.drop k).head?.all (fun c => !isWord c) = true) ∧
      (mark.take k = "std".toList ∨ (mark.drop k).head?.any isWord = true ∨
        (mark.take k).any (fun c => !isWord c) = true) :=
    forall_mem_of_all (by decide)
  have hlength : a.length ≤ 5 := by
    have hsum := congrArg List.length h
    rw [List.length_append, show mark.length = 5 from rfl] at hsum
    omega
  have hk := hall a.length (List.mem_range.mpr (by omega))
  rw [← h, List.take_left, List.drop_left] at hk
  simpa only [Option.any_eq_true, Option.all_eq_true, List.any_eq_true, Bool.not_eq_true',
    Option.mem_def] using hk

theorem IsName.head? (hw : IsName w) (z : List Char) : ∃ c ∈ (w ++ z).head?, isWord c = true := by
  obtain ⟨c, v, rfl⟩ := List.exists_cons_of_ne_nil hw.ne_nil
  exact ⟨c, rfl, hw.word c List.mem_cons_self⟩

theorem eq_nil_of_mark (hw : IsName w) (h : x ++ (w ++ y) = mark)
    (hx : ∀ c ∈ (pre ++ x).getLast?, isWord c = false) : x = [] := by
  rcases mark_split h with he | ⟨⟨c, hc, hcw⟩ | hb, -⟩
  · exact he
  · rw [hx c (by rw [List.getLast?_append, hc]; rfl)] at hcw
    cases hcw
  · obtain ⟨c, hc, hcw⟩ := hw.head? y
    rw [hb c hc] at hcw
    cases hcw

theorem mark_suffix (hw : IsName w) (hpre : ∀ c ∈ pre.getLast?, isWord c = false) {z : List Char}
    (h : mark <:+ pre ++ (w ++ z)) : mark <:+ w ++ z := by
  obtain ⟨a, ha⟩ := h
  rcases List.append_eq_append_iff.mp ha with ⟨b, rfl, hb⟩ | ⟨b, rfl, hb⟩
  · rw [eq_nil_of_mark hw hb.symm hpre, List.nil_append] at hb
    exact hb ▸ List.suffix_refl _
  · exact ⟨b, hb.symm⟩

theorem not_wholeIn_mark (hw : IsName w) (h : x ++ (w ++ y) = mark)
    (hx : ∀ c ∈ (pre ++ x).getLast?, isWord c = false) (hy : ∀ c ∈ y.head?, isWord c = false) :
    False := by
  rw [eq_nil_of_mark hw h hx, List.nil_append] at h
  rcases mark_split h with he | ⟨-, he | ⟨c, hc, hcw⟩ | ⟨c, hc, hcw⟩⟩
  · exact hw.ne_nil he
  · exact hw.foreign he
  · rw [hy c hc] at hcw
    cases hcw
  · rw [hw.word c hc] at hcw
    cases hcw

end Words

section Marking
variable {w : List Char}

/-- A walk over a text that puts the mark before each bare occurrence of a word it comes to; `pre`
is what it has passed. -/
inductive Marks (w : List Char) : List Char → List Char → List Char → Prop
  | done (pre : List Char) : Marks w pre [] []
  | keep {pre : List Char} {c : Char} {cs out : List Char}
      (h : ∀ post, ¬ BareIn w (pre ++ c :: cs) pre post) (rest : Marks w (pre ++ [c]) cs out) :
      Marks w pre (c :: cs) (c :: out)
  | put {pre cs out : List Char} (h : BareIn w (pre ++ (w ++ cs)) pre cs)
      (rest : Marks w (pre ++ w) cs out) : Marks w pre (w ++ cs) (mark ++ (w ++ out))

private theorem not_cutAt_nil {x post : List Char} : ¬ CutAt w [] x post := by
  rintro ⟨l, r, hl, -, he, -⟩
  exact hl (List.append_eq_nil_iff.mp he.symm).1

theorem cutAt_cons {p x post : List Char} {ps : List (List Char)} : CutAt w (p :: ps) x post ↔
    (ps ≠ [] ∧ x = p ∧ post = w.intercalate ps) ∨ ∃ z, x = p ++ (w ++ z) ∧ CutAt w ps z post := by
  constructor
  · rintro ⟨l, r, hl, hr, he, rfl, rfl⟩
    obtain ⟨q, l, rfl⟩ := List.exists_cons_of_ne_nil hl
    obtain ⟨rfl, rfl⟩ := List.cons.inj he
    by_cases hl : l = []
    · subst hl
      exact .inl ⟨hr, List.intercalate_singleton, rfl⟩
    · refine .inr ⟨w.intercalate l, ?_, l, r, hl, hr, rfl, rfl, rfl⟩
      rw [List.intercalate_cons_of_ne_nil hl, List.append_assoc]
  · rintro (⟨hps, rfl, rfl⟩ | ⟨z, rfl, l, r, hl, hr, rfl, rfl, rfl⟩)
    · exact ⟨[x], ps, List.cons_ne_nil _ _, hps, rfl, List.intercalate_singleton.symm, rfl⟩
    · refine ⟨p :: l, r, List.cons_ne_nil _ _, hr, rfl, ?_, rfl⟩
      rw [List.intercalate_cons_of_ne_nil hl, List.append_assoc]

private theorem cutAt_cons_append {a p x post : List Char} {ps : List (List Char)} :
    CutAt w ((a ++ p) :: ps) x post ↔ ∃ z, x = a ++ z ∧ CutAt w (p :: ps) z post := by
  constructor
  · intro h
    rcases cutAt_cons.mp h with ⟨hps, rfl, rfl⟩ | ⟨z, rfl, hz⟩
    · exact ⟨p, rfl, cutAt_cons.mpr (.inl ⟨hps, rfl, rfl⟩)⟩
    · exact ⟨_, List.append_assoc .., cutAt_cons.mpr (.inr ⟨z, rfl, hz⟩)⟩
  · rintro ⟨y, rfl, h⟩
    rcases cutAt_cons.mp h with ⟨hps, rfl, rfl⟩ | ⟨z, rfl, hz⟩
    · exact cutAt_cons.mpr (.inl ⟨hps, rfl, rfl⟩)
    · exact cutAt_cons.mpr (.inr ⟨z, (List.append_assoc ..).symm, hz⟩)

private theorem intercalate_cons_append (u p q : List Char) (ps : List (List Char)) :
    u.intercalate ((p ++ q) :: ps) = p ++ u.intercalate (q :: ps) := by
  cases ps with
  | nil => rw [List.intercalate_singleton, List.intercalate_singleton]
  | cons r ps => simp only [List.intercalate_cons_cons, List.append_assoc]

private theorem bareIn_append {pre a cs x post : List Char} :
    BareIn w (pre ++ (a ++ cs)) (pre ++ (a ++ x)) post ↔
      BareIn w ((pre ++ a) ++ cs) ((pre ++ a) ++ x) post := by
  simp only [List.append_assoc]

theorem Marks.pieces (hw : IsName w) {pre cs out : List Char} (h : Marks w pre cs out) :
    ∃ pieces, pieces ≠ [] ∧ w.intercalate pieces = cs ∧ (mark ++ w).intercalate pieces = out ∧
      ∀ x post, CutAt w pieces x post ↔ BareIn w (pre ++ cs) (pre ++ x) post := by
  induction h with
  | done pre =>
    refine ⟨[[]], List.cons_ne_nil _ _, rfl, rfl, fun x post => iff_of_false ?_ fun hbare => ?_⟩
    · rintro hcut
      rcases cutAt_cons.mp hcut with ⟨hne, -⟩ | ⟨z, -, hcut⟩
      · exact hne rfl
      · exact not_cutAt_nil hcut
    · have htext := congrArg List.length hbare.text
      have hpos := List.length_pos_iff.mpr hw.ne_nil
      simp only [List.length_append, List.length_nil] at htext
      omega
  | @keep pre c cs out h rest ih =>
    obtain ⟨pieces, hne, rfl, rfl, hcut⟩ := ih
    obtain ⟨p, ps, rfl⟩ := List.exists_cons_of_ne_nil hne
    refine ⟨([c] ++ p) :: ps, List.cons_ne_nil _ _, intercalate_cons_append w [c] p ps,
      intercalate_cons_append _ [c] p ps, fun x post => ?_⟩
    rw [cutAt_cons_append]
    constructor
    · rintro ⟨z, rfl, hz⟩
      exact bareIn_append.mpr ((hcut z post).mp hz)
    · intro hx
      cases x with
      | nil =>
        rw [List.append_nil] at hx
        exact absurd hx (h post)
      | cons d x =>
        have htext := hx.text
        rw [List.append_assoc] at htext
        obtain ⟨rfl, -⟩ := List.cons.inj (List.append_cancel_left htext)
        exact ⟨x, rfl, (hcut x post).mpr (bareIn_append.mp hx)⟩
  | @put pre cs out h rest ih =>
    obtain ⟨pieces, hne, rfl, rfl, hcut⟩ := ih
    refine ⟨[] :: pieces, List.cons_ne_nil _ _, ?_, ?_, fun x post => ⟨fun hx => ?_, fun hx => ?_⟩⟩
    · rw [List.intercalate_cons_of_ne_nil hne, List.nil_append]
    · rw [List.intercalate_cons_of_ne_nil hne, List.nil_append, List.append_assoc]
    · rcases cutAt_cons.mp hx with ⟨-, rfl, rfl⟩ | ⟨z, rfl, hz⟩
      · rwa [List.append_nil]
      · exact bareIn_append.mpr ((hcut z post).mp hz)
    · rcases h.toWholeIn.apart hw hx.toWholeIn with ⟨he, rfl⟩ | ⟨z, he, -⟩ | ⟨z, he, -⟩
      · obtain rfl : x = [] := List.append_right_eq_self.mp he
        exact cutAt_cons.mpr (.inl ⟨hne, rfl, rfl⟩)
      · obtain rfl := List.append_cancel_left he
        exact cutAt_cons.mpr (.inr ⟨z, rfl, (hcut z post).mpr (bareIn_append.mp hx)⟩)
      · have hlength := congrArg List.length he
        have hpos := List.length_pos_iff.mpr hw.ne_nil
        simp only [List.length_append] at hlength
        omega

section Inside
variable {pre cs out : List Char} (hpre : ∃ c ∈ pre.getLast?, isWord c = true)
include hpre

theorem not_bareIn_inside {t post : List Char} : ¬ BareIn w t pre post := by
  intro h
  obtain ⟨c, hc, hcw⟩ := hpre
  rw [h.before c hc] at hcw
  cases hcw

theorem Marks.word {u y : List Char} (h : Marks w pre cs out) (hu : ∀ c ∈ u, isWord c = true)
    (hout : out = u ++ y) (hy : ∀ c ∈ y.head?, isWord c = false) :
    ∃ post, cs = u ++ post ∧ ∀ c ∈ post.head?, isWord c = false := by
  induction u generalizing pre cs out with
  | nil =>
    subst hout
    cases h with
    | done => exact ⟨[], rfl, hy⟩
    | keep _ rest => exact ⟨_, rfl, hy⟩
    | put hbare _ => exact absurd hbare (not_bareIn_inside hpre)
  | cons d u ih =>
    cases h with
    | done => cases hout
    | put hbare _ => exact absurd hbare (not_bareIn_inside hpre)
    | keep _ rest =>
      obtain ⟨rfl, rfl⟩ := List.cons.inj hout
      obtain ⟨hd, hu⟩ := List.forall_mem_cons.mp hu
      obtain ⟨post, rfl, hpost⟩ := ih ⟨_, List.getLast?_concat, hd⟩ rest hu rfl
      exact ⟨post, rfl, hpost⟩

private theorem Marks.head? (h : Marks w pre cs out) : out.head? = cs.head? := by
  cases h with
  | done => rfl
  | keep => rfl
  | put hbare _ => exact absurd hbare (not_bareIn_inside hpre)

end Inside

/-- What was passed and what was written for it end alike. -/
structure Alike (pre made : List Char) : Prop where
  last : made.getLast? = pre.getLast?
  marked : ∀ z, mark <:+ pre ++ z → mark <:+ made ++ z

private theorem Alike.keep {pre made : List Char} (h : Alike pre made) (c : Char) :
    Alike (pre ++ [c]) (made ++ [c]) where
  last := by rw [List.getLast?_concat, List.getLast?_concat]
  marked z hz := by
    rw [List.append_assoc] at hz ⊢
    exact h.marked _ hz

private theorem Alike.put (hw : IsName w) {pre cs post : List Char} (h : WholeIn w cs pre post)
    (made : List Char) : Alike (pre ++ w) (made ++ (mark ++ w)) where
  last := by
    rw [← List.append_assoc, List.getLast?_append_of_ne_nil _ hw.ne_nil,
      List.getLast?_append_of_ne_nil _ hw.ne_nil]
  marked z hz := by
    rw [List.append_assoc] at hz
    rw [← List.append_assoc, List.append_assoc]
    exact (mark_suffix hw h.before hz).trans (List.suffix_append _ _)

theorem Marks.marked (hw : IsName w) {pre cs out made x y : List Char} (h : Marks w pre cs out)
    (ha : Alike pre made) (hx : WholeIn w (made ++ out) (made ++ x) y) : mark <:+ made ++ x := by
  induction h generalizing made x with
  | done pre =>
    have hlength := congrArg List.length hx.text
    have hpos := List.length_pos_iff.mpr hw.ne_nil
    simp only [List.length_append, List.length_nil] at hlength
    omega
  | @keep pre c cs out h rest ih =>
    have htext := hx.text
    rw [List.append_assoc] at htext
    have hout := List.append_cancel_left htext
    cases x with
    | cons d x =>
      obtain ⟨rfl, -⟩ := List.cons.inj hout
      have hlater := ih (ha.keep c) (x := x)
      rw [List.append_assoc, List.append_assoc] at hlater
      exact hlater hx
    | nil =>
      -- the word stands in the text too, and the walk has found it marked
      obtain ⟨d, v, rfl⟩ := List.exists_cons_of_ne_nil hw.ne_nil
      obtain ⟨rfl, hv⟩ := List.cons.inj hout
      obtain ⟨hc, hword⟩ := List.forall_mem_cons.mp hw.word
      obtain ⟨post, rfl, hpost⟩ := rest.word ⟨_, List.getLast?_concat, hc⟩ hword hv hx.behind
      by_contra hmark
      refine h post ⟨⟨rfl, ?_, hpost⟩, fun hpre => hmark (ha.marked [] ?_)⟩
      · rw [← ha.last]
        simpa using hx.before
      · rwa [List.append_nil]
  | @put pre cs out h rest ih =>
    have hlast := getLast?_word hw.word hw.ne_nil pre
    have hput : WholeIn w (made ++ (mark ++ (w ++ out))) (made ++ mark) out := by
      refine ⟨(List.append_assoc ..).symm, fun c hc => ?_, ?_⟩
      · rw [List.getLast?_append_of_ne_nil _ (by decide)] at hc
        obtain rfl : ':' = c := Option.some.inj hc
        decide
      · rw [rest.head? hlast]
        exact h.behind
    rcases hput.apart hw hx with ⟨he, -⟩ | ⟨z, he, -⟩ | ⟨z, he, hy⟩
    · rw [he]
      exact List.suffix_append _ _
    · have hmade : made ++ x = made ++ (mark ++ w) ++ z := by
        rw [he]
        simp only [List.append_assoc]
      rw [hmade] at hx ⊢
      exact ih (Alike.put hw h.toWholeIn made) (by simpa only [List.append_assoc] using hx)
    · rw [List.append_assoc] at he
      refine (not_wholeIn_mark hw (List.append_cancel_left he).symm hx.before fun c hc => ?_).elim
      apply hx.behind
      rw [hy, List.head?_append, hc]
      rfl

end Marking

section Match
variable {name : String} (hw : IsName name.toList) {pre cs : List Char} {s t : Cursor}

theorem wordAt_eq_false (cs : List Char) :
    wordAt cs = false ↔ ∀ c ∈ cs.head?, isWord c = false := by
  cases cs with
  | nil => simp [wordAt]
  | cons c cs => simp [wordAt]

private theorem wordAt_of_head? {cs : List Char} (h : ∃ c ∈ cs.head?, isWord c = true) :
    wordAt cs = true := by
  rw [← Bool.not_eq_false, wordAt_eq_false]
  obtain ⟨c, hc, hcw⟩ := h
  intro hall
  rw [hall c hc] at hcw
  cases hcw

include hw in
private theorem edges_iff (hs : s.before = pre.reverse) (ht : s.Reads name.toList t) :
    (Anchor.wordEdge.holds s = true ↔ ∀ c ∈ pre.getLast?, isWord c = false) ∧
    (Anchor.wordEdge.holds t = true ↔ ∀ c ∈ t.rest.head?, isWord c = false) := by
  have hrest : wordAt s.rest = true := by
    rw [ht.rest]
    exact wordAt_of_head? (hw.head? t.rest)
  have hbefore : wordAt t.before = true := by
    apply wordAt_of_head?
    rw [ht.before, hs, ← List.reverse_append, List.head?_reverse]
    exact getLast?_word hw.word hw.ne_nil pre
  rw [Anchor.holds, Anchor.holds, hrest, hbefore, hs, ← List.head?_reverse, ← wordAt_eq_false,
    ← wordAt_eq_false]
  simp

include hw in
theorem matches_bareName (hs : s.before = pre.reverse) : (bareName name).Matches s t ↔
    s.Reads name.toList t ∧ BareIn name.toList (pre ++ s.rest) pre t.rest := by
  have hmark : mark.reverse.isPrefixOf s.before = false ↔ ¬ mark <:+ pre := by
    rw [hs, ← Bool.not_eq_true, List.isPrefixOf_iff_prefix, List.reverse_prefix]
  constructor
  · rintro ⟨u, ⟨hstart, rfl⟩, v, ⟨hbehind, rfl⟩, z, hread, hend, rfl⟩
    have ht := matches_text.mp hread
    obtain ⟨hbefore, hafter⟩ := edges_iff hw hs ht
    exact ⟨ht, ⟨congrArg (pre ++ ·) ht.rest, hbefore.mp hstart, hafter.mp hend⟩, hmark.mp hbehind⟩
  · rintro ⟨ht, hbare⟩
    obtain ⟨hbefore, hafter⟩ := edges_iff hw hs ht
    exact ⟨s, ⟨hbefore.mpr hbare.before, rfl⟩, s, ⟨hmark.mpr hbare.unmarked, rfl⟩, t,
      matches_text.mpr ht, hafter.mpr hbare.behind, rfl⟩

include hw in
theorem bareName_moves : (bareName name).Moves := by
  intro s t h
  obtain ⟨ht, -⟩ := (matches_bareName hw (List.reverse_reverse _).symm).mp h
  rw [ht.pos]
  exact Nat.lt_add_of_pos_right (List.length_pos_iff.mpr hw.ne_nil)

include hw in
theorem matchAt_bareName_eq_none {pos : Nat} :
    (bareName name).matchAt false ⟨pre.reverse, cs, pos, []⟩ = none ↔
      ∀ post, ¬ BareIn name.toList (pre ++ cs) pre post := by
  rw [matchAt_eq_none]
  constructor
  · intro h post hbare
    have hcs := List.append_cancel_left hbare.text
    obtain ⟨t, ht, hrest⟩ := Cursor.exists_reads (s := ⟨pre.reverse, cs, pos, []⟩) hcs
    exact h t ((matches_bareName hw rfl).mpr ⟨ht, hrest ▸ hbare⟩)
  · intro h t ht
    exact h t.rest ((matches_bareName hw rfl).mp ht).2

include hw in
private theorem marks_replaced (pre cs : List Char) : Marks name.toList pre cs
    ((bareName name).replaced (fun _ => "std::" ++ name) 0 pre.reverse pre.length cs) := by
  induction hl : cs.length using Nat.strongRecOn generalizing pre cs with
  | ind n ih =>
    subst hl
    cases cs with
    | nil =>
      rw [replaced_nil (bareName_moves hw)]
      exact .done pre
    | cons c cs =>
      cases hm : (bareName name).matchAt false ⟨pre.reverse, c :: cs, pre.length, []⟩ with
      | none =>
        rw [replaced_of_none hm]
        refine .keep ((matchAt_bareName_eq_none hw).mp hm) ?_
        have hlater := ih cs.length (Nat.lt_succ_self _) (pre ++ [c]) cs rfl
        rwa [List.reverse_append, List.length_append] at hlater
      | some m =>
        obtain ⟨t, ht, hcs, he⟩ :=
          replaced_of_matches (bareName_moves hw) (f := fun _ => "std::" ++ name) hm
        obtain ⟨hread, hbare⟩ := (matches_bareName hw rfl).mp ht
        have hrest : c :: cs = name.toList ++ t.rest := hread.rest
        have htext : m.text.toList = name.toList :=
          List.append_cancel_right (hcs.symm.trans hrest)
        have hlater := ih t.rest.length ?_ (pre ++ name.toList) t.rest rfl
        · rw [he, htext, String.toList_append, List.append_assoc, hrest]
          rw [List.reverse_append, List.length_append] at hlater
          exact .put (hrest ▸ hbare) hlater
        · have hpos := List.length_pos_iff.mpr hw.ne_nil
          rw [hrest, List.length_append]
          omega

include hw in
private theorem marks_qualify (line : String) :
    Marks name.toList [] line.toList (qualify name line).toList := by
  rw [qualify, replaceAll, replaceBy_eq, String.toList_ofList]
  exact marks_replaced hw [] line.toList

include hw in
theorem qualify_spec (line : String) :
    (∀ pre post, WholeIn name.toList (qualify name line).toList pre post → mark <:+ pre) ∧
      MarkedAtBare name.toList line.toList (qualify name line).toList := by
  have hmarks := marks_qualify hw line
  -- Only the walk counts from here on, not how its result was made.
  generalize (qualify name line).toList = new at hmarks ⊢
  have hstart : Alike [] [] := ⟨rfl, fun z hz => hz⟩
  obtain ⟨pieces, -, hjoin, hnew, hcut⟩ := hmarks.pieces hw
  exact ⟨fun pre post hwhole => hmarks.marked hw hstart hwhole, pieces, hjoin, hnew, hcut⟩

include hw in
theorem qualify_eq_self {line : String}
    (h : ∀ pre post, WholeIn name.toList line.toList pre post → mark <:+ pre) :
    qualify name line = line := by
  rw [qualify, replaceAll, replaceBy_eq, replaced_eq_self (bareName_moves hw) fun pre post he => ?_,
    String.ofList_toList]
  rw [List.append_nil, matchAt_bareName_eq_none hw]
  intro rest hbare
  exact hbare.unmarked (h pre rest (he ▸ hbare.toWholeIn))

end Match

section Message
variable {code line name : String} {n : Nat}

def noTypeMessage (n : Nat) (name : String) : String :=
  s!"f:{n}:1: error: '{name}' does not name a type"

theorem noTypeMessage_toList (n : Nat) (name : String) : (noTypeMessage n name).toList =
    ['f'] ++ (':' :: [] ++ (Nat.toDigits 10 n ++ ':' :: ("1: error: ".toList ++
      ("'".toList ++ (name.toList ++ "' does not name a type".toList))))) := by
  have hdigits : (toString n).toList = Nat.toDigits 10 n := String.toList_ofList
  change ("f:" ++ toString n ++ ":1: error: '" ++ name ++ "' does not name a type").toList = _
  simp only [String.toList_append, hdigits, List.append_assoc]
  rfl

private theorem lineNumber_noTypeMessage (hn : Diagnostic.Legible n) :
    Diagnostic.lineNumber (noTypeMessage n name) = .ok (some (n : Int)) := by
  have hfirst := firstEnclosed_of_not_mem (c := .digit) (noTypeMessage_toList n name) (by decide)
    ⟨Nat.toDigits_ne_nil, isDecimal_toDigits n⟩
  rw [lineNumber_of_enclosed hfirst, Diagnostic.readNumber_toDigits.mpr ⟨hn, rfl⟩]
  rfl

private theorem search_noTypeMessage (hw : IsName name.toList) (n : Nat) :
    ∃ m, noType.search (noTypeMessage n name) = some m ∧ m.group 1 = name := by
  have hform : noType = framed .word 1 "'" "' does not name a type" := by decide +kernel
  have htext : (noTypeMessage n name).toList =
      (['f'] ++ ':' :: Nat.toDigits 10 n ++ ":1: error: ".toList) ++
        ("'".toList ++ (name.toList ++ "' does not name a type".toList)) := by
    rw [noTypeMessage_toList]
    simp only [List.append_assoc, List.cons_append, List.nil_append]
    rfl
  have hquote : '\'' ∉ ['f'] ++ ':' :: Nat.toDigits 10 n ++ ":1: error: ".toList := by
    simp only [List.mem_append, List.mem_cons]
    rintro ((h | h | h) | h)
    · exact absurd h (by decide)
    · exact absurd h (by decide)
    · exact absurd (isDecimal_toDigits n _ h) (by decide)
    · exact absurd h (by decide)
  obtain ⟨m, hm, hgroup⟩ :=
    search_framed (c := .word) htext rfl hquote ⟨hw.ne_nil, hw.word⟩ (by decide)
  rw [String.ofList_toList] at hgroup
  exact ⟨m, hform ▸ hm, hgroup⟩

theorem isName_of_mem (h : name ∈ standardTypes) : IsName name.toList := by
  have hall : ∀ name ∈ standardTypes, name.toList ≠ [] ∧ name.toList.all isWord = true ∧
      name.toList ≠ "std".toList := forall_mem_of_all (by decide)
  obtain ⟨hne, hword, hforeign⟩ := hall name h
  exact ⟨hne, List.all_eq_true.mp hword, hforeign⟩

private theorem unbroken_qualify (hw : IsName name.toList) (hl : Unbroken line) :
    Unbroken (qualify name line) := by
  refine unbroken_replaceAll hl (Unbroken.append (by decide) fun hfeed => ?_)
  exact absurd (hw.word _ hfeed) (by decide)

private theorem unknownType_eq (hname : name ∈ standardTypes) (hn : Diagnostic.Legible n)
    (code : String) : unknownType code (noTypeMessage n name) = .ok (changeLine code (some n)
      (fun _ => [repairNote s!"添加 std:: 前缀: {name} -> std::{name}"])
      fun line => changed line (qualify name line)) := by
  obtain ⟨m, hm, hgroup⟩ := search_noTypeMessage (isName_of_mem hname) n
  have hlisted : standardTypes.contains name = true := List.contains_iff_mem.mpr hname
  simp only [unknownType, lineNumber_noTypeMessage hn, hm, hgroup, hlisted, if_true, bind,
    Except.bind, pure, Except.pure]

private theorem lines_changeLine_changed {note : Int → List String} {f : String → String}
    (hn : 1 ≤ n) (hline : (lines code)[n - 1]? = some line) (hf : Unbroken (f line)) :
    lines (changeLine code (some n) note fun l => changed l (f l)).code =
      (lines code).set (n - 1) (f line) := by
  have hat : lineAt? (lines code) (some (n : Int)) = some (n - 1, line) :=
    lineAt_eq_some.mpr ⟨congrArg some (by omega), hline⟩
  by_cases hsame : f line = line
  · obtain ⟨hi, hget⟩ := List.getElem?_eq_some_iff.mp hline
    rw [changeLine_of_none]
    · rw [hsame, ← hget, List.set_getElem_self]
      rfl
    · intro i l hl
      obtain ⟨rfl, rfl⟩ := Prod.mk.inj (Option.some.inj (hat.symm.trans hl))
      exact if_pos hsame
  · rw [changeLine_of_some hat (if_neg hsame)]
    exact lines_set code (n - 1) hf

/-- On the line of the message each occurrence of a standard type as a whole word has its mark. The
marks come in at the occurrences that had none, and nowhere else; nothing else changes, and neither
does anything a second time. A line number has at most 4300 digits in every text of less than
`10 ^ 4300` lines, and more cannot be read. -/
theorem standard_type_qualified (hname : name ∈ standardTypes) (hn : 1 ≤ n)
    (hline : (lines code)[n - 1]? = some line) (hlegible : Diagnostic.Legible n) :
    ∃ e new, unknownType code (noTypeMessage n name) = .ok e ∧
      lines e.code = (lines code).set (n - 1) new ∧
      (∀ pre post, WholeIn name.toList new.toList pre post → mark <:+ pre) ∧
      MarkedAtBare name.toList line.toList new.toList ∧
      ∃ e', unknownType e.code (noTypeMessage n name) = .ok e' ∧ e'.code = e.code := by
  have hw := isName_of_mem hname
  obtain ⟨hmarked, hbare⟩ := qualify_spec hw line
  have htame : Tame fun l => changed l (qualify name l) :=
    .changed fun l hl => unbroken_qualify hw hl
  have hsettles : Settles fun l => changed l (qualify name l) := by
    intro l made hmade
    obtain ⟨rfl, -⟩ := changed_eq_some_iff.mp hmade
    exact if_pos (qualify_eq_self hw (qualify_spec hw l).1)
  have hunbroken := unbroken_qualify hw (Unbroken.of_mem_lines (List.mem_of_getElem? hline))
  exact ⟨_, qualify name line, unknownType_eq hname hlegible code,
    lines_changeLine_changed hn hline hunbroken, hmarked, hbare, _,
    unknownType_eq hname hlegible _, changeLine_again htame hsettles⟩

/-- Of three maps on a line the first gets its mark: the second has it, and the third is part of
another word. -/
theorem nested_map_qualified :
    unknownType "int n;\nmap<int, std::map<int, unordered_map>> m;" (noTypeMessage 2 "map") =
      .ok ⟨"int n;\nstd::map<int, std::map<int, unordered_map>> m;",
        ["  [LOCAL FIX] 添加 std:: 前缀: map -> std::map"]⟩ ∧
    MarkedAtBare "map".toList "map<int, std::map<int, unordered_map>> m;".toList
      "std::map<int, std::map<int, unordered_map>> m;".toList ∧
    ∃ e, unknownType "int n;\nstd::map<int, std::map<int, unordered_map>> m;"
      (noTypeMessage 2 "map") = .ok e ∧
      e.code = "int n;\nstd::map<int, std::map<int, unordered_map>> m;" := by
  have hmade : unknownType "int n;\nmap<int, std::map<int, unordered_map>> m;"
      (noTypeMessage 2 "map") = .ok ⟨"int n;\nstd::map<int, std::map<int, unordered_map>> m;",
        ["  [LOCAL FIX] 添加 std:: 前缀: map -> std::map"]⟩ := by
    decide +kernel
  have hname : "map" ∈ standardTypes := by decide
  have hline : (lines "int n;\nmap<int, std::map<int, unordered_map>> m;")[2 - 1]? =
    some "map<int, std::map<int, unordered_map>> m;" := by decide
  obtain ⟨e, new, he, hlines, -, hbare, hagain⟩ :=
    standard_type_qualified hname (by decide) hline (by decide)
  obtain rfl := Except.ok.inj (hmade.symm.trans he)
  have hnew : new = "std::map<int, std::map<int, unordered_map>> m;" := by
    have hsecond := congrArg (·[1]?) hlines
    exact (Option.some.inj hsecond).symm
  exact ⟨hmade, hnew ▸ hbare, hagain⟩

end Message

end Repair

end Mender
