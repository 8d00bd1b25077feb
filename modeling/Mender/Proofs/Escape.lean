import Mender.Proofs.Text

/-! Taking the escapes of a text back. One pass puts a character in the place of every occurrence of
a pair, wherever it stands, so it undoes the writing of a character just if no pair comes about
otherwise. What a pass does to the length and to the other characters is counted. A text that is
read up to a quotation mark ends at the first one, escaped or not. -/
namespace Mender.Text

section Merge
variable {a b y c : Char} {x z : List Char}

/-- The second text has one character in the place of some pairs of the first. -/
inductive Merges (a b y : Char) : List Char → List Char → Prop where
  | nil : Merges a b y [] []
  | keep (c : Char) {x z : List Char} (h : Merges a b y x z) : Merges a b y (c :: x) (c :: z)
  | merge {x z : List Char} (h : Merges a b y x z) : Merges a b y (a :: b :: x) (y :: z)

theorem merges_replaceChars (a b y : Char) (x : List Char) :
    Merges a b y x (replaceChars [a, b] [y] 0 x) := by
  induction hn : x.length using Nat.strongRecOn generalizing x with
  | ind n ih =>
    subst hn
    by_cases hp : [a, b] <+: x
    · obtain ⟨r, rfl⟩ := hp
      rw [replaceChars_matched (List.cons_ne_nil a [b])]
      exact .merge (ih _ (by simp only [List.length_append, List.length_cons]; omega) r rfl)
    · cases x with
      | nil => exact .nil
      | cons c x =>
        rw [replaceChars_of_not hp]
        exact .keep c (ih _ (by simp) x rfl)

theorem Merges.length_eq (h : Merges a b y x z) (ha : a ≠ y) (hb : b ≠ y) :
    z.length + z.count y = x.length + x.count y := by
  induction h with
  | nil => rfl
  | keep c h ih =>
    simp only [List.length_cons, List.count_cons]
    omega
  | merge h ih =>
    simp only [List.length_cons, List.count_cons, beq_iff_eq, ha, hb, if_false, if_true]
    omega

theorem Merges.count_eq (h : Merges a b y x z) (ha : a ≠ c) (hb : b ≠ c) (hy : y ≠ c) :
    z.count c = x.count c := by
  induction h with
  | nil => rfl
  | keep d h ih => rw [List.count_cons, List.count_cons, ih]
  | merge h ih =>
    rw [List.count_cons_of_ne hy, List.count_cons_of_ne ha, List.count_cons_of_ne hb, ih]

end Merge

section Spelled
variable {a b y : Char} {f : Char → List Char}

/-- Where the pair is only how `y` is written, merging it takes the writing of `y` back. -/
theorem replaceChars_flatMap {cs : List Char} (hy : f y = [a, b])
    (h : ∀ c ∈ cs, c ≠ y → ∀ r, replaceChars [a, b] [y] 0 (f c ++ r) =
      f c ++ replaceChars [a, b] [y] 0 r) :
    replaceChars [a, b] [y] 0 (cs.flatMap f) = cs.flatMap fun c => if c = y then [y] else f c := by
  induction cs with
  | nil => rfl
  | cons c cs ih =>
    obtain ⟨hc, hcs⟩ := List.forall_mem_cons.mp h
    rw [List.flatMap_cons, List.flatMap_cons, ← ih hcs]
    by_cases he : c = y
    · rw [if_pos he, he, hy, replaceChars_matched (List.cons_ne_nil a [b])]
    · rw [if_neg he, hc he]

theorem replaceChars_cons_of_ne {c : Char} (h : c ≠ a) (r : List Char) :
    replaceChars [a, b] [y] 0 ([c] ++ r) = [c] ++ replaceChars [a, b] [y] 0 r := by
  refine replaceChars_of_not fun hp => h ?_
  exact (List.cons_prefix_cons.mp hp).1.symm

theorem replaceChars_pair_of_ne {d : Char} (ha : d ≠ a) (hb : d ≠ b) (r : List Char) :
    replaceChars [a, b] [y] 0 ([a, d] ++ r) = [a, d] ++ replaceChars [a, b] [y] 0 r := by
  have hfirst : ¬ [a, b] <+: a :: ([d] ++ r) := by
    intro hp
    have hp := (List.cons_prefix_cons.mp hp).2
    exact hb (List.cons_prefix_cons.mp hp).1.symm
  have hrest := replaceChars_cons_of_ne (b := b) (y := y) ha r
  rw [List.cons_append, replaceChars_of_not hfirst, hrest]
  rfl

end Spelled

section Quote
variable {cs : List Char}

def beforeQuote (cs : List Char) : List Char := cs.takeWhile (· ≠ '"')

theorem quote_not_mem_beforeQuote : '"' ∉ beforeQuote cs := by
  intro h
  simpa using List.all_eq_true.mp List.all_takeWhile '"' h

theorem beforeQuote_eq_self (h : '"' ∉ cs) : beforeQuote cs = cs := by
  have hall : ∀ c ∈ cs, decide (c ≠ '"') = true := by
    intro c hc
    rw [decide_eq_true_eq]
    rintro rfl
    exact h hc
  conv_lhs => rw [beforeQuote, ← List.append_nil cs, List.takeWhile_append_of_pos hall]
  rw [List.takeWhile_nil, List.append_nil]

theorem exists_beforeQuote (cs : List Char) :
    ∃ post, cs ++ ['"'] = beforeQuote cs ++ (['"'] ++ post) ∧ ('"' ∉ cs → post = []) := by
  by_cases h : '"' ∈ cs
  · have hcut : cs.dropWhile (· ≠ '"') ≠ [] := by
      intro hnil
      have hall := List.takeWhile_append_dropWhile (p := (· ≠ '"')) (l := cs)
      rw [hnil, List.append_nil] at hall
      exact quote_not_mem_beforeQuote (hall.symm ▸ h)
    obtain ⟨c, rest, hrest⟩ := List.exists_cons_of_ne_nil hcut
    have hc : c = '"' := by
      have hhead := List.head?_dropWhile_not (· ≠ '"') cs
      rw [hrest] at hhead
      simpa using hhead
    refine ⟨rest ++ ['"'], ?_, fun hn => absurd h hn⟩
    conv_lhs => rw [← List.takeWhile_append_dropWhile (p := (· ≠ '"')) (l := cs), hrest, hc]
    simp [beforeQuote]
  · exact ⟨[], by rw [beforeQuote_eq_self h, List.append_nil], fun _ => rfl⟩

end Quote

end Mender.Text
