import Mender.Proofs.PatternRun
import Mender.Proofs.Replacement
import Mender.Proofs.Trim

/-! Texts without their comments. A text is weighed by the characters of its code: those that stand
in no comment, are not blank and are no slashes. Trimming the text, taking away the comment at its
end and moving it to the right leave its weight as it is, and the weight of a text is that of its
lines. -/
namespace Mender.Replacement
open Text Pattern

inductive Place where
  | code
  | slash
  | comment
  deriving DecidableEq

def Place.next (p : Place) (c : Char) : Place :=
  if c = '\n' then .code
  else if p = .comment then .comment
  else if c = '/' then if p = .slash then .comment else .slash
  else .code

/-- A character that counts: it is not blank, and no comment can begin with it. -/
def isSolid (c : Char) : Bool := !isBlank c && c != '/'

def weightFrom : Place → List Char → Nat
  | _, [] => 0
  | p, c :: cs => (if p ≠ .comment ∧ isSolid c then 1 else 0) + weightFrom (p.next c) cs

def weight (s : String) : Nat := weightFrom .code s.toList

section Weight
variable {p : Place} {cs : List Char}

theorem weightFrom_append (p : Place) (x y : List Char) :
    weightFrom p (x ++ y) = weightFrom p x + weightFrom (x.foldl Place.next p) y := by
  induction x generalizing p with
  | nil => exact (Nat.zero_add _).symm
  | cons c x ih =>
    rw [List.cons_append, weightFrom, weightFrom, ih, List.foldl_cons, Nat.add_assoc]

theorem weightFrom_le_countP (p : Place) (cs : List Char) :
    weightFrom p cs ≤ cs.countP isSolid := by
  induction cs generalizing p with
  | nil => exact Nat.le_refl 0
  | cons c cs ih =>
    rw [weightFrom, List.countP_cons, Nat.add_comm]
    apply Nat.add_le_add (ih _)
    grind

theorem weightFrom_blanks (p : Place) (h : ∀ b ∈ cs, isBlank b = true) : weightFrom p cs = 0 := by
  have hnone : cs.countP isSolid = 0 := by
    rw [List.countP_eq_zero]
    intro b hb
    simp [isSolid, h b hb]
  exact Nat.le_zero.mp (hnone ▸ weightFrom_le_countP p cs)

theorem Place.next_of_ne {c : Char} (hp : p ≠ .comment) (hc : c ≠ '/') : p.next c = .code := by
  unfold Place.next
  rw [if_neg hp, if_neg hc, ite_self]

theorem foldl_next_of_no_slash (h : '/' ∉ cs) : cs.foldl Place.next .code = .code := by
  induction cs with
  | nil => rfl
  | cons c cs ih =>
    obtain ⟨hc, hcs⟩ := not_or.mp (mt List.mem_cons.mpr h)
    rw [List.foldl_cons, Place.next_of_ne (by decide) (Ne.symm hc), ih hcs]

private theorem weightFrom_comment (h : '\n' ∉ cs) : weightFrom .comment cs = 0 := by
  induction cs with
  | nil => rfl
  | cons c cs ih =>
    obtain ⟨hc, hcs⟩ := not_or.mp (mt List.mem_cons.mpr h)
    have hnext : Place.comment.next c = .comment := by
      simp [Place.next, Ne.symm hc]
    rw [weightFrom, hnext, ih hcs]
    simp

theorem weightFrom_of_comment (p : Place) {bs w e : List Char} (hb : ∀ b ∈ bs, isBlank b = true)
    (hw : '\n' ∉ w) (he : ∀ b ∈ e, isBlank b = true) :
    weightFrom p (bs ++ '/' :: '/' :: w ++ e) = 0 := by
  have hslashes (p : Place) : weightFrom p ('/' :: '/' :: w) = 0 := by
    have hnext : (p.next '/').next '/' = .comment := by
      cases p <;> decide
    rw [weightFrom, weightFrom, hnext, weightFrom_comment hw]
    simp [isSolid]
  rw [weightFrom_append, weightFrom_append, weightFrom_blanks p hb, hslashes, weightFrom_blanks _ he]

theorem weight_of_no_comment {s : String} (h : ¬ ['/', '/'] <:+: s.toList) :
    weight s = s.toList.countP isSolid := by
  have hfrom (cs : List Char) :
      (¬ ['/', '/'] <:+: cs → weightFrom .code cs = cs.countP isSolid) ∧
      (¬ ['/', '/'] <:+: '/' :: cs → weightFrom .slash cs = cs.countP isSolid) := by
    induction cs with
    | nil => exact ⟨fun _ => rfl, fun _ => rfl⟩
    | cons c cs ih =>
      have hrest {p : Place} (hp : p ≠ .comment) (hc : c ≠ '/') (h : ¬ ['/', '/'] <:+: cs) :
          weightFrom p (c :: cs) = (c :: cs).countP isSolid := by
        rw [weightFrom, Place.next_of_ne hp hc, ih.1 h, List.countP_cons, Nat.add_comm]
        simp [hp]
      constructor
      · intro h
        by_cases hc : c = '/'
        · subst hc
          have hsolid : ¬ isSolid '/' = true := by decide
          rw [weightFrom, List.countP_cons_of_neg hsolid, if_neg fun hs => hsolid hs.2, Nat.zero_add]
          exact ih.2 h
        · exact hrest (by decide) hc fun hin => h (hin.trans (List.suffix_cons c cs).isInfix)
      · intro h
        have hc : c ≠ '/' := by
          rintro rfl
          exact h ⟨[], cs, rfl⟩
        refine hrest (by decide) hc fun hin => h (hin.trans ?_)
        exact ((List.suffix_cons c cs).trans (List.suffix_cons '/' _)).isInfix
  exact (hfrom s.toList).1 h

end Weight

section Pattern

private theorem comment_eq : comment = .seq (.many true (.char .blank)) (.seq (.char (.literal '/'))
    (.seq (.char (.literal '/')) (.seq (.many true (.char (.except (.literal '\n'))))
      (.anchor .textEnd)))) := by decide

theorem matches_comment {s t : Cursor} : comment.Matches s t ↔
    ∃ bs w, (∀ b ∈ bs, isBlank b = true) ∧ '\n' ∉ w ∧ s.Reads (bs ++ '/' :: '/' :: w) t ∧
      (t.rest = [] ∨ t.rest = ['\n']) := by
  have hany (w : List Char) :
      (∀ c ∈ w, (CharClass.except (.literal '\n')).holds c = true) ↔ '\n' ∉ w := by
    constructor
    · intro h hw
      exact absurd (h '\n' hw) (by decide)
    · intro h c hc
      have hne : c ≠ '\n' := fun he => h (he ▸ hc)
      simpa [CharClass.holds] using hne
  have hslash {s t : Cursor} : (Pattern.char (.literal '/')).Matches s t ↔ s.Reads ['/'] t := by
    rw [matches_char]
    simp [CharClass.holds]
  have hend {s t : Cursor} : (Pattern.anchor .textEnd).Matches s t ↔
      (s.rest = [] ∨ s.rest = ['\n']) ∧ t = s := by
    simp [Matches, Anchor.holds]
  rw [comment_eq]
  constructor
  · rintro ⟨u, hu, v, hv, x, hx, y, hy, hrest⟩
    obtain ⟨bs, hb, hu⟩ := matches_many_char.mp hu
    obtain ⟨w, hw, hy⟩ := matches_many_char.mp hy
    obtain ⟨hrest, rfl⟩ := hend.mp hrest
    refine ⟨bs, w, hb, (hany w).mp hw, ?_, hrest⟩
    exact hu.trans ((hslash.mp hv).trans ((hslash.mp hx).trans hy))
  · rintro ⟨bs, w, hb, hw, ht, hrest⟩
    obtain ⟨u, hu, ht⟩ := ht.split
    obtain ⟨v, hv, ht⟩ := Cursor.Reads.split (v := ['/']) ht
    obtain ⟨x, hx, ht⟩ := Cursor.Reads.split (v := ['/']) ht
    exact ⟨u, matches_many_char.mpr ⟨bs, hb, hu⟩, v, hslash.mpr hv, x, hslash.mpr hx, t,
      matches_many_char.mpr ⟨w, (hany w).mpr hw, ht⟩, hend.mpr ⟨hrest, rfl⟩⟩

theorem no_comment_beforeFirst {s : String} (hs : Unbroken s) :
    ¬ ['/', '/'] <:+: (comment.beforeFirst s).toList := by
  obtain ⟨post, hpost, -, hnone⟩ := comment.beforeFirst_spec s
  rintro ⟨x, y, he⟩
  have hsplit : s.toList = x ++ ['/', '/'] ++ (y ++ post) := by
    rw [hpost, ← he, List.append_assoc _ y]
  rw [List.append_assoc] at hsplit
  obtain ⟨t, ht, hend⟩ := Cursor.exists_reads
    (s := .between x (['/', '/'] ++ (y ++ post))) (List.append_nil _).symm
  refine hnone x _ hsplit ?_ t (matches_comment.mpr ⟨[], y ++ post, by simp, ?_, ht, .inl hend⟩)
  · rw [← he]
    simp
  · exact fun h => hs (hsplit ▸ List.mem_append_right _ (List.mem_append_right _ h))

end Pattern

section Texts
variable {s t : String}

theorem weight_trim (s : String) : weight (trim s) = weight s := by
  obtain ⟨as, bs, ha, hb, hs⟩ := exists_trim s
  have hslash : '/' ∉ as := fun h => absurd (ha '/' h) (by decide)
  rw [weight, weight, hs, weightFrom_append, weightFrom_append, weightFrom_blanks _ ha,
    weightFrom_blanks _ hb, foldl_next_of_no_slash hslash, Nat.zero_add, Nat.add_zero]

theorem weight_append_of_no_slash (t : String) (h : '/' ∉ s.toList) :
    weight (s ++ t) = weight s + weight t := by
  rw [weight, String.toList_append, weightFrom_append, foldl_next_of_no_slash h]
  rfl

theorem weight_indented (width : Nat) (s : String) : weight (indented width s) = weight s := by
  have hspaces : ∀ b ∈ (replicate width ' ').toList, b = ' ' := by
    intro b hb
    rw [replicate, String.toList_ofList] at hb
    exact List.eq_of_mem_replicate hb
  rw [indented, weight_append_of_no_slash s fun h => absurd (hspaces '/' h) (by decide), weight,
    weightFrom_blanks _ fun b hb => hspaces b hb ▸ (by decide), Nat.zero_add]

theorem weight_unlines (rows : List String) :
    weight (unlines rows) = rows.foldr (fun row total => weight row + total) 0 := by
  induction rows with
  | nil => rfl
  | cons row rows ih =>
    rw [List.foldr_cons]
    by_cases hlast : rows = []
    · rw [hlast, unlines_singleton]
      rfl
    · -- a line feed weighs nothing, and code follows it
      have hfeed (p : Place) (cs : List Char) : weightFrom p ('\n' :: cs) = weightFrom .code cs := by
        simp [weightFrom, Place.next, isSolid, show isBlank '\n' = true by decide]
      have hsplit : (row ++ "\n" ++ unlines rows).toList =
          row.toList ++ '\n' :: (unlines rows).toList := by simp
      rw [unlines_cons row hlast, ← ih, weight, hsplit, weightFrom_append, hfeed]
      rfl

theorem weight_beforeFirst (s : String) : weight (comment.beforeFirst s) = weight s := by
  obtain ⟨post, hpost, hcase, -⟩ := comment.beforeFirst_spec s
  have hzero (p : Place) : weightFrom p post = 0 := by
    rcases hcase with rfl | ⟨t, ht⟩
    · rfl
    · obtain ⟨bs, w, hb, hw, hr, hrest⟩ := matches_comment.mp ht
      have hblank : ∀ b ∈ t.rest, isBlank b = true := by
        rcases hrest with hrest | hrest
        · simp [hrest]
        · simp only [hrest, List.mem_singleton, forall_eq]
          decide
      rw [show post = _ from hr.rest]
      exact weightFrom_of_comment p hb hw hblank
  rw [weight, weight, hpost, weightFrom_append, hzero, Nat.add_zero]

theorem weight_bare (s : String) : weight (bare s) = weight s := by
  rw [bare, weight_trim, weight_beforeFirst, weight_trim]

theorem countP_spaced (s : String) : (spaced s).toList.countP isSolid = s.toList.countP isSolid := by
  have hjoin (ws : List (List Char)) :
      ([' '].intercalate ws).countP isSolid = ws.flatten.countP isSolid := by
    induction ws with
    | nil => rfl
    | cons w ws ih =>
      cases ws with
      | nil => simp [List.intercalate]
      | cons v ws =>
        rw [intercalate_cons_cons, List.flatten_cons, List.countP_append, List.countP_append, ← ih,
          List.countP_cons_of_neg (by decide)]
  have hspaced : (spaced s).toList = [' '].intercalate (wordChars s.toList) := by
    simp [spaced, join, words, String.toList_intercalate, Function.comp_def]
  rw [hspaced, hjoin, flatten_wordChars, List.countP_filter]
  apply List.countP_congr
  intro c _
  simp only [isSolid]
  grind

end Texts

end Mender.Replacement
