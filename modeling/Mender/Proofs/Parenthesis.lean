import Mender.Proofs.Completion
import Mender.Proofs.Tidy

/-! Which lines are done with after one missing parenthesis. A closing one goes before the last
opening brace of a line where parentheses are open there, and else to the end; semicolons behind
opening braces are taken out on the way. Only the end of a line tells that nothing is missing, so
the parenthesis before a brace is followed by another one behind it. Main statement: the lines that
the same repair leaves alone when it is made again. -/
namespace Mender.Repair
open Text Answer

section Clean
variable {x y : List Char}

private theorem braceSemicolon_eq : braceSemicolon = Answer.gap '\x7b' ';' := by decide

abbrev Cleans : List Char → List Char → Prop := Bridged '\x7b' ';' ['\x7b']

theorem cleans_cleanBrace (s : String) : Cleans s.toList (cleanBrace s).toList := by
  have h := bridged_replaceAll '\x7b' ';' "\x7b" s
  rwa [← braceSemicolon_eq] at h

private theorem Cleans.length_le (h : Cleans x y) : y.length ≤ x.length := by
  induction h with
  | nil => exact Nat.le_refl _
  | keep _ _ ih => exact Nat.succ_le_succ ih
  | gap _ _ ih =>
    simp only [List.length_cons, List.length_append, List.length_nil]
    omega

theorem Cleans.eq_iff (h : Cleans x y) : y = x ↔ GapFree '\x7b' ';' x := by
  apply Bridged.eq_iff h
  intro w x y _ hxy he
  have hlen := congrArg List.length he
  have hle := Cleans.length_le hxy
  simp only [List.length_cons, List.length_append, List.length_nil] at hlen
  omega

theorem Cleans.count_eq (h : Cleans x y) {c : Char} (hc : isBlank c = false) (hs : c ≠ ';') :
    y.count c = x.count c := by
  induction h with
  | nil => rfl
  | keep _ _ ih => simp only [List.count_cons, ih]
  | @gap w x y hw _ ih =>
    have hblank : w.count c = 0 := by
      rw [List.count_eq_zero]
      intro hm
      rw [hw c hm] at hc
      cases hc
    simp only [List.count_cons, List.count_append, List.count_nil, ih, hblank]
    simp [Ne.symm hs]
    omega

theorem Cleans.semicolon_iff (h : Cleans x y) {w : List Char} (hw : ∀ d ∈ w, isBlank d = true) :
    w ++ [';'] <+: y ↔ w ++ [';'] <+: x := by
  induction w generalizing x y with
  | nil =>
    cases h with
    | nil => rfl
    | keep => simp [List.cons_prefix_cons]
    | gap => simp [List.cons_prefix_cons]
  | cons d w ih =>
    obtain ⟨hd, hw⟩ := List.forall_mem_cons.mp hw
    have hbrace : d ≠ '\x7b' := by
      rintro rfl
      exact absurd hd (by decide)
    cases h with
    | nil => rfl
    | keep _ h => simp only [List.cons_append, List.cons_prefix_cons, ih h hw]
    | gap => simp [List.cons_prefix_cons, hbrace]

def TwiceFree (x : List Char) : Prop :=
  ∀ v w, (∀ d ∈ v, isBlank d = true) → (∀ d ∈ w, isBlank d = true) →
    ¬ '\x7b' :: (v ++ ';' :: (w ++ [';'])) <:+: x

private theorem blanks_semicolon_inj {v w r s : List Char} (hv : ∀ d ∈ v, isBlank d = true)
    (hw : ∀ d ∈ w, isBlank d = true) (h : v ++ ';' :: r = w ++ ';' :: s) : v = w ∧ r = s := by
  have hsemi : isBlank ';' = false := by decide
  induction v generalizing w with
  | nil =>
    cases w with
    | nil => exact ⟨rfl, (List.cons.inj h).2⟩
    | cons d w =>
      obtain ⟨rfl, -⟩ := List.cons.inj h
      rw [hw _ List.mem_cons_self] at hsemi
      cases hsemi
  | cons c v ih =>
    obtain ⟨hc, hv⟩ := List.forall_mem_cons.mp hv
    cases w with
    | nil =>
      obtain ⟨rfl, -⟩ := List.cons.inj h
      rw [hc] at hsemi
      cases hsemi
    | cons d w =>
      obtain ⟨rfl, htail⟩ := List.cons.inj h
      obtain ⟨rfl, rfl⟩ := ih hv (List.forall_mem_cons.mp hw).2 htail
      exact ⟨rfl, rfl⟩

private theorem infix_of_not_mem {a : Char} {p u : List Char} (hu : a ∉ u) :
    a :: p <:+: u ++ x ↔ a :: p <:+: x := by
  induction u with
  | nil => rfl
  | cons c u ih =>
    obtain ⟨hc, hu⟩ := not_or.mp (mt List.mem_cons.mpr hu)
    rw [List.cons_append, List.infix_cons_iff, List.cons_prefix_cons, ih hu]
    simp [hc]

private theorem suffix_of_not_mem {a : Char} {p u : List Char} (hu : a ∉ u) :
    a :: p <:+ u ++ x ↔ a :: p <:+ x := by
  induction u with
  | nil => rfl
  | cons c u ih =>
    obtain ⟨hc, hu⟩ := not_or.mp (mt List.mem_cons.mpr hu)
    rw [List.cons_append, List.suffix_cons_iff, ih hu]
    simp [hc]

private theorem brace_not_mem {w : List Char} (hw : ∀ d ∈ w, isBlank d = true) :
    '\x7b' ∉ w ++ [';'] := by
  have hbrace : isBlank '\x7b' = false := by decide
  intro h
  rcases List.mem_append.mp h with h | h
  · rw [hw _ h] at hbrace
    cases hbrace
  · exact absurd h (by decide)

theorem Cleans.gapFree_iff (h : Cleans x y) : GapFree '\x7b' ';' y ↔ TwiceFree x := by
  induction h with
  | nil => simp [GapFree, TwiceFree]
  | @keep c x y hn h ih =>
    constructor
    · intro hf v w hv hw hi
      rcases List.infix_cons_iff.mp hi with ⟨r, hr⟩ | hi
      · exact hn v _ hv (by simpa using hr.symm)
      · exact ih.mp (fun w hw hi => hf w hw (List.infix_cons hi)) v w hv hw hi
    · intro hf w hw hi
      rcases List.infix_cons_iff.mp hi with hp | hi
      · obtain ⟨rfl, hsemi⟩ := List.cons_prefix_cons.mp hp
        obtain ⟨r, rfl⟩ := (semicolon_iff h hw).mp hsemi
        exact hn w r hw (by simp)
      · exact ih.mpr (fun v w hv hw hi => hf v w hv hw (List.infix_cons hi)) w hw hi
  | @gap u x y hu h ih =>
    constructor
    · intro hf v w hv hw hi
      rcases List.infix_cons_iff.mp hi with ⟨r, hr⟩ | hi
      · have hr : v ++ ';' :: (w ++ ';' :: r) = u ++ ';' :: x := by simpa using hr
        obtain ⟨-, rfl⟩ := blanks_semicolon_inj hv hu hr
        have hp := (semicolon_iff h hw).mpr ⟨r, by simp⟩
        exact hf w hw (List.cons_prefix_cons.mpr ⟨rfl, hp⟩).isInfix
      · rw [List.append_cons u, infix_of_not_mem (brace_not_mem hu)] at hi
        exact ih.mp (fun w hw hi => hf w hw (List.infix_cons hi)) v w hv hw hi
    · intro hf w hw hi
      rcases List.infix_cons_iff.mp hi with hp | hi
      · obtain ⟨-, hp⟩ := List.cons_prefix_cons.mp hp
        obtain ⟨r, rfl⟩ := (semicolon_iff h hw).mp hp
        exact hf u w hu hw ⟨[], r, by simp⟩
      · refine ih.mpr (fun v w hv hw hi => hf v w hv hw ?_) w hw hi
        rw [List.append_cons u]
        exact List.infix_cons (List.infix_append_of_infix_right hi)

private theorem getLast?_of_ne_nil (u : List Char) (hx : x ≠ []) :
    (u ++ x).getLast? = x.getLast? := by
  rw [List.getLast?_append, List.getLast?_eq_some_getLast hx, Option.some_or]

/-- A text whose last semicolon stands behind a brace ends with the brace; every other one ends as
before. -/
theorem Cleans.getLast?_iff (h : Cleans x y) {c : Char} (hc : c ≠ '\x7b') :
    y.getLast? = some c ↔ x.getLast? = some c ∧
      ∀ w, (∀ d ∈ w, isBlank d = true) → ¬ '\x7b' :: (w ++ [';']) <:+ x := by
  have hnil {x y : List Char} (h : Cleans x y) (hx : x ≠ []) : y ≠ [] := by
    cases h with
    | nil => exact hx
    | keep => simp
    | gap => simp
  induction h with
  | nil => simp
  | @keep d x y hn h ih =>
    have hsuffix (w : List Char) (hw : ∀ d ∈ w, isBlank d = true) :
        '\x7b' :: (w ++ [';']) <:+ d :: x ↔ '\x7b' :: (w ++ [';']) <:+ x := by
      rw [List.suffix_cons_iff]
      exact or_iff_right fun he => hn w [] hw he.symm
    by_cases hx : x = []
    · subst hx
      cases h
      simpa using fun _ w hw => mt (hsuffix w hw).mp (by simp)
    · have hy := getLast?_of_ne_nil [d] (hnil h hx)
      have hx := getLast?_of_ne_nil [d] hx
      rw [List.singleton_append] at hx hy
      rw [hx, hy]
      refine ih.trans ?_
      exact and_congr_right fun _ => forall₂_congr fun w hw => not_congr (hsuffix w hw).symm
  | @gap w x y hw h ih =>
    by_cases hx : x = []
    · subst hx
      cases h
      refine iff_of_false (by simp [Ne.symm hc]) fun he => he.2 w hw List.suffix_rfl
    · have hsuffix (v : List Char) (hv : ∀ d ∈ v, isBlank d = true) :
          '\x7b' :: (v ++ [';']) <:+ '\x7b' :: (w ++ ';' :: x) ↔ '\x7b' :: (v ++ [';']) <:+ x := by
        rw [List.suffix_cons_iff, List.append_cons w, suffix_of_not_mem (brace_not_mem hw)]
        refine or_iff_right fun he => hx ?_
        have he : v ++ ';' :: [] = w ++ ';' :: x := by simpa using he
        exact (blanks_semicolon_inj hv hw he).2.symm
      have hlast := getLast?_of_ne_nil ('\x7b' :: (w ++ [';'])) hx
      rw [List.cons_append, ← List.append_cons] at hlast
      rw [hlast, getLast?_of_ne_nil _ (hnil h hx)]
      refine ih.trans ?_
      exact and_congr_right fun _ => forall₂_congr fun w hw => not_congr (hsuffix w hw).symm

theorem gapFree_append (hy : ';' ∉ y) : GapFree '\x7b' ';' (x ++ y) ↔ GapFree '\x7b' ';' x := by
  refine forall₂_congr fun w hw => not_congr ?_
  induction y using List.reverseRecOn with
  | nil => rw [List.append_nil]
  | append_singleton y c ih =>
    rw [List.mem_append, not_or, List.mem_singleton] at hy
    rw [← List.append_assoc, List.infix_concat_iff, ih hy.1]
    refine or_iff_right fun ⟨u, hu⟩ => hy.2 ?_
    rw [← List.cons_append, ← List.append_assoc] at hu
    exact (List.cons.inj (List.append_inj' hu rfl).2).1

theorem gapFree_append_brace : GapFree '\x7b' ';' (x ++ '\x7b' :: y) ↔
    GapFree '\x7b' ';' x ∧ GapFree '\x7b' ';' ('\x7b' :: y) := by
  rw [GapFree, GapFree, GapFree, ← forall₂_and]
  refine forall₂_congr fun w hw => ?_
  rw [← not_or]
  refine not_congr ⟨fun hi => ?_, fun hi => ?_⟩
  · induction x with
    | nil => exact .inr hi
    | cons c x ih =>
      rcases List.infix_cons_iff.mp hi with hp | hi
      · -- what follows the brace up to the semicolon holds no second brace
        have hshort : '\x7b' :: (w ++ [';']) <+: c :: x := by
          obtain ⟨rfl, hrest⟩ := List.cons_prefix_cons.mp hp
          refine List.cons_prefix_cons.mpr ⟨rfl, ?_⟩
          rcases List.prefix_or_prefix_of_prefix hrest (List.prefix_append x _) with h | ⟨r, h⟩
          · exact h
          · cases r with
            | nil => rw [← h, List.append_nil]
            | cons d r =>
              rw [← h, List.append_eq, List.prefix_append_right_inj, List.cons_prefix_cons] at hrest
              refine absurd ?_ (brace_not_mem hw)
              rw [← h, hrest.1]
              exact List.mem_append_right x List.mem_cons_self
        exact .inl hshort.isInfix
      · exact (ih hi).imp_left List.infix_cons
  · rcases hi with hi | hi
    · exact hi.trans List.infix_append_left
    · exact hi.trans List.infix_append_right

end Clean

section Brace
variable {s : String} {u v : List Char}

private theorem findLast_eq {c : Char} (hs : s.toList = u ++ c :: v) (hc : c ∉ v) :
    findLast? s (String.singleton c) = some u.length := by
  have hfound : ∀ (w r : List Char) (start : Nat), c ∉ w →
      findChars [c] start (w ++ c :: r) = some (start + w.length) := by
    intro w r
    induction w with
    | nil => simp [findChars]
    | cons d w ih =>
      intro start hw
      obtain ⟨hd, hw⟩ := not_or.mp (mt List.mem_cons.mpr hw)
      simp [findChars, hd, ih (start + 1) hw]
      omega
  have hrev : s.toList.reverse = v.reverse ++ c :: u.reverse := by simp [hs]
  have hlen : length s = u.length + (v.length + 1) := by
    rw [length, hs, List.length_append, List.length_cons]
  rw [findLast?, String.toList_singleton, hrev, List.reverse_singleton,
    hfound _ _ 0 (by simpa using hc)]
  have hone : length (String.singleton c) = 1 := by
    rw [length, String.toList_singleton, List.length_singleton]
  rw [Option.map_some, hlen, hone, List.length_reverse]
  congr 1
  omega

/-- No parenthesis is open before the last opening brace of a text. -/
def ClosedAtBrace (x : List Char) : Prop :=
  ∀ u v, x = u ++ '\x7b' :: v → '\x7b' ∉ v → u.count '(' ≤ u.count ')'

def closedText (u : List Char) : List Char :=
  u.rdropWhile isBlank ++ List.replicate (u.count '(' - u.count ')') ')' ++ [' ']

private theorem count_rdropWhile {c : Char} (hc : isBlank c = false) (u : List Char) :
    (u.rdropWhile isBlank).count c = u.count c := by
  have hblank : (u.rtakeWhile isBlank).count c = 0 := by
    rw [List.count_eq_zero]
    intro hm
    rw [List.mem_rtakeWhile_imp hm] at hc
    cases hc
  conv_rhs => rw [← List.rdropWhile_append_rtakeWhile (p := isBlank) (l := u)]
  rw [List.count_append, hblank, Nat.add_zero]

theorem closeBeforeBrace_eq (hs : s.toList = u ++ '\x7b' :: v) (hv : '\x7b' ∉ v) :
    closeBeforeBrace s = if u.count '(' ≤ u.count ')' then none
      else some (String.ofList (closedText u ++ '\x7b' :: v)) := by
  have hfind : findLast? s "\x7b" = some u.length :=
    findLast_eq (c := '\x7b') hs hv
  unfold closeBeforeBrace
  rw [hfind]
  cases u with
  | nil => rfl
  | cons c u =>
    have htake : take (u.length + 1) s = String.ofList (c :: u) := by
      rw [take, hs, ← List.length_cons (a := c), List.take_left]
    have hdrop : drop (u.length + 1) s = String.ofList ('\x7b' :: v) := by
      rw [drop, hs, ← List.length_cons (a := c), List.drop_left]
    have hexcess : excess (trimEnd (String.ofList (c :: u))) "(" ")" =
        ((c :: u).count '(' : Int) - (c :: u).count ')' := by
      have h := excess_eq (trimEnd (String.ofList (c :: u))) '(' ')'
      rwa [trimEnd_toList, String.toList_ofList, count_rdropWhile (by decide),
        count_rdropWhile (by decide)] at h
    dsimp only [List.length_cons]
    rw [htake, hdrop, hexcess]
    by_cases hle : (c :: u).count '(' ≤ (c :: u).count ')'
    · rw [if_pos hle, if_neg (by omega)]
    · rw [if_neg hle, if_pos (by omega), Int.toNat_sub]
      rw [Option.some.injEq, ← String.toList_inj]
      have hspace : " ".toList = [' '] := rfl
      simp only [String.toList_append, trimEnd_toList, replicate, String.toList_ofList, closedText,
        hspace]

private theorem exists_last {c : Char} {x : List Char} (h : c ∈ x) :
    ∃ u v, x = u ++ c :: v ∧ c ∉ v := by
  obtain ⟨v, u, hx, hv⟩ := List.eq_append_cons_of_mem (List.mem_reverse.mpr h)
  refine ⟨u.reverse, v.reverse, ?_, mt List.mem_reverse.mp hv⟩
  rw [← List.reverse_reverse x, hx]
  simp

theorem closeBeforeBrace_eq_none : closeBeforeBrace s = none ↔ ClosedAtBrace s.toList := by
  constructor
  · intro h u v hs hv
    rw [closeBeforeBrace_eq hs hv] at h
    by_contra hopen
    rw [if_neg hopen] at h
    cases h
  · intro h
    by_cases hb : '\x7b' ∈ s.toList
    · obtain ⟨u, v, hs, hv⟩ := exists_last hb
      rw [closeBeforeBrace_eq hs hv, if_pos (h u v hs hv)]
    · have hfind : findLast? s "\x7b" = none := by
        rw [findLast?, Option.map_eq_none_iff, findChars_eq_none]
        intro hi
        exact hb (List.mem_reverse.mp (hi.subset (by decide)))
      rw [closeBeforeBrace, hfind]

theorem closedAtBrace_iff (hv : '\x7b' ∉ v) :
    ClosedAtBrace (u ++ '\x7b' :: v) ↔ u.count '(' ≤ u.count ')' := by
  have hs : (String.ofList (u ++ '\x7b' :: v)).toList = u ++ '\x7b' :: v := String.toList_ofList
  rw [← hs, ← closeBeforeBrace_eq_none, closeBeforeBrace_eq hs hv]
  split
  · rename_i h
    exact iff_of_true rfl h
  · rename_i h
    exact iff_of_false (by simp) h

theorem closeBeforeBrace_eq_some {new : String} (h : closeBeforeBrace s = some new) :
    ∃ u v, s.toList = u ++ '\x7b' :: v ∧ '\x7b' ∉ v ∧ u.count ')' < u.count '(' ∧
      new.toList = closedText u ++ '\x7b' :: v := by
  have hb : '\x7b' ∈ s.toList := by
    by_contra hb
    rw [closeBeforeBrace_eq_none.mpr fun u v hs => absurd (by simp [hs]) hb] at h
    cases h
  obtain ⟨u, v, hs, hv⟩ := exists_last hb
  rw [closeBeforeBrace_eq hs hv] at h
  split at h
  · cases h
  · rename_i hopen
    exact ⟨u, v, hs, hv, Nat.lt_of_not_le hopen, by rw [← Option.some.inj h, String.toList_ofList]⟩

theorem count_closedText {c : Char} (hc : isBlank c = false) : (closedText u).count c =
    u.count c + if c = ')' then u.count '(' - u.count ')' else 0 := by
  have hspace : c ≠ ' ' := by
    rintro rfl
    exact absurd hc (by decide)
  rw [closedText, List.count_append, List.count_append, count_rdropWhile hc, List.count_replicate,
    List.count_singleton]
  by_cases hp : c = ')'
  · simp [hp]
  · simp [hp, Ne.symm hp, Ne.symm hspace]

private theorem gapFree_closedText : GapFree '\x7b' ';' (closedText u) ↔ GapFree '\x7b' ';' u := by
  have hblank : ';' ∉ u.rtakeWhile isBlank := by
    intro hm
    exact absurd (List.mem_rtakeWhile_imp hm) (by decide)
  rw [closedText, List.append_assoc, gapFree_append (by simp), ← gapFree_append hblank,
    List.rdropWhile_append_rtakeWhile]

end Brace

section Line
variable {x y u v : List Char} {line t : String}

private theorem ClosedAtBrace.append (h : ClosedAtBrace x) (hy : '\x7b' ∉ y) : ClosedAtBrace
    (x ++ y) := by
  intro u v hs hv
  rcases List.append_eq_append_iff.mp hs with ⟨w, -, rfl⟩ | ⟨w, rfl, hw⟩
  · simp at hy
  · cases w with
    | nil =>
      rw [← List.nil_append y, ← hw] at hy
      exact absurd List.mem_cons_self hy
    | cons c w =>
      obtain ⟨rfl, rfl⟩ := List.cons.inj hw
      exact h u w rfl fun hm => hv (List.mem_append_left y hm)

/-- A line with no semicolon behind a brace and no parenthesis open at the last one. -/
structure Orderly (x : List Char) : Prop where
  gapFree : GapFree '\x7b' ';' x
  closed : ClosedAtBrace x

theorem orderly_of_not_mem (h : '\x7b' ∉ x) : Orderly x :=
  ⟨fun _ _ hi => h (hi.subset List.mem_cons_self), fun _ _ hx => absurd (by simp [hx]) h⟩

theorem Orderly.append (h : Orderly x) (hb : '\x7b' ∉ y) (hs : ';' ∉ y) : Orderly (x ++ y) :=
  ⟨(gapFree_append hs).mpr h.gapFree, h.closed.append hb⟩

/-- Closing the parentheses before the last brace leaves the semicolons behind braces. -/
private theorem orderly_closedText (hv : '\x7b' ∉ v) (hopen : u.count ')' < u.count '(') :
    Orderly (closedText u ++ '\x7b' :: v) ↔ GapFree '\x7b' ';' (u ++ '\x7b' :: v) := by
  have hgap : GapFree '\x7b' ';' (closedText u ++ '\x7b' :: v) ↔
      GapFree '\x7b' ';' (u ++ '\x7b' :: v) := by
    rw [gapFree_append_brace, gapFree_append_brace, gapFree_closedText]
  refine ⟨fun h => hgap.mp h.gapFree, fun h => ⟨hgap.mpr h, ?_⟩⟩
  have hopened : (closedText u).count '(' = u.count '(' := count_closedText (by decide)
  have hclosed : (closedText u).count ')' = u.count ')' + (u.count '(' - u.count ')') :=
    count_closedText (by decide)
  rw [closedAtBrace_iff hv, hopened, hclosed]
  omega

def Ended (x : List Char) : Prop := x.getLast? = some ')' ∨ x.getLast? = some ';'

private theorem endsWith_iff {c : Char} :
    endsWith t (String.singleton c) = true ↔ t.toList.getLast? = some c := by
  rw [endsWith, String.toList_singleton, List.isSuffixOf_iff_suffix, List.getLast?_eq_some_iff]
  exact exists_congr fun _ => eq_comm

private theorem ended_iff :
    (endsWith t ")" || endsWith t ";") = true ↔ Ended t.toList := by
  rw [Bool.or_eq_true]
  exact or_congr (endsWith_iff (c := ')')) (endsWith_iff (c := ';'))

theorem cleanBrace_eq_self : cleanBrace t = t ↔ GapFree '\x7b' ';' t.toList := by
  rw [← String.toList_inj, (cleans_cleanBrace t).eq_iff]

theorem withParen_orderly (h : Orderly (trimEnd line).toList) {new : String} :
    withParen ")" line = some new ↔
      ¬ Ended (trimEnd line).toList ∧ new = trimEnd line ++ ")" := by
  have hclean := cleanBrace_eq_self.mpr h.gapFree
  have hclose := closeBeforeBrace_eq_none.mpr h.closed
  have hend : withParen ")" line = if endsWith (trimEnd line) ")" || endsWith (trimEnd line) ";"
      then none else some (trimEnd line ++ ")") := by
    simp only [withParen, hclean, hclose, if_true, ite_self]
  rw [hend]
  split
  · rename_i he
    simp [ended_iff.mp he]
  · rename_i he
    rw [Option.some.injEq, eq_comm]
    simp [mt ended_iff.mpr he]

theorem withParen_disorderly (h : ¬ Orderly (trimEnd line).toList) :
    ∃ new, withParen ")" line = some new ∧ new ≠ trimEnd line ∧
      (Orderly new.toList ↔ TwiceFree (trimEnd line).toList) ∧
      new.toList.getLast? = (cleanBrace (trimEnd line)).toList.getLast? := by
  have hcleans := cleans_cleanBrace (trimEnd line)
  have hbrace : contains (trimEnd line) "\x7b" = true := by
    by_contra hno
    refine h (orderly_of_not_mem fun hm => hno (contains_iff.mpr ?_))
    exact (List.singleton_infix_iff _ _).mpr hm
  cases hc : closeBeforeBrace (cleanBrace (trimEnd line)) with
  | none =>
    have hclosed := closeBeforeBrace_eq_none.mp hc
    have hne : cleanBrace (trimEnd line) ≠ trimEnd line := by
      intro he
      rw [he] at hclosed
      exact h ⟨cleanBrace_eq_self.mp he, hclosed⟩
    refine ⟨cleanBrace (trimEnd line), ?_, hne, ?_, rfl⟩
    · simp only [withParen, hbrace, hc, if_neg hne]
      rfl
    · exact ⟨fun ho => hcleans.gapFree_iff.mp ho.gapFree,
        fun ht => ⟨hcleans.gapFree_iff.mpr ht, hclosed⟩⟩
  | some new =>
    obtain ⟨u, v, hs, hv, hopen, hnew⟩ := closeBeforeBrace_eq_some hc
    refine ⟨new, ?_, ?_, ?_, ?_⟩
    · simp only [withParen, hbrace, hc]
      rfl
    · rintro rfl
      have hcount := hcleans.count_eq (c := ')') (by decide) (by decide)
      have hmore : (closedText u).count ')' = u.count ')' + (u.count '(' - u.count ')') :=
        count_closedText (by decide)
      rw [hs, hnew, List.count_append, List.count_append, hmore] at hcount
      omega
    · rw [hnew, orderly_closedText hv hopen, ← hs, hcleans.gapFree_iff]
    · rw [hnew, hs, getLast?_of_ne_nil _ (by simp), getLast?_of_ne_nil _ (by simp)]

def Rests (t : String) : Prop := ∀ again, withParen ")" t = some again → again = t

private theorem rests_iff (ht : trimEnd t = t) : Rests t ↔ Orderly t.toList ∧ Ended t.toList := by
  by_cases ho : Orderly t.toList
  · have hput {again : String} : withParen ")" t = some again ↔
        ¬ Ended t.toList ∧ again = t ++ ")" := by
      have h := @withParen_orderly t (ht.symm ▸ ho) again
      rwa [ht] at h
    constructor
    · intro hr
      by_contra he
      have hlen := congrArg length (hr _ (hput.mpr ⟨fun hend => he ⟨ho, hend⟩, rfl⟩))
      simp [length] at hlen
    · exact fun he again hagain => absurd he.2 (hput.mp hagain).1
  · obtain ⟨new, hnew, hne, -⟩ := @withParen_disorderly t (ht.symm ▸ ho)
    rw [ht] at hne
    exact iff_of_false (fun hr => hne (hr new hnew)) fun h => ho h.1

/-- A line is done with after one repair: it is orderly, or it becomes so when one semicolon behind
each brace is taken out, and it has an end that is not taken out. -/
def ClosesOnce (x : List Char) : Prop :=
  Orderly x ∨ TwiceFree x ∧ Ended x ∧
    ∀ w, (∀ d ∈ w, isBlank d = true) → ¬ '\x7b' :: (w ++ [';']) <:+ x

private theorem ended_cleans (h : Cleans x y) : Ended y ↔ Ended x ∧
    ∀ w, (∀ d ∈ w, isBlank d = true) → ¬ '\x7b' :: (w ++ [';']) <:+ x := by
  rw [Ended, Ended, h.getLast?_iff (by decide), h.getLast?_iff (by decide), or_and_right]

private theorem trimEnd_eq_self_iff :
    trimEnd t = t ↔ ∀ c, t.toList.getLast? = some c → isBlank c = false := by
  rw [← String.toList_inj, trimEnd_toList, List.rdropWhile_eq_self_iff]
  constructor
  · intro h c hc
    have hne : t.toList ≠ [] := by
      intro he
      rw [he] at hc
      cases hc
    rw [List.getLast?_eq_some_getLast hne] at hc
    simpa [Option.some.inj hc] using h hne
  · intro h hne
    simpa using h _ (List.getLast?_eq_some_getLast hne)

private theorem closesOnce_iff : (∀ new, withParen ")" line = some new → Rests new) ↔
    ClosesOnce (trimEnd line).toList := by
  by_cases ho : Orderly (trimEnd line).toList
  · refine iff_of_true (fun new hnew => ?_) (.inl ho)
    obtain ⟨-, rfl⟩ := (withParen_orderly ho).mp hnew
    have hend : (trimEnd line ++ ")").toList = (trimEnd line).toList ++ [')'] :=
      String.toList_append
    rw [rests_iff (trimEnd_append_mark _ (by decide)), hend]
    exact ⟨ho.append (by decide) (by decide), .inl (by simp)⟩
  · obtain ⟨new, hnew, -, horder, hlast⟩ := withParen_disorderly ho
    have hcleans := cleans_cleanBrace (trimEnd line)
    -- the new line ends with a brace or as the old one
    have htrim : trimEnd new = new := by
      rw [trimEnd_eq_self_iff, hlast]
      intro c hc
      by_cases hb : c = '\x7b'
      · rw [hb]
        decide
      · exact trimEnd_eq_self_iff.mp (trimEnd_trimEnd line) c ((hcleans.getLast?_iff hb).mp hc).1
    have hrests : Rests new ↔ TwiceFree (trimEnd line).toList ∧
        Ended (cleanBrace (trimEnd line)).toList := by
      rw [rests_iff htrim, horder, Ended, hlast, Ended]
    rw [ended_cleans hcleans] at hrests
    rw [ClosesOnce, or_iff_right ho, ← hrests, hnew]
    exact ⟨fun h => h new rfl, fun h other he => Option.some.inj he ▸ h⟩

end Line

/-- The repair made twice is the repair made once, just for the lines that close at once. -/
theorem missingParen_settles_iff (code : String) (n : Option Int) :
    (missingParen (missingParen code n ")").code n ")").code = (missingParen code n ")").code ↔
      ∀ i line, lineAt? (lines code) n = some (i, line) → ClosesOnce (trimEnd line).toList := by
  rw [missingParen, missingParen, changeLine_again_iff (tame_withParen (by decide))]
  refine forall₂_congr fun i line => ?_
  rw [← closesOnce_iff]
  exact ⟨fun h hat new hnew => h new hat hnew, fun h new hat hnew => h hat new hnew⟩

/-- Where a parenthesis is open at a brace, it is closed there and once more at the end. -/
theorem parenthesis_put_behind_brace :
    (missingParen "if (x \x7b" (some 1) ")").code = "if (x) \x7b" ∧
    (missingParen "if (x) \x7b" (some 1) ")").code = "if (x) \x7b)" ∧
    ¬ ClosesOnce "if (x \x7b".toList := by
  have hfirst : (missingParen "if (x \x7b" (some 1) ")").code = "if (x) \x7b" := by decide +kernel
  have hagain : (missingParen "if (x) \x7b" (some 1) ")").code = "if (x) \x7b)" := by decide +kernel
  have hline : lineAt? (lines "if (x \x7b") (some 1) = some (0, "if (x \x7b") := by decide
  have htrim : trimEnd "if (x \x7b" = "if (x \x7b" := by decide
  refine ⟨hfirst, hagain, fun hcloses => ?_⟩
  have hsame := (missingParen_settles_iff "if (x \x7b" (some 1)).mpr fun i line h => by
    obtain ⟨-, rfl⟩ := Prod.mk.inj (Option.some.inj (hline.symm.trans h))
    rwa [htrim]
  rw [hfirst, hagain] at hsame
  exact absurd hsame (by decide)

end Mender.Repair
