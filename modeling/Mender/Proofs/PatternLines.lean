import Mender.Proofs.PatternRun
import Mender.Proofs.Text

/-! Patterns that stay on a line: they cover no line feed and ask for no place. The matcher does the
same for them wherever the line stands, so searching a text is searching its lines one after the
other. -/
namespace Mender.Pattern
open Text Relation

def staysOnLine : Pattern → Bool
  | .empty => true
  | .char c => !c.holds '\n'
  | .seq a b => a.staysOnLine && b.staysOnLine
  | .alt a b => a.staysOnLine && b.staysOnLine
  | .many _ p => p.staysOnLine
  | .group _ p => p.staysOnLine
  | .anchor _ => false
  | .notAhead _ => false
  | .notBehind _ => false

def coversSome : Pattern → Bool
  | .char _ => true
  | .seq a b => a.coversSome || b.coversSome
  | .alt a b => a.coversSome && b.coversSome
  | .group _ p => p.coversSome
  | _ => false

theorem moves_of_coversSome {p : Pattern} (hp : p.coversSome = true) : p.Moves := by
  have hle {q : Pattern} {s t : Cursor} (h : q.Matches s t) : s.pos ≤ t.pos := by
    obtain ⟨w, hw⟩ := h.passes
    rw [hw.pos]
    exact Nat.le_add_right ..
  induction p with
  | char c =>
    rintro s t ⟨x, rest, -, -, rfl⟩
    exact Nat.lt_succ_self _
  | seq a b ha hb =>
    rintro s t ⟨u, hu, ht⟩
    rcases Bool.or_eq_true_iff.mp hp with hp | hp
    · exact (ha hp s u hu).trans_le (hle ht)
    · exact (hle hu).trans_lt (hb hp u t ht)
  | alt a b ha hb =>
    obtain ⟨h1, h2⟩ := Bool.and_eq_true_iff.mp hp
    rintro s t (h | h)
    · exact ha h1 s t h
    · exact hb h2 s t h
  | group i p ih =>
    rintro s t ⟨u, hu, rfl⟩
    exact ih hp s u hu
  | empty => cases hp
  | many g p _ => cases hp
  | anchor a => cases hp
  | notAhead p _ => cases hp
  | notBehind w => cases hp

private theorem Matches.unbroken {p : Pattern} (hp : p.staysOnLine = true) {s t : Cursor}
    (h : p.Matches s t) : ∃ w, '\n' ∉ w ∧ s.Passes w t := by
  induction p generalizing s t with
  | empty => exact ⟨[], by simp, h ▸ .refl s⟩
  | char c =>
    obtain ⟨x, rest, hr, hx, rfl⟩ := h
    refine ⟨[x], fun hm => ?_, hr, rfl, rfl⟩
    rw [← List.mem_singleton.mp hm] at hx
    simp [staysOnLine, hx] at hp
  | seq a b ha hb =>
    obtain ⟨h1, h2⟩ := Bool.and_eq_true_iff.mp hp
    obtain ⟨u, hu, ht⟩ := h
    obtain ⟨v, hv, hpv⟩ := ha h1 hu
    obtain ⟨w, hw, hpw⟩ := hb h2 ht
    exact ⟨v ++ w, by simp [hv, hw], hpv.trans hpw⟩
  | alt a b ha hb =>
    obtain ⟨h1, h2⟩ := Bool.and_eq_true_iff.mp hp
    exact h.elim (ha h1) (hb h2)
  | many greedy p ih =>
    unfold Matches at h
    induction h with
    | refl => exact ⟨[], by simp, .refl s⟩
    | tail _ hstep hs =>
      obtain ⟨v, hv, hpv⟩ := hs
      obtain ⟨w, hw, hpw⟩ := ih hp hstep.1
      exact ⟨v ++ w, by simp [hv, hw], hpv.trans hpw⟩
  | group i p ih =>
    obtain ⟨u, hu, rfl⟩ := h
    obtain ⟨w, hw, hpw⟩ := ih hp hu
    exact ⟨w, hw, hpw.rest, hpw.before, hpw.pos⟩
  | anchor a => cases hp
  | notAhead p _ => cases hp
  | notBehind w => cases hp

def AtLineEnd (cs : List Char) : Prop := ∀ c ∈ cs.head?, c = '\n'

theorem Matches.pos_eq {p : Pattern} (hp : p.staysOnLine = true) {s t : Cursor}
    (hs : AtLineEnd s.rest) (h : p.Matches s t) : t.pos = s.pos := by
  obtain ⟨w, hw, hpass⟩ := h.unbroken hp
  cases w with
  | nil => exact hpass.pos
  | cons c w =>
    have hc : c = '\n' := hs c (by rw [hpass.rest]; rfl)
    exact absurd (hc ▸ List.mem_cons_self) hw

/-- Two places with the same line ahead of them, in texts that are `m` and `n` characters long; the
first text goes on with `tail` where the second one ends. -/
structure Alike (tail : List Char) (m n : Nat) (s t : Cursor) : Prop where
  rest : s.rest = t.rest ++ tail
  groups : s.groups = t.groups
  left : s.pos + s.rest.length = m
  right : t.pos + t.rest.length = n

section Alike
variable {tail : List Char} {m n : Nat} {s t u v : Cursor}

private theorem Alike.pos_lt_iff (h : Alike tail m n s t) (h' : Alike tail m n u v) :
    s.pos < u.pos ↔ t.pos < v.pos := by
  have hs := congrArg List.length h.rest
  have hu := congrArg List.length h'.rest
  rw [List.length_append] at hs hu
  have := h.left
  have := h.right
  have := h'.left
  have := h'.right
  omega

theorem Alike.between (h : Alike tail m n s t) (h' : Alike tail m n u v) :
    s.rest.take (u.pos - s.pos) = t.rest.take (v.pos - t.pos) := by
  have hs := congrArg List.length h.rest
  have hu := congrArg List.length h'.rest
  rw [List.length_append] at hs hu
  have := h.left
  have := h.right
  have := h'.left
  have := h'.right
  have hsame : u.pos - s.pos = v.pos - t.pos := by omega
  rw [hsame, h.rest, List.take_append_of_le_length (by omega)]

theorem Alike.advance {c : Char} {r : List Char} (h : Alike tail m n s t) (hr : t.rest = c :: r) :
    Alike tail m n (s.advance c (r ++ tail)) (t.advance c r) := by
  have hs := h.rest
  rw [hr, List.cons_append] at hs
  refine ⟨rfl, h.groups, ?_, ?_⟩
  · rw [← h.left, hs]
    simp only [Cursor.advance, List.length_cons]
    omega
  · rw [← h.right, hr]
    simp only [Cursor.advance, List.length_cons]
    omega

variable {p : Pattern} {k j : Continuation}

private theorem iterate_alike {greedy : Bool} (htail : AtLineEnd tail) (hp : p.staysOnLine = true)
    (hstep : ∀ k j, (∀ u v, Alike tail m n u v → Option.Rel (Alike tail m n) (k u) (j v)) →
      ∀ s t, Alike tail m n s t → Option.Rel (Alike tail m n) (p.run k s) (p.run j t))
    (hk : ∀ u v, Alike tail m n u v → Option.Rel (Alike tail m n) (k u) (j v))
    {fuel gas : List Char} (h : Alike tail m n s t) (hf : s.rest.length ≤ fuel.length)
    (hg : t.rest.length ≤ gas.length) :
    Option.Rel (Alike tail m n) (iterate greedy p.run k fuel s) (iterate greedy p.run j gas t) := by
  -- without a character ahead, only the continuation is left
  have hend {k : Continuation} {fuel : List Char} {s : Cursor} (hs : AtLineEnd s.rest) :
      iterate greedy p.run k fuel s = k s := by
    cases fuel with
    | nil => rfl
    | cons c fuel =>
      have hmore : p.run (fun t => if s.pos < t.pos then iterate greedy p.run k fuel t else none) s =
          none := by
        rw [← Option.not_isSome_iff_eq_none]
        intro hsome
        obtain ⟨r, hr⟩ := Option.isSome_iff_exists.mp hsome
        obtain ⟨t, ht, hkt⟩ := run_sound hr
        rw [if_neg (by rw [ht.pos_eq hp hs]; exact Nat.lt_irrefl _)] at hkt
        cases hkt
      simp only [iterate, hmore]
      cases greedy
      · cases k s <;> rfl
      · rfl
  induction gas generalizing fuel s t with
  | nil =>
    have ht : t.rest = [] := List.length_eq_zero_iff.mp (Nat.le_zero.mp hg)
    have hs : s.rest = tail := by rw [h.rest, ht, List.nil_append]
    rw [hend (hs ▸ htail)]
    exact hk s t h
  | cons c gas ih =>
    cases fuel with
    | nil =>
      have hs : s.rest = [] := List.length_eq_zero_iff.mp (Nat.le_zero.mp hf)
      have ht : t.rest = [] := (List.append_eq_nil_iff.mp (h.rest.symm.trans hs)).1
      have hempty : AtLineEnd t.rest := by simp [AtLineEnd, ht]
      rw [hend (k := j) hempty]
      exact hk s t h
    | cons d fuel =>
      have hmore := hstep
        (fun u => if s.pos < u.pos then iterate greedy p.run k fuel u else none)
        (fun v => if t.pos < v.pos then iterate greedy p.run j gas v else none)
        (fun u v huv => by
          have hlt := h.pos_lt_iff huv
          by_cases hpos : t.pos < v.pos
          · have hspos := hlt.mpr hpos
            rw [if_pos hspos, if_pos hpos]
            have hleft := h.left.trans huv.left.symm
            have hright := h.right.trans huv.right.symm
            rw [List.length_cons] at hf hg
            exact ih huv (by omega) (by omega)
          · rw [if_neg (mt hlt.mp hpos), if_neg hpos]
            exact .none) s t h
      have hrest := hk s t h
      simp only [iterate]
      generalize p.run _ s = x at hmore ⊢
      generalize p.run _ t = y at hmore ⊢
      generalize k s = x' at hrest ⊢
      generalize j t = y' at hrest ⊢
      cases greedy
      · cases hrest with
        | some hxy => exact .some hxy
        | none => exact hmore
      · cases hmore with
        | some hxy => exact .some hxy
        | none => exact hrest

theorem run_alike (htail : AtLineEnd tail) (hp : p.staysOnLine = true)
    (hk : ∀ u v, Alike tail m n u v → Option.Rel (Alike tail m n) (k u) (j v))
    (h : Alike tail m n s t) : Option.Rel (Alike tail m n) (p.run k s) (p.run j t) := by
  induction p generalizing k j s t with
  | empty => exact hk s t h
  | char c =>
    unfold run
    cases hr : t.rest with
    | nil =>
      have hs : s.rest = tail := by rw [h.rest, hr, List.nil_append]
      rw [hs]
      cases tail with
      | nil => exact .none
      | cons x tail =>
        obtain rfl : x = '\n' := htail x rfl
        have hc : c.holds '\n' = false := by simpa [staysOnLine] using hp
        simp only [hc]
        exact .none
    | cons x r =>
      have hs : s.rest = x :: (r ++ tail) := by rw [h.rest, hr, List.cons_append]
      simp only [hs]
      split
      · exact hk _ _ (h.advance hr)
      · exact .none
  | seq a b ha hb =>
    obtain ⟨h1, h2⟩ := Bool.and_eq_true_iff.mp hp
    exact ha h1 (fun u v huv => hb h2 hk huv) h
  | alt a b ha hb =>
    obtain ⟨h1, h2⟩ := Bool.and_eq_true_iff.mp hp
    have hfirst := ha h1 hk h
    unfold run
    generalize a.run k s = x at hfirst ⊢
    generalize a.run j t = y at hfirst ⊢
    cases hfirst with
    | some hxy => exact .some hxy
    | none => exact hb h2 hk h
  | many greedy p ih =>
    exact iterate_alike (p := p) htail hp (fun k j hkj s t hst => ih hp hkj hst) hk h (Nat.le_refl _)
      (Nat.le_refl _)
  | group i p ih =>
    refine ih hp (fun u v huv => hk _ _ ?_) h
    exact ⟨huv.rest, by rw [h.between huv, huv.groups], huv.left, huv.right⟩
  | anchor a => cases hp
  | notAhead p _ => cases hp
  | notBehind w => cases hp

private theorem matchAt_alike (htail : AtLineEnd tail) (hp : p.staysOnLine = true)
    (h : Alike tail m n s t) : (p.matchAt false s).map Found.groups =
      (p.matchAt false t).map Found.groups := by
  have hrun := run_alike htail hp (fun u v huv => .some huv) h (k := some) (j := some)
  rw [matchAt_eq, matchAt_eq]
  generalize p.run some s = x at hrun ⊢
  generalize p.run some t = y at hrun ⊢
  cases hrun with
  | some huv => exact congrArg some huv.groups
  | none => rfl

end Alike

section Lines
variable {p : Pattern} {before cs : List Char} {pos : Nat} {c : Char}

theorem searchFrom_of_none (h : p.matchAt false ⟨before, c :: cs, pos, []⟩ = none) :
    p.searchFrom before pos (c :: cs) = p.searchFrom (c :: before) (pos + 1) cs := by
  simp only [searchFrom, h]

theorem searchFrom_of_some {f : Found} (h : p.matchAt false ⟨before, c :: cs, pos, []⟩ = some f) :
    p.searchFrom before pos (c :: cs) = some f := by
  simp only [searchFrom, h]

variable (hp : p.staysOnLine = true) (hm : p.Moves)

include hm in
theorem searchFrom_nil (before : List Char) (pos : Nat) : p.searchFrom before pos [] = none :=
  matchAt_end hm

include hp hm in
/-- What is searched for is on the first line or behind it, and where the line stands does not
matter. -/
theorem searchFrom_append {tail : List Char} (htail : AtLineEnd tail) (u before past : List Char)
    (i j : Nat) : ∃ b k, (p.searchFrom before i (u ++ tail)).map Found.groups =
      ((p.searchFrom past j u).map Found.groups).or ((p.searchFrom b k tail).map Found.groups) := by
  induction u generalizing before past i j with
  | nil =>
    refine ⟨before, i, ?_⟩
    rw [List.nil_append, searchFrom_nil hm past]
    rfl
  | cons c u ih =>
    have halike : Alike tail (i + (c :: u ++ tail).length) (j + (c :: u).length)
        ⟨before, c :: u ++ tail, i, []⟩ ⟨past, c :: u, j, []⟩ := ⟨rfl, rfl, rfl, rfl⟩
    have hat := matchAt_alike htail hp halike
    rw [List.cons_append] at hat ⊢
    cases hleft : p.matchAt false ⟨before, c :: (u ++ tail), i, []⟩ with
    | none =>
      rw [hleft] at hat
      rw [searchFrom_of_none hleft, searchFrom_of_none (Option.map_eq_none_iff.mp hat.symm)]
      exact ih (c :: before) (c :: past) (i + 1) (j + 1)
    | some f =>
      rw [hleft] at hat
      obtain ⟨g, hg, he⟩ := Option.map_eq_some_iff.mp hat.symm
      rw [searchFrom_of_some hleft, searchFrom_of_some hg]
      exact ⟨before, i, congrArg some he.symm⟩

include hp hm in
private theorem searchFrom_groups (before : List Char) (i : Nat) (cs : List Char) :
    (p.searchFrom before i cs).map Found.groups = (p.searchFrom [] 0 cs).map Found.groups := by
  obtain ⟨b, k, he⟩ := searchFrom_append hp hm (show AtLineEnd [] by simp [AtLineEnd]) cs before [] i 0
  rwa [searchFrom_nil hm, Option.map_none, Option.or_none, List.append_nil] at he

include hp hm in
theorem search_unlines {ls : List String} (hne : ls ≠ []) :
    (p.search (unlines ls)).map Found.groups = ls.findSome? fun l => (p.search l).map Found.groups := by
  induction ls with
  | nil => exact absurd rfl hne
  | cons l ls ih =>
    cases ls with
    | nil => cases h : p.search l <;> simp [h]
    | cons l' ls =>
      have hfeed : AtLineEnd ('\n' :: (unlines (l' :: ls)).toList) := by simp [AtLineEnd]
      obtain ⟨b, k, he⟩ := searchFrom_append hp hm hfeed l.toList [] [] 0 0
      -- no match begins with the line feed
      have hskip : (p.searchFrom b k ('\n' :: (unlines (l' :: ls)).toList)).map Found.groups =
          (p.search (unlines (l' :: ls))).map Found.groups := by
        have hnone : p.matchAt false ⟨b, '\n' :: (unlines (l' :: ls)).toList, k, []⟩ = none := by
          rw [matchAt_eq_none]
          intro t ht
          exact absurd (hm _ t ht) (by rw [ht.pos_eq hp hfeed]; exact Nat.lt_irrefl _)
        rw [searchFrom_of_none hnone]
        exact searchFrom_groups hp hm _ _ _
      rw [unlines_cons l (List.cons_ne_nil _ _), List.findSome?_cons, ← ih (List.cons_ne_nil _ _)]
      rw [search, String.toList_append, String.toList_append, List.append_assoc]
      refine he.trans ?_
      rw [hskip]
      change ((p.search l).map Found.groups).or _ = _
      cases (p.search l).map Found.groups <;> rfl

include hm in
theorem head_findAll (s : String) : (p.findAll s).head? = p.search s := by
  have hfrom (before : List Char) (pos : Nat) (cs : List Char) :
      (p.foundFrom before pos cs).head? = p.searchFrom before pos cs := by
    induction cs generalizing before pos with
    | nil =>
      rw [foundFrom_nil hm, searchFrom_nil hm]
      rfl
    | cons c cs ih =>
      cases h : p.matchAt false ⟨before, c :: cs, pos, []⟩ with
      | none =>
        rw [foundFrom_of_none h, searchFrom_of_none h]
        exact ih (c :: before) (pos + 1)
      | some m =>
        obtain ⟨t, -, ht, -⟩ := piecesFrom_of_matches hm h
        rw [foundFrom_of_some hm h ht, searchFrom_of_some h]
        rfl
  exact hfrom [] 0 s.toList

end Lines

end Mender.Pattern
