import Mender.Proofs.PatternRun

/-! What the groups of a match hold: pieces of the text, each covered by what stands inside its
group. -/
namespace Mender.Pattern
open Relation
variable {p : Pattern} {qs : List (Nat × Pattern)} {s : String} {m : Found}

/-- The groups that a match of a pattern can remember, with what stands inside them. Conditions on
the surroundings remember none. -/
def inside : Pattern → List (Nat × Pattern)
  | .seq a b => a.inside ++ b.inside
  | .alt a b => a.inside ++ b.inside
  | .many _ p => p.inside
  | .group i p => (i, p) :: p.inside
  | _ => []

/-- A piece of the text behind a place is covered by what stands inside a group. -/
def Covered (qs : List (Nat × Pattern)) (rest : List Char) (g : Nat × String) : Prop :=
  ∃ q u v, (g.1, q) ∈ qs ∧ q.Matches u v ∧ u.Passes g.2.toList v ∧ u.rest <:+ rest

theorem Covered.mono {qs rs : List (Nat × Pattern)} {x y : List Char} {g : Nat × String}
    (h : Covered qs x g) (hq : qs ⊆ rs) (hx : x <:+ y) : Covered rs y g := by
  obtain ⟨q, u, v, hm, hu, hp, hr⟩ := h
  exact ⟨q, u, v, hq hm, hu, hp, hr.trans hx⟩

def Captures (qs : List (Nat × Pattern)) (s t : Cursor) : Prop :=
  ∃ gs, t.groups = gs ++ s.groups ∧ ∀ g ∈ gs, Covered qs s.rest g

private theorem Captures.of_eq {s t : Cursor} (h : t.groups = s.groups) :
    Captures qs s t := ⟨[], h, by simp⟩

private theorem Captures.mono {qs rs : List (Nat × Pattern)} {s t : Cursor} (h : Captures qs s t)
    (hq : qs ⊆ rs) : Captures rs s t := by
  obtain ⟨gs, he, hc⟩ := h
  exact ⟨gs, he, fun g hg => (hc g hg).mono hq (List.suffix_refl _)⟩

private theorem Captures.trans {s t u : Cursor} {w : List Char}
    (h : Captures qs s t) (hw : s.Passes w t) (k : Captures qs t u) : Captures qs s u := by
  obtain ⟨gs, hg, hc⟩ := h
  obtain ⟨fs, hf, kc⟩ := k
  refine ⟨fs ++ gs, by rw [hf, hg, List.append_assoc], fun g hm => ?_⟩
  rcases List.mem_append.mp hm with hm | hm
  · exact (kc g hm).mono (List.Subset.refl _) ⟨w, hw.rest.symm⟩
  · exact hc g hm

/-- Every group that a match remembers holds a piece of the text that its inside covers. -/
private theorem Matches.captures {s t : Cursor} (h : p.Matches s t) : Captures p.inside s t := by
  induction p generalizing s t with
  | empty => exact .of_eq (congrArg Cursor.groups h)
  | char c =>
    obtain ⟨x, rest, -, -, rfl⟩ := h
    exact .of_eq rfl
  | seq a b ha hb =>
    obtain ⟨u, hu, ht⟩ := h
    obtain ⟨w, hw⟩ := hu.passes
    exact ((ha hu).mono (List.subset_append_left ..)).trans hw
      ((hb ht).mono (List.subset_append_right ..))
  | alt a b ha hb =>
    rcases h with h | h
    · exact (ha h).mono (List.subset_append_left ..)
    · exact (hb h).mono (List.subset_append_right ..)
  | many greedy p ih =>
    unfold Matches at h
    -- the places between the repetitions lie one behind the other
    have hall : (∃ w, s.Passes w t) ∧ Captures p.inside s t := by
      induction h with
      | refl => exact ⟨⟨[], .refl s⟩, .of_eq rfl⟩
      | tail _ hstep hs =>
        obtain ⟨⟨v, hv⟩, hc⟩ := hs
        obtain ⟨w, hw⟩ := hstep.1.passes
        exact ⟨⟨v ++ w, hv.trans hw⟩, hc.trans hv (ih hstep.1)⟩
    exact hall.2
  | group i p ih =>
    obtain ⟨u, hu, rfl⟩ := h
    obtain ⟨w, hw⟩ := hu.passes
    obtain ⟨gs, hg, hc⟩ := ih hu
    refine ⟨(i, String.ofList (s.rest.take (u.pos - s.pos))) :: gs, by simp [hg], fun g hm => ?_⟩
    rcases List.mem_cons.mp hm with rfl | hm
    · have htext : s.rest.take (u.pos - s.pos) = w := by simp [hw.pos, hw.rest]
      refine ⟨p, s, u, List.mem_cons_self, hu, ?_, List.suffix_refl _⟩
      rwa [String.toList_ofList, htext]
    · exact (hc g hm).mono (List.subset_cons_self ..) (List.suffix_refl _)
  | anchor a => exact .of_eq (congrArg Cursor.groups h.2)
  | notAhead p _ => exact .of_eq (congrArg Cursor.groups h.2)
  | notBehind w => exact .of_eq (congrArg Cursor.groups h.2)

/-- The groups of a match hold pieces of a text that their insides cover. -/
def Found.DrawnFrom (m : Found) (p : Pattern) (s : String) : Prop :=
  ∀ g ∈ m.groups, Covered p.inside s.toList g

theorem drawn_of_matches {u t : Cursor}
    (hr : u.rest <:+ s.toList) (hu : u.groups = []) (ht : p.Matches u t)
    (hm : m.groups = t.groups) : m.DrawnFrom p s := by
  obtain ⟨gs, hg, hc⟩ := ht.captures
  intro g hgm
  rw [hm, hg, hu, List.append_nil] at hgm
  exact (hc g hgm).mono (List.Subset.refl _) hr

theorem drawn_of_search (h : p.search s = some m) : m.DrawnFrom p s := by
  obtain ⟨pre, u, t, hs, hu, ht, hm⟩ := search_eq_some h
  exact drawn_of_matches ⟨pre, hs.symm⟩ hu ht hm

theorem drawn_of_matchAt {nonempty : Bool} {u : Cursor}
    (h : p.matchAt nonempty u = some m) (hu : u.groups = []) (hr : u.rest <:+ s.toList) :
    m.DrawnFrom p s := by
  obtain ⟨t, -, ht, -, -, hm⟩ := matchAt_eq_some h
  exact drawn_of_matches hr hu ht hm

private theorem exists_matchAt {u : Cursor} (h : m ∈ p.matchesAt u) :
    ∃ nonempty, p.matchAt nonempty u = some m := by
  unfold matchesAt at h
  split at h
  · cases h
  · rename_i first hfirst
    split at h
    · split at h
      · exact ⟨_, List.mem_singleton.mp h ▸ hfirst⟩
      · rename_i second hsecond
        rcases List.mem_cons.mp h with rfl | h
        · exact ⟨_, hfirst⟩
        · exact ⟨_, List.mem_singleton.mp h ▸ hsecond⟩
    · exact ⟨_, List.mem_singleton.mp h ▸ hfirst⟩

theorem mem_pieces {piece : Piece} (h : piece ∈ p.pieces s) :
    (∃ c ∈ s.toList, piece = .char c) ∨ ∃ m u nonempty, piece = .found m ∧
      p.matchAt nonempty u = some m ∧ u.groups = [] ∧ u.rest <:+ s.toList := by
  have hmatch {u : Cursor} (hm : piece ∈ (p.matchesAt u).map Piece.found) (hu : u.groups = [])
      (hr : u.rest <:+ s.toList) : ∃ m u nonempty, piece = .found m ∧
        p.matchAt nonempty u = some m ∧ u.groups = [] ∧ u.rest <:+ s.toList := by
    obtain ⟨m, hmem, rfl⟩ := List.mem_map.mp hm
    obtain ⟨nonempty, hat⟩ := exists_matchAt hmem
    exact ⟨m, u, nonempty, rfl, hat, hu, hr⟩
  have hfrom (skip : Nat) (before : List Char) (pos : Nat) (cs : List Char) (hr : cs <:+ s.toList)
      (hm : piece ∈ p.piecesFrom skip before pos cs) : (∃ c ∈ s.toList, piece = .char c) ∨
        ∃ m u nonempty, piece = .found m ∧ p.matchAt nonempty u = some m ∧ u.groups = [] ∧
          u.rest <:+ s.toList := by
    induction cs generalizing skip before pos with
    | nil =>
      cases skip with
      | zero => exact .inr (hmatch hm rfl hr)
      | succ skip => cases hm
    | cons c cs ih =>
      have later := fun skip before pos => ih skip before pos ((List.suffix_cons c cs).trans hr)
      cases skip with
      | succ skip => exact later _ _ _ hm
      | zero =>
        unfold piecesFrom at hm
        rcases List.mem_append.mp hm with hm | hm
        · exact .inr (hmatch hm rfl hr)
        · split at hm
          · rcases List.mem_cons.mp hm with rfl | hm
            · exact .inl ⟨c, hr.subset List.mem_cons_self, rfl⟩
            · exact later _ _ _ hm
          · exact later _ _ _ hm
  exact hfrom 0 [] 0 _ (List.suffix_refl _) h

theorem drawn_of_findAll (h : m ∈ p.findAll s) : m.DrawnFrom p s := by
  obtain ⟨piece, hp, he⟩ := List.mem_filterMap.mp h
  rcases mem_pieces hp with ⟨c, -, rfl⟩ | ⟨n, u, nonempty, rfl, hat, hu, hr⟩
  · cases he
  · exact Option.some.inj he ▸ drawn_of_matchAt hat hu hr

theorem matches_plus {c : CharClass} {s t : Cursor} (h : (plus c).Matches s t) :
    ∃ w, s.Reads w t ∧ (∀ x ∈ w, c.holds x = true) ∧ w ≠ [] := by
  obtain ⟨u, hu, ht⟩ := h
  obtain ⟨x, hx, hr⟩ := matches_char.mp hu
  obtain ⟨w, hw, hk⟩ := matches_many_char.mp ht
  exact ⟨[x] ++ w, hr.trans hk, List.forall_mem_cons.mpr ⟨hx, hw⟩, List.cons_ne_nil x w⟩

theorem Found.DrawnFrom.covered (h : m.DrawnFrom p s)
    (i : Nat) : m.group i = "" ∨ Covered p.inside s.toList (i, m.group i) := by
  cases hg : m.group? i with
  | none => exact .inl (by simp [Found.group, hg])
  | some g =>
    have hmem : (i, g) ∈ m.groups := by
      obtain ⟨l, r, hl, -⟩ := List.lookup_eq_some_iff.mp hg
      simp [hl]
    exact .inr (by simpa [Found.group, hg] using h _ hmem)

theorem Covered.isInfix {rest : List Char} {g : Nat × String}
    (h : Covered qs rest g) : g.2.toList <:+: rest := by
  obtain ⟨q, u, v, -, -, hp, hr⟩ := h
  exact (List.IsPrefix.isInfix ⟨v.rest, hp.rest.symm⟩).trans hr.isInfix

theorem Found.DrawnFrom.group {c : CharClass} {i : Nat}
    (h : m.DrawnFrom p s) (hi : ∀ e ∈ p.inside, e.1 = i → e.2 = plus c) :
    (m.group i).toList <:+: s.toList ∧ ∀ x ∈ (m.group i).toList, c.holds x = true := by
  rcases h.covered i with he | hc
  · simp [he]
  · refine ⟨hc.isInfix, ?_⟩
    obtain ⟨q, u, v, hq, hm, hp, -⟩ := hc
    obtain rfl : q = plus c := hi _ hq rfl
    obtain ⟨w, hw, hall, -⟩ := matches_plus hm
    have he : w = (m.group i).toList := List.append_cancel_right (hw.rest.symm.trans hp.rest)
    exact he ▸ hall

end Mender.Pattern
