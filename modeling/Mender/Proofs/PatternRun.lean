import Mender.Proofs.Pattern

/-! How the matcher runs where it has no choice: over a given text, over repetitions that what
follows does not want back, and over a whole text from one match to the next. -/
namespace Mender.Pattern

def Cursor.past (s : Cursor) (w r : List Char) : Cursor :=
  ⟨w.reverse ++ s.before, r, s.pos + w.length, s.groups⟩

theorem Cursor.past_past (s : Cursor) (v w q r : List Char) :
    (s.past v q).past w r = s.past (v ++ w) r := by
  simp [Cursor.past, Nat.add_assoc]

def spelled (w : List Char) (q : Pattern) : Pattern :=
  w.foldr (fun c p => .seq (.char (.literal c)) p) q

section Runs
variable {q : Pattern} {c : CharClass} {k : Continuation} {s : Cursor} {w r : List Char}

theorem run_char {x : Char} (hs : s.rest = x :: r) (hx : c.holds x = true) :
    (char c).run k s = k (s.past [x] r) := by
  simp [run, hs, hx, Cursor.advance, Cursor.past]

theorem run_char_of_not (h : ∀ x ∈ s.rest.head?, c.holds x = false) : (char c).run k s = none := by
  cases hs : s.rest with
  | nil => simp [run, hs]
  | cons x rest => simp [run, hs, h x (by rw [hs]; rfl)]

theorem run_spelled (hs : s.rest = w ++ r) : (spelled w q).run k s = q.run k (s.past w r) := by
  induction w generalizing s with
  | nil =>
    cases s
    cases hs
    rfl
  | cons c w ih =>
    have hc : (spelled (c :: w) q).run k s = (spelled w q).run k (s.past [c] (w ++ r)) :=
      run_char hs (by simp [CharClass.holds])
    rw [hc, ih rfl, Cursor.past_past]
    rfl

theorem run_spelled_of_not (h : ¬ w <+: s.rest) : (spelled w q).run k s = none := by
  induction w generalizing s with
  | nil => exact absurd List.nil_prefix h
  | cons c w ih =>
    change (char (.literal c)).run ((spelled w q).run k) s = none
    cases hs : s.rest with
    | nil => exact run_char_of_not (by simp [hs])
    | cons x rest =>
      by_cases hx : x = c
      · subst hx
        rw [hs, List.cons_prefix_cons] at h
        rw [run_char hs (by simp [CharClass.holds])]
        exact ih fun hw => h ⟨rfl, hw⟩
      · exact run_char_of_not (by simp [hs, CharClass.holds, hx])

theorem run_text (w : List Char) (k : Continuation) (s : Cursor) :
    (text (String.ofList w)).run k s = (spelled w .empty).run k s := by
  have h (w : List Char) : ∀ s, (concat (w.map fun c => .char (.literal c))).run k s =
      (spelled w .empty).run k s := by
    induction w with
    | nil => exact fun s => rfl
    | cons c w ih =>
      intro s
      cases w with
      | nil => rfl
      | cons d w =>
        have hk : (concat ((d :: w).map fun c => .char (.literal c))).run k =
            (spelled (d :: w) .empty).run k := funext ih
        exact congrArg (fun k => (char (.literal c)).run k s) hk
  rw [text, String.toList_ofList, h]

/-- A continuation that goes on nowhere before a character of a class. -/
def Continuation.Refuses (k : Continuation) (P : Char → Prop) : Prop :=
  ∀ t x q, t.rest = x :: q → P x → k t = none

theorem run_many (hs : s.rest = w ++ r) (hw : ∀ x ∈ w, c.holds x = true)
    (hr : ∀ x ∈ r.head?, c.holds x = false)
    (hk : k (s.past w r) ≠ none ∨ k.Refuses fun x => c.holds x = true) :
    (many true (.char c)).run k s = k (s.past w r) := by
  change iterate true (run (.char c)) k s.rest s = _
  rw [hs]
  induction w generalizing s with
  | nil =>
    have he : s.past [] r = s := by
      cases s
      cases hs
      rfl
    rw [he]
    cases r with
    | nil => rfl
    | cons y r =>
      have hy := run_char_of_not (k := fun t =>
        if s.pos < t.pos then iterate true (run (.char c)) k r t else none) (by rwa [hs])
      simp only [List.nil_append, iterate, hy, if_true]
  | cons x w ih =>
    have hx : c.holds x = true := hw x List.mem_cons_self
    have hstep := ih (s := s.past [x] (w ++ r)) rfl
      (fun y hy => hw y (List.mem_cons_of_mem _ hy)) (by rwa [Cursor.past_past])
    have hmore := run_char (k := fun t =>
      if s.pos < t.pos then iterate true (run (.char c)) k (w ++ r) t else none)
      (hs.trans (List.cons_append ..)) hx
    rw [if_pos (by simp [Cursor.past]), hstep, Cursor.past_past] at hmore
    simp only [List.cons_append, List.nil_append, iterate, hmore, if_true]
    cases hf : k (s.past (x :: w) r) with
    | some t => rfl
    | none =>
      rcases hk with hk | hk
      · exact absurd hf hk
      · exact hk s x _ hs hx

def plus (c : CharClass) : Pattern := .seq (.char c) (.many true (.char c))

theorem run_plus (hs : s.rest = w ++ r) (hne : w ≠ []) (hw : ∀ x ∈ w, c.holds x = true)
    (hr : ∀ x ∈ r.head?, c.holds x = false)
    (hk : k (s.past w r) ≠ none ∨ k.Refuses fun x => c.holds x = true) :
    (plus c).run k s = k (s.past w r) := by
  obtain ⟨x, w, rfl⟩ := List.exists_cons_of_ne_nil hne
  have hx : c.holds x = true := hw x List.mem_cons_self
  have hm := run_many (s := s.past [x] (w ++ r)) rfl
    (fun y hy => hw y (List.mem_cons_of_mem _ hy)) hr (by rwa [Cursor.past_past])
  rw [Cursor.past_past] at hm
  exact (run_char hs hx).trans hm

theorem run_plus_of_not (h : ∀ x ∈ s.rest.head?, c.holds x = false) : (plus c).run k s = none :=
  run_char_of_not h

end Runs

def Cursor.noting (s : Cursor) (i : Nat) (w r : List Char) : Cursor :=
  { s.past w r with groups := (i, String.ofList w) :: s.groups }

theorem not_holds_head {c : CharClass} {w : List Char}
    (hw : w.head?.any (fun x => !c.holds x) = true) (r : List Char) :
    ∀ x ∈ (w ++ r).head?, c.holds x = false := by
  obtain ⟨y, hy, hc⟩ := (Option.any_eq_true _ _).mp hw
  intro x hx
  rw [List.head?_append, hy, Option.some_or] at hx
  obtain rfl := Option.some.inj hx
  simpa using hc

/-- From one place the matcher comes to another one, if what follows can go on from there. -/
def Goes (p : Pattern) (s t : Cursor) : Prop :=
  ∀ k : Continuation, k t ≠ none → p.run k s = k t

section Goes
variable {p q : Pattern} {c : CharClass} {s t u : Cursor} {w r : List Char}

theorem Goes.seq (hp : p.Goes s u) (hq : q.Goes u t) : (seq p q).Goes s t := by
  intro k hk
  have hnext := hq k hk
  exact (hp (q.run k) (hnext ▸ hk)).trans hnext

theorem goes_char {x : Char} (hs : s.rest = x :: r) (hx : c.holds x = true) :
    (char c).Goes s (s.past [x] r) :=
  fun _ _ => run_char hs hx

theorem goes_spelled (hs : s.rest = w ++ r) (hq : q.Goes (s.past w r) t) :
    (spelled w q).Goes s t :=
  fun k hk => (run_spelled hs).trans (hq k hk)

theorem goes_many (hs : s.rest = w ++ r) (hw : ∀ x ∈ w, c.holds x = true)
    (hr : ∀ x ∈ r.head?, c.holds x = false) : (many true (.char c)).Goes s (s.past w r) :=
  fun _ hk => run_many hs hw hr (.inl hk)

theorem goes_plus (hs : s.rest = w ++ r) (hne : w ≠ []) (hw : ∀ x ∈ w, c.holds x = true)
    (hr : ∀ x ∈ r.head?, c.holds x = false) : (plus c).Goes s (s.past w r) :=
  fun _ hk => run_plus hs hne hw hr (.inl hk)

theorem Goes.group (hs : s.rest = w ++ r) (h : p.Goes s (s.past w r)) (i : Nat) :
    (group i p).Goes s (s.noting i w r) := by
  intro k hk
  have htake : s.rest.take ((s.past w r).pos - s.pos) = w := by simp [Cursor.past, hs]
  have hrun := h (fun t =>
    k { t with groups := (i, String.ofList (s.rest.take (t.pos - s.pos))) :: t.groups })
  rw [htake] at hrun
  exact hrun hk

theorem run_alt_left {a b : Pattern} {k : Continuation} (h : a.run k s ≠ none) :
    (alt a b).run k s = a.run k s := by
  obtain ⟨t, ht⟩ := Option.ne_none_iff_exists'.mp h
  simp only [run, ht]

private theorem run_lazy {k : Continuation} (hs : s.rest = w ++ r) (hw : ∀ x ∈ w, c.holds x = true)
    (hk : ∀ u v, w = u ++ v → v ≠ [] → k (s.past u (v ++ r)) = none)
    (hend : k (s.past w r) ≠ none) :
    (many false (.alt (.char c) q)).run k s = k (s.past w r) := by
  change iterate false (run (.alt (.char c) q)) k s.rest s = _
  rw [hs]
  have hstart {r : List Char} {s : Cursor} (hs : s.rest = r) : s.past [] r = s := by
    cases s
    cases hs
    rfl
  induction w generalizing s with
  | nil =>
    rw [hstart (show s.rest = r from hs)] at hend ⊢
    cases r with
    | nil => rfl
    | cons y r =>
      obtain ⟨t, ht⟩ := Option.ne_none_iff_exists'.mp hend
      simp only [List.nil_append, iterate, ht, Bool.false_eq_true, if_false]
  | cons x w ih =>
    have hnone : k s = none := by
      have h := hk [] (x :: w) rfl (List.cons_ne_nil x w)
      rwa [hstart hs] at h
    have hstep := ih (s := s.past [x] (w ++ r)) rfl (fun y hy => hw y (List.mem_cons_of_mem _ hy))
      (fun u v hu hv => by
        rw [Cursor.past_past]
        exact hk (x :: u) v (by rw [hu, List.cons_append]) hv)
      (by rwa [Cursor.past_past])
    have hmore := run_char (c := c) (k := fun t =>
      if s.pos < t.pos then iterate false (run (.alt (.char c) q)) k (w ++ r) t else none)
      (hs.trans (List.cons_append ..)) (hw x List.mem_cons_self)
    rw [if_pos (by simp [Cursor.past]), hstep, Cursor.past_past] at hmore
    have halt := (run_alt_left (b := q) (hmore ▸ hend)).trans hmore
    simp only [List.cons_append, List.nil_append, iterate, hnone, Bool.false_eq_true, if_false,
      halt]

theorem goes_lazy {mark : Char} (hs : s.rest = w ++ mark :: r) (hw : ∀ x ∈ w, c.holds x = true)
    (hmark : mark ∉ w) (i : Nat) :
    (seq (group i (many false (.alt (.char c) q))) (.char (.literal mark))).Goes s
      ((s.noting i w (mark :: r)).past [mark] r) := by
  intro k hk
  have htake : s.rest.take ((s.past w (mark :: r)).pos - s.pos) = w := by simp [Cursor.past, hs]
  have hclose : (char (.literal mark)).run k (s.noting i w (mark :: r)) =
      k ((s.noting i w (mark :: r)).past [mark] r) := run_char rfl (by simp [CharClass.holds])
  have hrun := run_lazy (q := q) (k := fun t => (char (.literal mark)).run k
    { t with groups := (i, String.ofList (s.rest.take (t.pos - s.pos))) :: t.groups }) hs hw
    (fun u v hu hv => by
      obtain ⟨x, v, rfl⟩ := List.exists_cons_of_ne_nil hv
      refine run_char_of_not fun y hy => ?_
      obtain rfl : x = y := Option.some.inj hy
      have hne : x ≠ mark := fun he => hmark (he ▸ hu ▸ List.mem_append_right u List.mem_cons_self)
      simpa [CharClass.holds] using hne)
    (by
      rw [htake]
      exact hclose ▸ hk)
  rw [htake] at hrun
  exact hrun.trans hclose

end Goes

def foundFrom (p : Pattern) (before : List Char) (pos : Nat) (cs : List Char) : List Found :=
  (p.piecesFrom 0 before pos cs).filterMap fun
    | .char _ => none
    | .found m => some m

theorem findAll_eq (p : Pattern) (s : String) : p.findAll s = p.foundFrom [] 0 s.toList := rfl

theorem matchAt_eq (p : Pattern) (s : Cursor) : p.matchAt false s = (p.run some s).map fun t =>
    ⟨s.pos, String.ofList (s.rest.take (t.pos - s.pos)), t.groups⟩ := by
  simp only [matchAt, Bool.false_and, Bool.false_eq_true, if_false]
  cases p.run some s <;> rfl

theorem Goes.matchAt {p : Pattern} {s t : Cursor} (h : p.Goes s t) : p.matchAt false s =
    some ⟨s.pos, String.ofList (s.rest.take (t.pos - s.pos)), t.groups⟩ := by
  rw [matchAt_eq, h some (by simp)]
  rfl

section Found
variable {p : Pattern} (hp : p.Moves) {before cs : List Char} {pos : Nat}

include hp in
theorem foundFrom_nil : p.foundFrom before pos [] = [] := by simp [foundFrom, hp]

theorem foundFrom_of_none {c : Char} (h : p.matchAt false ⟨before, c :: cs, pos, []⟩ = none) :
    p.foundFrom before pos (c :: cs) = p.foundFrom (c :: before) (pos + 1) cs := by
  rw [foundFrom, piecesFrom_of_none h]
  rfl

include hp in
theorem foundFrom_of_some {r : List Char} {m : Found}
    (h : p.matchAt false ⟨before, cs, pos, []⟩ = some m) (hr : cs = m.text.toList ++ r) :
    p.foundFrom before pos cs =
      m :: p.foundFrom (m.text.toList.reverse ++ before) (pos + m.text.toList.length) r := by
  obtain ⟨t, -, ht, he⟩ := piecesFrom_of_matches hp h
  obtain rfl : t.rest = r := List.append_cancel_left (ht.symm.trans hr)
  rw [foundFrom, he]
  rfl

end Found

theorem start_of_matchAt {p : Pattern} {nonempty : Bool} {s : Cursor} {m : Found}
    (h : p.matchAt nonempty s = some m) : m.start = s.pos := by
  unfold matchAt at h
  split at h
  · cases h
  · exact Option.some.inj h ▸ rfl

section Search
variable {p : Pattern} {s : String} {m : Found} {pre post : List Char}

private theorem searchFrom_spec (p : Pattern) (before : List Char) (pos : Nat) (cs : List Char) :
    (p.searchFrom before pos cs = none → ∀ u v, cs = u ++ v →
      p.matchAt false ⟨u.reverse ++ before, v, pos + u.length, []⟩ = none) ∧
    ∀ m, p.searchFrom before pos cs = some m → ∃ u v, cs = u ++ v ∧
      p.matchAt false ⟨u.reverse ++ before, v, pos + u.length, []⟩ = some m ∧
      ∀ x y, cs = x ++ y → x.length < u.length →
        p.matchAt false ⟨x.reverse ++ before, y, pos + x.length, []⟩ = none := by
  induction cs generalizing before pos with
  | nil =>
    refine ⟨fun h u v he => ?_, fun m h => ⟨[], [], rfl, h, fun x y _ hlt => ?_⟩⟩
    · obtain ⟨rfl, rfl⟩ := List.append_eq_nil_iff.mp he.symm
      exact h
    · exact absurd hlt (Nat.not_lt_zero _)
  | cons c cs ih =>
    have hplace (u : List Char) : (c :: u).reverse ++ before = u.reverse ++ c :: before ∧
        pos + (c :: u).length = pos + 1 + u.length := by
      simp [Nat.add_assoc, Nat.add_comm 1]
    obtain ⟨hnone, hsome⟩ := ih (c :: before) (pos + 1)
    unfold searchFrom
    cases hat : p.matchAt false ⟨before, c :: cs, pos, []⟩ with
    | some first =>
      refine ⟨fun h => (by cases h), fun m h => ⟨[], c :: cs, rfl, ?_, fun x y _ hlt => ?_⟩⟩
      · exact hat.trans h
      · exact absurd hlt (Nat.not_lt_zero _)
    | none =>
      refine ⟨fun h u v he => ?_, fun m h => ?_⟩
      · cases u with
        | nil => exact (show c :: cs = v from he) ▸ hat
        | cons d u =>
          obtain ⟨rfl, htail⟩ := List.cons.inj he
          rw [(hplace u).1, (hplace u).2]
          exact hnone h u v htail
      · obtain ⟨u, v, he, hm, hfirst⟩ := hsome m h
        refine ⟨c :: u, v, by rw [he, List.cons_append], ?_, fun x y hxy hlt => ?_⟩
        · rw [(hplace u).1, (hplace u).2]
          exact hm
        · cases x with
          | nil => exact (show c :: cs = y from hxy) ▸ hat
          | cons d x =>
            obtain ⟨rfl, htail⟩ := List.cons.inj hxy
            rw [(hplace x).1, (hplace x).2]
            exact hfirst x y htail (Nat.lt_of_succ_lt_succ hlt)

theorem matchAt_of_search_eq_none (h : p.search s = none)
    (hs : s.toList = pre ++ post) : p.matchAt false (.between pre post) = none := by
  have hall := (searchFrom_spec p [] 0 s.toList).1 h pre post hs
  rwa [List.append_nil, Nat.zero_add] at hall

theorem first_of_search (h : p.search s = some m) : ∃ pre post, s.toList = pre ++ post ∧
    p.matchAt false (.between pre post) = some m ∧ m.start = pre.length ∧
    ∀ x y, s.toList = x ++ y → x.length < pre.length → p.matchAt false (.between x y) = none := by
  obtain ⟨pre, post, hs, hm, hfirst⟩ := (searchFrom_spec p [] 0 s.toList).2 m h
  rw [List.append_nil, Nat.zero_add] at hm
  refine ⟨pre, post, hs, hm, start_of_matchAt hm, fun x y hxy hlt => ?_⟩
  have hnone := hfirst x y hxy hlt
  rwa [List.append_nil, Nat.zero_add] at hnone

theorem search_eq_some_of_first (hs : s.toList = pre ++ post)
    (hm : p.matchAt false (.between pre post) = some m)
    (hfirst : ∀ x y t, s.toList = x ++ y → p.Matches (.between x y) t → pre.length ≤ x.length) :
    p.search s = some m := by
  cases hfound : p.search s with
  | none =>
    rw [matchAt_of_search_eq_none hfound hs] at hm
    cases hm
  | some found =>
    obtain ⟨x, y, hxy, hat, -, hbefore⟩ := first_of_search hfound
    obtain ⟨t, -, ht, -⟩ := matchAt_eq_some hat
    have hle := hfirst x y t hxy ht
    have hge : x.length ≤ pre.length := by
      refine Nat.le_of_not_lt fun hlt => ?_
      rw [hbefore pre post hs hlt] at hm
      cases hm
    obtain ⟨rfl, rfl⟩ := List.append_inj (hxy.symm.trans hs) (by omega)
    exact hat.symm.trans hm

/-- What stands before the first match ends where a match begins, or it is the whole text; no match
begins in it. -/
theorem beforeFirst_spec (p : Pattern) (s : String) : ∃ post,
    s.toList = (p.beforeFirst s).toList ++ post ∧
    (post = [] ∨ ∃ t, p.Matches (.between (p.beforeFirst s).toList post) t) ∧
    ∀ x y, s.toList = x ++ y → x.length < (p.beforeFirst s).toList.length →
      ∀ t, ¬ p.Matches (.between x y) t := by
  unfold beforeFirst
  cases h : p.search s with
  | none =>
    refine ⟨[], (List.append_nil _).symm, .inl rfl, fun x y hxy _ => ?_⟩
    exact matchAt_eq_none.mp (matchAt_of_search_eq_none h hxy)
  | some m =>
    obtain ⟨pre, post, hs, hm, hstart, hfirst⟩ := first_of_search h
    obtain ⟨t, w, ht, -⟩ := matchAt_eq_some hm
    have htake : (String.ofList (s.toList.take m.start)).toList = pre := by
      rw [String.toList_ofList, hs, hstart, List.take_left]
    simp only [htake]
    exact ⟨post, hs, .inr ⟨t, ht⟩, fun x y hxy hlt => matchAt_eq_none.mp (hfirst x y hxy hlt)⟩

theorem occurs_of_matches {t : Cursor} (hs : s.toList = pre ++ post)
    (h : p.Matches (.between pre post) t) : p.occurs s = true := by
  rw [occurs, ← Option.ne_none_iff_isSome]
  intro hnone
  exact matchAt_eq_none.mp (matchAt_of_search_eq_none hnone hs) t h

end Search

theorem matches_spelled {w : List Char} {q : Pattern} {s t : Cursor}
    (h : (spelled w q).Matches s t) : ∃ u, s.Reads w u ∧ q.Matches u t := by
  induction w generalizing s with
  | nil => exact ⟨s, .refl s, h⟩
  | cons c w ih =>
    obtain ⟨v, hv, hm⟩ := h
    obtain ⟨x, hx, hr⟩ := matches_char.mp hv
    obtain rfl : x = c := by simpa [CharClass.holds] using hx
    obtain ⟨u, hu, hq⟩ := ih hm
    exact ⟨u, hr.trans hu, hq⟩

theorem moves_spelled {w : List Char} (q : Pattern) (h : w ≠ []) : (spelled w q).Moves := by
  intro s t ht
  obtain ⟨u, hu, hq⟩ := matches_spelled ht
  obtain ⟨v, hv⟩ := hq.passes
  have hpos := List.length_pos_iff.mpr h
  rw [hv.pos, hu.pos]
  omega

end Mender.Pattern
