import Mathlib.Logic.Relation
import Mender.Pattern.Search

/-! What a pattern matches, said without the order in which the ways are tried: a relation between
the places before and after. The matcher finds a match exactly where the relation has one. -/
namespace Mender.Pattern
open Relation
variable {p : Pattern} {s t : Cursor} {k : Continuation} {v w : List Char} {greedy : Bool}

/-- From the place `s` a pattern can lead to the place `t`. -/
def Matches : Pattern → Cursor → Cursor → Prop
  | .empty, s, t => t = s
  | .char c, s, t => ∃ x rest, s.rest = x :: rest ∧ c.holds x = true ∧ t = s.advance x rest
  | .seq a b, s, t => ∃ u, a.Matches s u ∧ b.Matches u t
  | .alt a b, s, t => a.Matches s t ∨ b.Matches s t
  | .many _ p, s, t => ReflTransGen (fun u v => p.Matches u v ∧ u.pos < v.pos) s t
  | .group i p, s, t => ∃ u, p.Matches s u ∧
      t = { u with groups := (i, String.ofList (s.rest.take (u.pos - s.pos))) :: u.groups }
  | .anchor a, s, t => a.holds s = true ∧ t = s
  | .notAhead p, s, t => (∀ u, ¬ p.Matches s u) ∧ t = s
  | .notBehind w, s, t => w.reverse.isPrefixOf s.before = false ∧ t = s

/-- The place `t` lies behind the text `w` that follows the place `s`. -/
structure Cursor.Passes (s : Cursor) (w : List Char) (t : Cursor) : Prop where
  rest : s.rest = w ++ t.rest
  before : t.before = w.reverse ++ s.before
  pos : t.pos = s.pos + w.length

theorem Cursor.Passes.refl (s : Cursor) : s.Passes [] s := ⟨rfl, rfl, rfl⟩

theorem Cursor.Passes.trans {s t u : Cursor} (hs : s.Passes v t)
    (ht : t.Passes w u) : s.Passes (v ++ w) u where
  rest := by rw [hs.rest, ht.rest, List.append_assoc]
  before := by rw [ht.before, hs.before, List.reverse_append, List.append_assoc]
  pos := by rw [ht.pos, hs.pos, List.length_append, Nat.add_assoc]

theorem Matches.passes (h : p.Matches s t) : ∃ w, s.Passes w t := by
  induction p generalizing s t with
  | empty => exact ⟨[], h ▸ .refl s⟩
  | char c =>
    obtain ⟨x, rest, hr, -, rfl⟩ := h
    exact ⟨[x], hr, rfl, rfl⟩
  | seq a b ha hb =>
    obtain ⟨u, h1, h2⟩ := h
    obtain ⟨v, hv⟩ := ha h1
    obtain ⟨w, hw⟩ := hb h2
    exact ⟨v ++ w, hv.trans hw⟩
  | alt a b ha hb => exact h.elim ha hb
  | many greedy p ih =>
    induction h with
    | refl => exact ⟨[], .refl s⟩
    | tail _ hstep hs =>
      obtain ⟨v, hv⟩ := hs
      obtain ⟨w, hw⟩ := ih hstep.1
      exact ⟨v ++ w, hv.trans hw⟩
  | group i p ih =>
    obtain ⟨u, hu, rfl⟩ := h
    obtain ⟨w, hw⟩ := ih hu
    exact ⟨w, hw.rest, hw.before, hw.pos⟩
  | anchor a => exact ⟨[], h.2 ▸ .refl s⟩
  | notAhead p _ => exact ⟨[], h.2 ▸ .refl s⟩
  | notBehind w => exact ⟨[], h.2 ▸ .refl s⟩

def dropParts : Nat → Pattern → Pattern
  | n + 1, .seq _ b => dropParts n b
  | _, p => p

theorem Matches.dropParts (n : Nat) (h : p.Matches s t) :
    ∃ u w, s.rest = w ++ u.rest ∧ (p.dropParts n).Matches u t := by
  induction n generalizing p s with
  | zero => exact ⟨s, [], rfl, by simpa [Pattern.dropParts] using h⟩
  | succ n ih =>
    cases p with
    | seq a b =>
      obtain ⟨v, hv, hb⟩ := h
      obtain ⟨w, hw⟩ := hv.passes
      obtain ⟨u, w', hu, hm⟩ := ih hb
      exact ⟨u, w ++ w', by rw [hw.rest, hu, List.append_assoc], hm⟩
    | _ => exact ⟨s, [], rfl, h⟩

/-- As `Passes`, and no group is remembered on the way. -/
structure Cursor.Reads (s : Cursor) (w : List Char) (t : Cursor) : Prop extends s.Passes w t where
  groups : t.groups = s.groups

theorem Cursor.Reads.refl (s : Cursor) : s.Reads [] s := ⟨.refl s, rfl⟩

theorem Cursor.Reads.trans {s t u : Cursor} (hs : s.Reads v t)
    (ht : t.Reads w u) : s.Reads (v ++ w) u :=
  ⟨hs.toPasses.trans ht.toPasses, ht.groups.trans hs.groups⟩

theorem Cursor.Reads.eq_of_nil (h : s.Reads [] t) : t = s := by
  obtain ⟨⟨hr, hb, hp⟩, hg⟩ := h
  cases s
  cases t
  simp_all

theorem Cursor.exists_reads {w r : List Char} (h : s.rest = w ++ r) :
    ∃ t, s.Reads w t ∧ t.rest = r :=
  ⟨⟨w.reverse ++ s.before, r, s.pos + w.length, s.groups⟩, ⟨⟨h, rfl, rfl⟩, rfl⟩, rfl⟩

theorem Cursor.Reads.split {s u : Cursor} (h : s.Reads (v ++ w) u) :
    ∃ t, s.Reads v t ∧ t.Reads w u := by
  obtain ⟨t, ht, hr⟩ := Cursor.exists_reads (h.rest.trans (List.append_assoc ..))
  refine ⟨t, ht, ⟨hr, ?_, ?_⟩, ?_⟩
  · rw [h.before, ht.before, List.reverse_append, List.append_assoc]
  · rw [h.pos, ht.pos, List.length_append, Nat.add_assoc]
  · rw [h.groups, ht.groups]

theorem matches_char {c : CharClass} :
    (char c).Matches s t ↔ ∃ x, c.holds x = true ∧ s.Reads [x] t := by
  constructor
  · rintro ⟨x, rest, hr, hx, rfl⟩
    exact ⟨x, hx, ⟨hr, rfl, rfl⟩, rfl⟩
  · rintro ⟨x, hx, ⟨hr, hb, hp⟩, hg⟩
    refine ⟨x, t.rest, hr, hx, ?_⟩
    cases t
    simp_all [Cursor.advance]

theorem matches_many_char {c : CharClass} :
    (many greedy (char c)).Matches s t ↔ ∃ w, (∀ x ∈ w, c.holds x = true) ∧ s.Reads w t := by
  constructor
  · intro h
    unfold Matches at h
    induction h with
    | refl => exact ⟨[], by simp, .refl s⟩
    | tail _ hstep ih =>
      obtain ⟨w, hw, hr⟩ := ih
      obtain ⟨x, hx, hc⟩ := matches_char.mp hstep.1
      refine ⟨w ++ [x], fun y hy => ?_, hr.trans hc⟩
      rcases List.mem_append.mp hy with hy | hy
      · exact hw y hy
      · exact List.mem_singleton.mp hy ▸ hx
  · rintro ⟨w, hw, hr⟩
    unfold Matches
    induction w generalizing s with
    | nil => exact hr.eq_of_nil ▸ .refl
    | cons x w ih =>
      obtain ⟨u, hu, ht⟩ := Cursor.Reads.split (v := [x]) hr
      refine .head ⟨matches_char.mpr ⟨x, hw x List.mem_cons_self, hu⟩, ?_⟩
        (ih (fun y hy => hw y (List.mem_cons_of_mem _ hy)) ht)
      simp [hu.pos]

private theorem iterate_sound {step : Continuation → Cursor → Option Cursor}
    {M : Cursor → Cursor → Prop}
    (hs : ∀ k s r, step k s = some r → ∃ t, M s t ∧ k t = some r)
    {fuel : List Char} {s r : Cursor} (h : iterate greedy step k fuel s = some r) :
    ∃ t, ReflTransGen (fun u v => M u v ∧ u.pos < v.pos) s t ∧ k t = some r := by
  induction fuel generalizing s with
  | nil => exact ⟨s, .refl, h⟩
  | cons c fuel ih =>
    have hmore (hm : step (fun t => if s.pos < t.pos then iterate greedy step k fuel t else none) s
        = some r) : ∃ t, ReflTransGen (fun u v => M u v ∧ u.pos < v.pos) s t ∧ k t = some r := by
      obtain ⟨t, ht, hk⟩ := hs _ _ _ hm
      split at hk
      · rename_i hlt
        obtain ⟨u, hu, hr⟩ := ih hk
        exact ⟨u, .head ⟨ht, hlt⟩ hu, hr⟩
      · simp at hk
    unfold iterate at h
    simp only at h
    split at h
    · split at h
      · rename_i he
        exact hmore (he.trans h)
      · exact ⟨s, .refl, h⟩
    · split at h
      · rename_i he
        exact ⟨s, .refl, he.trans h⟩
      · exact hmore h

private theorem iterate_complete {step : Continuation → Cursor → Option Cursor}
    {M : Cursor → Cursor → Prop} (hp : ∀ s t, M s t → ∃ w, s.Passes w t)
    (hc : ∀ k s t, M s t → (k t).isSome → (step k s).isSome)
    {fuel : List Char} (hf : s.rest.length ≤ fuel.length)
    (h : ReflTransGen (fun u v => M u v ∧ u.pos < v.pos) s t) (hk : (k t).isSome) :
    (iterate greedy step k fuel s).isSome := by
  induction fuel generalizing s with
  | nil =>
    rcases h.cases_head with rfl | ⟨u, ⟨hu, hlt⟩, -⟩
    · exact hk
    · obtain ⟨w, hw⟩ := hp _ _ hu
      have hl := congrArg List.length hw.rest
      have := hw.pos
      simp only [List.length_append, List.length_nil] at hl hf
      omega
  | cons c fuel ih =>
    have hor : (k s).isSome ∨
        (step (fun t => if s.pos < t.pos then iterate greedy step k fuel t else none) s).isSome := by
      rcases h.cases_head with rfl | ⟨u, ⟨hu, hlt⟩, ht⟩
      · exact .inl hk
      · right
        obtain ⟨w, hw⟩ := hp _ _ hu
        have hl := congrArg List.length hw.rest
        have := hw.pos
        simp only [List.length_append, List.length_cons] at hl hf
        apply hc _ _ u hu
        simp only [hlt, if_true]
        exact ih (by omega) ht
    unfold iterate
    simp only
    split
    · split
      · rfl
      · rename_i hn
        simpa [hn] using hor
    · split
      · rfl
      · rename_i hn
        simpa [hn] using hor

/-- The matcher and the relation agree; both directions go together, since a negative condition
turns one into the other. -/
private theorem run_spec (p : Pattern) :
    (∀ k s r, p.run k s = some r → ∃ t, p.Matches s t ∧ k t = some r) ∧
    (∀ k s t, p.Matches s t → (k t).isSome → (p.run k s).isSome) := by
  induction p with
  | empty => exact ⟨fun k s r h => ⟨s, rfl, h⟩, fun k s t h hk => h ▸ hk⟩
  | char c =>
    constructor
    · intro k s r h
      unfold run at h
      split at h
      · simp at h
      · rename_i x rest hr
        split at h
        · rename_i hx
          exact ⟨_, ⟨x, rest, hr, hx, rfl⟩, h⟩
        · simp at h
    · rintro k s _ ⟨x, rest, hr, hx, rfl⟩ hk
      simpa [run, hr, hx] using hk
  | seq a b ha hb =>
    constructor
    · intro k s r h
      obtain ⟨u, hu, hr⟩ := ha.1 _ _ _ h
      obtain ⟨t, ht, hk⟩ := hb.1 _ _ _ hr
      exact ⟨t, ⟨u, hu, ht⟩, hk⟩
    · rintro k s t ⟨u, hu, ht⟩ hk
      exact ha.2 _ _ u hu (hb.2 _ _ t ht hk)
  | alt a b ha hb =>
    constructor
    · intro k s r h
      unfold run at h
      split at h
      · rename_i he
        obtain ⟨t, ht, hk⟩ := ha.1 _ _ _ (he.trans h)
        exact ⟨t, .inl ht, hk⟩
      · obtain ⟨t, ht, hk⟩ := hb.1 _ _ _ h
        exact ⟨t, .inr ht, hk⟩
    · intro k s t h hk
      unfold run
      split
      · rfl
      · rename_i hn
        rcases h with h | h
        · simpa [hn] using ha.2 _ _ t h hk
        · exact hb.2 _ _ t h hk
  | many greedy p ih =>
    exact ⟨fun k s r h => iterate_sound ih.1 h,
      fun k s t h hk => iterate_complete (fun _ _ => Matches.passes) ih.2 (Nat.le_refl _) h hk⟩
  | group i p ih =>
    constructor
    · intro k s r h
      obtain ⟨u, hu, hk⟩ := ih.1 _ _ _ h
      exact ⟨_, ⟨u, hu, rfl⟩, hk⟩
    · rintro k s _ ⟨u, hu, rfl⟩ hk
      exact ih.2 _ _ u hu hk
  | anchor a =>
    constructor
    · intro k s r h
      unfold run at h
      split at h
      · rename_i ha
        exact ⟨s, ⟨ha, rfl⟩, h⟩
      · simp at h
    · rintro k s _ ⟨ha, rfl⟩ hk
      simpa [run, ha] using hk
  | notAhead p ih =>
    constructor
    · intro k s r h
      unfold run at h
      split at h
      · simp at h
      · rename_i hn
        refine ⟨s, ⟨fun u hu => ?_, rfl⟩, h⟩
        simpa [hn] using ih.2 some s u hu rfl
    · rintro k s _ ⟨hn, rfl⟩ hk
      unfold run
      split
      · rename_i he
        obtain ⟨t, ht, -⟩ := ih.1 _ _ _ he
        exact absurd ht (hn t)
      · exact hk
  | notBehind w =>
    constructor
    · intro k s r h
      unfold run at h
      split at h
      · simp at h
      · rename_i hn
        exact ⟨s, ⟨Bool.eq_false_iff.mpr hn, rfl⟩, h⟩
    · rintro k s _ ⟨hn, rfl⟩ hk
      simpa [run, hn] using hk

theorem run_sound {s r : Cursor} (h : p.run k s = some r) :
    ∃ t, p.Matches s t ∧ k t = some r := (run_spec p).1 k s r h

private theorem run_complete (h : p.Matches s t)
    (hk : (k t).isSome) : (p.run k s).isSome := (run_spec p).2 k s t h hk

theorem matchAt_eq_some {nonempty : Bool} {m : Found} (h : p.matchAt nonempty s = some m) :
    ∃ t w, p.Matches s t ∧ s.Passes w t ∧ m.text.toList = w ∧ m.groups = t.groups := by
  unfold matchAt at h
  split at h
  · simp at h
  · rename_i t he
    obtain ⟨u, hu, hk⟩ := run_sound he
    obtain ⟨w, hw⟩ := hu.passes
    split at hk
    · simp at hk
    · obtain rfl := Option.some.inj hk
      obtain rfl := Option.some.inj h
      refine ⟨u, w, hu, hw, ?_, rfl⟩
      simp [hw.pos, hw.rest]

theorem matchAt_isSome : (p.matchAt false s).isSome ↔ ∃ t, p.Matches s t := by
  constructor
  · intro h
    obtain ⟨m, hm⟩ := Option.isSome_iff_exists.mp h
    obtain ⟨t, -, ht, -⟩ := matchAt_eq_some hm
    exact ⟨t, ht⟩
  · rintro ⟨t, ht⟩
    have := run_complete (k := fun t => if (false && t.pos == s.pos) = true then none else some t) ht
      (by simp)
    unfold matchAt
    split
    · rename_i hn
      rwa [hn] at this
    · rfl

theorem matchAt_eq_none : p.matchAt false s = none ↔ ∀ t, ¬ p.Matches s t := by
  rw [← Option.not_isSome_iff_eq_none, matchAt_isSome, not_exists]

def Cursor.between (pre post : List Char) : Cursor := ⟨pre.reverse, post, pre.length, []⟩

theorem search_eq_some {s : String} {m : Found} (h : p.search s = some m) :
    ∃ pre u t, s.toList = pre ++ u.rest ∧ u.groups = [] ∧ p.Matches u t ∧ m.groups = t.groups := by
  have hfrom {before cs : List Char} {pos : Nat} (h : p.searchFrom before pos cs = some m) :
      ∃ pre u t, cs = pre ++ u.rest ∧ u.groups = [] ∧ p.Matches u t ∧ m.groups = t.groups := by
    induction cs generalizing before pos with
    | nil =>
      obtain ⟨t, -, ht, -, -, hg⟩ := matchAt_eq_some h
      exact ⟨[], _, t, rfl, rfl, ht, hg⟩
    | cons c cs ih =>
      unfold searchFrom at h
      split at h
      · rename_i hm
        cases h
        obtain ⟨t, -, ht, -, -, hg⟩ := matchAt_eq_some hm
        exact ⟨[], _, t, rfl, rfl, ht, hg⟩
      · obtain ⟨pre, u, t, hcs, hu, ht, hg⟩ := ih h
        exact ⟨c :: pre, u, t, by rw [hcs]; rfl, hu, ht, hg⟩
  exact hfrom h

def Moves (p : Pattern) : Prop := ∀ s t, p.Matches s t → s.pos < t.pos

section Pieces
variable {p : Pattern} (hp : p.Moves) {before : List Char} {pos : Nat}
variable {cs : List Char}

include hp in
theorem matchAt_end : p.matchAt false ⟨before, [], pos, []⟩ = none := by
  rw [matchAt_eq_none]
  intro t ht
  obtain ⟨w, hw⟩ := ht.passes
  have hl := congrArg List.length hw.rest
  have hlt := hp _ t ht
  have := hw.pos
  simp only [List.length_nil, List.length_append] at hl
  omega

include hp in
@[simp] theorem piecesFrom_nil (skip : Nat) : p.piecesFrom skip before pos [] = [] := by
  cases skip with
  | zero => simp [piecesFrom, matchesAt, matchAt_end hp]
  | succ skip => rfl

theorem piecesFrom_of_none {c : Char} (h : p.matchAt false ⟨before, c :: cs, pos, []⟩ = none) :
    p.piecesFrom 0 before pos (c :: cs) = .char c :: p.piecesFrom 0 (c :: before) (pos + 1) cs := by
  simp [piecesFrom, matchesAt, h]

include hp in
theorem piecesFrom_of_some {c : Char} {m : Found}
    (h : p.matchAt false ⟨before, c :: cs, pos, []⟩ = some m) :
    ∃ n, m.text.toList.length = n + 1 ∧
      p.piecesFrom 0 before pos (c :: cs) =
        .found m :: p.piecesFrom n (c :: before) (pos + 1) cs := by
  obtain ⟨t, w, ht, hw, rfl, -⟩ := matchAt_eq_some h
  have hlt := hp _ t ht
  have := hw.pos
  obtain ⟨n, hn⟩ := Nat.exists_eq_add_one_of_ne_zero (n := m.text.toList.length) (by omega)
  have he : m.text.isEmpty = false := by
    rw [Bool.eq_false_iff, ne_eq, String.isEmpty_iff]
    rintro hm
    simp [hm] at hn
  refine ⟨n, hn, ?_⟩
  have hm : p.matchesAt ⟨before, c :: cs, pos, []⟩ = [m] := by simp [matchesAt, h, he]
  simp only [piecesFrom, hm, List.map_cons, List.map_nil, List.foldr_cons, List.foldr_nil,
    Nat.add_zero, hn, List.cons_append, List.nil_append]

private theorem piecesFrom_pass (v : List Char) {r : List Char} :
    p.piecesFrom v.length before pos (v ++ r) =
      p.piecesFrom 0 (v.reverse ++ before) (pos + v.length) r := by
  induction v generalizing before pos with
  | nil => rfl
  | cons c v ih =>
    change p.piecesFrom v.length (c :: before) (pos + 1) (v ++ r) = _
    rw [ih]
    simp [Nat.add_assoc, Nat.add_comm 1]

include hp in
theorem piecesFrom_of_matches {m : Found} (h : p.matchAt false ⟨before, cs, pos, []⟩ = some m) :
    ∃ t, p.Matches ⟨before, cs, pos, []⟩ t ∧ cs = m.text.toList ++ t.rest ∧
      p.piecesFrom 0 before pos cs = .found m ::
        p.piecesFrom 0 (m.text.toList.reverse ++ before) (pos + m.text.toList.length) t.rest := by
  obtain ⟨t, w, ht, hw, hm, -⟩ := matchAt_eq_some h
  have hcs : cs = m.text.toList ++ t.rest := hm ▸ hw.rest
  refine ⟨t, ht, hcs, ?_⟩
  cases cs with
  | nil => rw [matchAt_end hp] at h; cases h
  | cons c cs =>
    obtain ⟨n, hn, he⟩ := piecesFrom_of_some hp h
    obtain ⟨d, v, hv⟩ := List.exists_cons_of_length_eq_add_one hn
    rw [hv] at hcs hn ⊢
    rw [List.cons_append] at hcs
    obtain ⟨rfl, rfl⟩ := List.cons.inj hcs
    have hl : v.length = n := Nat.succ.inj hn
    rw [he, ← hl, piecesFrom_pass]
    simp [Nat.add_assoc, Nat.add_comm 1]

end Pieces

/-- The characters of a text from a place on, with its matches replaced; `skip` counts those that
the last match still covers. -/
def replaced (p : Pattern) (f : Found → String) (skip : Nat) (before : List Char) (pos : Nat)
    (cs : List Char) : List Char :=
  assemble f none (p.piecesFrom skip before pos cs)

theorem replaceBy_eq (p : Pattern) (f : Found → String) (s : String) :
    p.replaceBy f s = String.ofList (p.replaced f 0 [] 0 s.toList) := rfl

section Replaced
variable {p : Pattern} (hp : p.Moves) {f : Found → String} {before : List Char} {pos : Nat}
variable {cs : List Char}

include hp in
@[simp] theorem replaced_nil (skip : Nat) : p.replaced f skip before pos [] = [] := by
  simp [replaced, hp, assemble]

theorem replaced_of_none {c : Char} (h : p.matchAt false ⟨before, c :: cs, pos, []⟩ = none) :
    p.replaced f 0 before pos (c :: cs) = c :: p.replaced f 0 (c :: before) (pos + 1) cs := by
  rw [replaced, piecesFrom_of_none h]
  rfl

include hp in
theorem replaced_of_some {c : Char} {m : Found}
    (h : p.matchAt false ⟨before, c :: cs, pos, []⟩ = some m) :
    ∃ n, m.text.toList.length = n + 1 ∧
      p.replaced f 0 before pos (c :: cs) =
        (f m).toList ++ p.replaced f n (c :: before) (pos + 1) cs := by
  obtain ⟨n, hn, he⟩ := piecesFrom_of_some hp h
  exact ⟨n, hn, by rw [replaced, he]; rfl⟩

include hp in
theorem replaced_of_matches {m : Found} (h : p.matchAt false ⟨before, cs, pos, []⟩ = some m) :
    ∃ t, p.Matches ⟨before, cs, pos, []⟩ t ∧ cs = m.text.toList ++ t.rest ∧
      p.replaced f 0 before pos cs = (f m).toList ++
        p.replaced f 0 (m.text.toList.reverse ++ before) (pos + m.text.toList.length) t.rest := by
  obtain ⟨t, ht, hcs, he⟩ := piecesFrom_of_matches hp h
  exact ⟨t, ht, hcs, by rw [replaced, he]; rfl⟩

include hp in
/-- A relation between a text and what replacing makes of it holds if it holds of nothing and is kept
by a character without a match and by a match in front. -/
theorem replaced_induct {motive : List Char → List Char → Prop} (nil : motive [] [])
    (keep : ∀ before pos c cs out, p.matchAt false ⟨before, c :: cs, pos, []⟩ = none →
      motive cs out → motive (c :: cs) (c :: out))
    (found : ∀ before pos cs m t out, p.matchAt false ⟨before, cs, pos, []⟩ = some m →
      p.Matches ⟨before, cs, pos, []⟩ t → cs = m.text.toList ++ t.rest →
      motive t.rest out → motive cs ((f m).toList ++ out))
    (cs : List Char) : motive cs (p.replaced f 0 before pos cs) := by
  induction hl : cs.length using Nat.strongRecOn generalizing cs before pos with
  | ind n ih =>
    subst hl
    cases cs with
    | nil =>
      rw [replaced_nil hp]
      exact nil
    | cons c cs =>
      cases hm : p.matchAt false ⟨before, c :: cs, pos, []⟩ with
      | none =>
        rw [replaced_of_none hm]
        exact keep before pos c cs _ hm (ih _ (Nat.lt_succ_self _) cs rfl)
      | some m =>
        obtain ⟨n, hn, -⟩ := replaced_of_some hp (f := f) hm
        obtain ⟨t, ht, hcs, he⟩ := replaced_of_matches hp (f := f) hm
        have hlt : t.rest.length < (c :: cs).length := by
          rw [hcs, List.length_append, hn]
          omega
        rw [he]
        exact found before pos (c :: cs) m t _ hm ht hcs (ih _ hlt t.rest rfl)

include hp in
private theorem length_erased_le (skip : Nat) (cs : List Char) :
    (p.replaced (fun _ => "") skip before pos cs).length ≤ cs.length := by
  induction cs generalizing skip before pos with
  | nil => simp [hp]
  | cons c cs ih =>
    cases skip with
    | succ skip => exact Nat.le_succ_of_le (ih skip)
    | zero =>
      cases h : p.matchAt false ⟨before, c :: cs, pos, []⟩ with
      | none =>
        rw [replaced_of_none h]
        exact Nat.succ_le_succ (ih 0)
      | some m =>
        obtain ⟨n, -, he⟩ := replaced_of_some hp (f := fun _ => "") h
        rw [he]
        exact Nat.le_succ_of_le (ih n)

include hp in
private theorem length_erased_lt (before : List Char) (pos : Nat) (pre post : List Char)
    (h : p.matchAt false ⟨pre.reverse ++ before, post, pos + pre.length, []⟩ ≠ none) :
    (p.replaced (fun _ => "") 0 before pos (pre ++ post)).length < (pre ++ post).length := by
  induction pre generalizing before pos with
  | nil =>
    cases post with
    | nil => exact absurd (matchAt_end hp) h
    | cons c cs =>
      obtain ⟨m, hm⟩ := Option.ne_none_iff_exists'.mp h
      change p.matchAt false ⟨before, c :: cs, pos, []⟩ = some m at hm
      obtain ⟨n, -, he⟩ := replaced_of_some hp (f := fun _ => "") hm
      rw [List.nil_append, he]
      exact Nat.lt_succ_of_le (length_erased_le hp n cs)
  | cons c pre ih =>
    cases hn : p.matchAt false ⟨before, c :: (pre ++ post), pos, []⟩ with
    | none =>
      rw [List.cons_append, replaced_of_none hn]
      refine Nat.succ_lt_succ (ih _ _ ?_)
      simpa [Nat.add_assoc, Nat.add_comm 1] using h
    | some m =>
      obtain ⟨n, -, he⟩ := replaced_of_some hp (f := fun _ => "") hn
      rw [List.cons_append, he]
      exact Nat.lt_succ_of_le (length_erased_le hp n _)

include hp in
theorem replaced_eq_self (h : ∀ pre post, cs = pre ++ post →
      p.matchAt false ⟨pre.reverse ++ before, post, pos + pre.length, []⟩ = none) :
    p.replaced f 0 before pos cs = cs := by
  induction cs generalizing before pos with
  | nil => simp [hp]
  | cons c cs ih =>
    have hn : p.matchAt false ⟨before, c :: cs, pos, []⟩ = none := h [] (c :: cs) rfl
    rw [replaced_of_none hn, ih fun pre post he => ?_]
    simpa [Nat.add_assoc, Nat.add_comm 1] using h (c :: pre) post (by rw [he, List.cons_append])

include hp in
theorem replaceAll_empty_eq_self {s : String} :
    p.replaceAll "" s = s ↔ ∀ pre post, s.toList = pre ++ post →
      p.matchAt false (.between pre post) = none := by
  rw [replaceAll, replaceBy_eq]
  constructor
  · intro he pre post hs
    cases hm : p.matchAt false (.between pre post) with
    | none => rfl
    | some m =>
      have hlt := length_erased_lt hp [] 0 pre post (by
        simp only [List.append_nil, Nat.zero_add]
        exact fun hn => by simp [Cursor.between, hn] at hm)
      have hl := congrArg (fun s : String => s.toList.length) he
      simp only [String.toList_ofList, hs] at hl
      omega
  · intro h
    rw [replaced_eq_self hp fun pre post he => by simpa [Cursor.between] using h pre post he,
      String.ofList_toList]

end Replaced

end Mender.Pattern
