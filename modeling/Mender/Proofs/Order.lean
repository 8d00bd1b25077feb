import Mathlib.Data.Fintype.Card
import Mathlib.Data.Fintype.EquivFin
import Mathlib.Data.List.Nodup
import Mathlib.Data.List.Perm.Subperm
import Mathlib.Logic.Relation
import Mender.Project.Order

/-! The order of files holds each file once. A file comes after its dependencies unless they lead
into a circle or to a name without a file; no other part of the graph can disturb that. -/
namespace Mender.Graph
open Relation
variable {ps : List Pending} {placed : List String} {g : Graph} {p : Pending}

def files (g : Graph) : List String := g.map (·.1)

def Needs (g : Graph) (v d : String) : Prop := ∃ deps, (v, deps) ∈ g ∧ d ∈ deps

/-- Following dependencies leads to neither a circle nor a name without a file. -/
def Grounded (g : Graph) (v : String) : Prop :=
  ∀ u, ReflTransGen g.Needs v u → u ∈ g.files ∧ ¬ TransGen g.Needs u u

/-- The files still to be placed after some of them, with the dependencies they wait for. -/
def remaining (g : Graph) (placed : List String) : List Pending :=
  (g.filter fun e => e.1 ∉ placed).map fun e =>
    ⟨e.1, g.users e.1, e.2.filter fun d => d ∉ placed⟩

private theorem mostUsed_eq_none : mostUsed? ps = none ↔ ps = [] := by
  cases ps with
  | nil => simp [mostUsed?]
  | cons p ps =>
    unfold mostUsed?
    split <;> simp

theorem mem_of_mostUsed (h : mostUsed? ps = some p) : p ∈ ps := by
  induction ps generalizing p with
  | nil => simp [mostUsed?] at h
  | cons q ps ih =>
    unfold mostUsed? at h
    split at h
    · rename_i r hr
      simp only [Option.some.injEq] at h
      split at h
      · exact List.mem_cons_of_mem _ (h ▸ ih hr)
      · exact h ▸ List.mem_cons_self
    · simp only [Option.some.injEq] at h
      exact h ▸ List.mem_cons_self

theorem next_eq_some (h : next? ps = some p) :
    p ∈ ps ∧ (p.waits = [] ∨ ∀ q ∈ ps, q.waits ≠ []) := by
  unfold next? at h
  split at h
  · rename_i q hq
    simp only [Option.some.injEq] at h
    subst q
    have hm := List.mem_filter.mp (mem_of_mostUsed hq)
    exact ⟨hm.1, .inl (by simpa using hm.2)⟩
  · rename_i hn
    refine ⟨mem_of_mostUsed h, .inr fun q hq hw => ?_⟩
    have he := mostUsed_eq_none.mp hn
    have hf : q ∈ ps.filter fun p => p.waits.isEmpty := List.mem_filter.mpr ⟨hq, by simp [hw]⟩
    simp [he] at hf

theorem next_eq_none : next? ps = none ↔ ps = [] := by
  unfold next?
  split
  · rename_i q hq
    simp only [reduceCtorEq, false_iff]
    rintro rfl
    simpa using mem_of_mostUsed hq
  · exact mostUsed_eq_none

theorem pending_eq_remaining (g : Graph) : g.pending = g.remaining [] := by
  simp [pending, remaining]

theorem place_remaining (g : Graph) (placed : List String) (name : String) :
    place name (g.remaining placed) = g.remaining (name :: placed) := by
  simp only [place, remaining, List.filter_map, List.map_map, List.filter_filter]
  refine congrArg₂ List.map ?_ (List.filter_congr fun e _ => ?_)
  · funext e
    simp only [Function.comp_apply, List.filter_filter, Pending.mk.injEq, true_and]
    refine List.filter_congr fun d _ => ?_
    by_cases h : d = name <;> simp [h]
  · by_cases h : e.1 = name <;> simp [h]

theorem mem_remaining : p ∈ g.remaining placed ↔ ∃ deps, (p.name, deps) ∈ g ∧ p.name ∉ placed ∧
      p.users = g.users p.name ∧ p.waits = deps.filter (fun d => d ∉ placed) := by
  constructor
  · intro h
    obtain ⟨⟨v, deps⟩, he, rfl⟩ := List.mem_map.mp h
    have hf := List.mem_filter.mp he
    exact ⟨deps, hf.1, by simpa using hf.2, rfl, rfl⟩
  · rintro ⟨deps, hg, hp, hu, hw⟩
    refine List.mem_map.mpr ⟨(p.name, deps), List.mem_filter.mpr ⟨hg, by simpa using hp⟩, ?_⟩
    cases p
    simp_all

theorem names_remaining (g : Graph) (placed : List String) :
    (g.remaining placed).map (·.name) = g.files.filter fun v => v ∉ placed := by
  simp [remaining, files, List.filter_map, Function.comp_def]

private theorem names_place (name : String) (ps : List Pending) :
    (place name ps).map (·.name) = (ps.map (·.name)).filter (· ≠ name) := by
  simp [place, List.filter_map, Function.comp_def]

theorem length_place_lt (h : p ∈ ps) : (place p.name ps).length < ps.length := by
  rw [place, List.length_map]
  exact List.length_filter_lt_length_iff_exists.mpr ⟨p, h, by simp⟩

theorem orderFrom_fuel {n m : Nat} (hn : ps.length ≤ n) (hm : ps.length ≤ m) :
    orderFrom n ps = orderFrom m ps := by
  induction n generalizing m ps with
  | zero =>
    have he := List.eq_nil_of_length_eq_zero (Nat.le_zero.mp hn)
    subst he
    cases m <;> rfl
  | succ n ih =>
    cases m with
    | zero =>
      have he := List.eq_nil_of_length_eq_zero (Nat.le_zero.mp hm)
      subst he
      rfl
    | succ m =>
      unfold orderFrom
      cases h : next? ps with
      | none => rfl
      | some p =>
        have hl := length_place_lt (next_eq_some h).1
        simp only [List.cons.injEq, true_and]
        exact ih (by omega) (by omega)

private theorem orderFrom_perm {fuel : Nat} (hf : ps.length ≤ fuel)
    (hn : (ps.map (·.name)).Nodup) : (orderFrom fuel ps).Perm (ps.map (·.name)) := by
  induction fuel generalizing ps with
  | zero => simp [List.eq_nil_of_length_eq_zero (Nat.le_zero.mp hf), orderFrom]
  | succ fuel ih =>
    unfold orderFrom
    cases h : next? ps with
    | none => simp [next_eq_none.mp h]
    | some p =>
      have hp := (next_eq_some h).1
      have he : (place p.name ps).map (·.name) = (ps.map (·.name)).erase p.name := by
        rw [names_place, hn.erase_eq_filter]
        exact List.filter_congr fun v _ => by by_cases hv : v = p.name <;> simp [hv]
      have hl := length_place_lt hp
      have ht : (orderFrom fuel (place p.name ps)).Perm ((place p.name ps).map (·.name)) :=
        ih (by omega) (he ▸ hn.erase p.name)
      exact ((he ▸ ht).cons p.name).trans (List.perm_cons_erase (List.mem_map_of_mem hp)).symm

theorem order_perm (hn : g.files.Nodup) : g.order.Perm g.files := by
  have hp := names_remaining g []
  simp only [List.not_mem_nil, not_false_eq_true, decide_true, List.filter_true] at hp
  rw [order, pending_eq_remaining, ← hp]
  exact orderFrom_perm (by simp [remaining]) (hp ▸ hn)

private theorem orderFrom_nodup (fuel : Nat) (ps : List Pending) : (orderFrom fuel ps).Nodup ∧
    orderFrom fuel ps ⊆ ps.map (·.name) := by
  induction fuel generalizing ps with
  | zero => exact ⟨.nil, List.nil_subset _⟩
  | succ fuel ih =>
    unfold orderFrom
    cases h : next? ps with
    | none => exact ⟨.nil, List.nil_subset _⟩
    | some p =>
      obtain ⟨hnodup, hsub⟩ := ih (place p.name ps)
      rw [names_place] at hsub
      refine ⟨List.nodup_cons.mpr ⟨fun hm => ?_, hnodup⟩, List.cons_subset.mpr ⟨?_, ?_⟩⟩
      · simpa using (List.mem_filter.mp (hsub hm)).2
      · exact List.mem_map_of_mem (next_eq_some h).1
      · exact fun v hv => (List.mem_filter.mp (hsub hv)).1

theorem order_nodup (g : Graph) : g.order.Nodup := (orderFrom_nodup _ _).1

/-- What can be reached from a grounded file is finite and free of circles, so it can be gone
through from the bottom up. -/
private theorem Grounded.induction {v : String} (hv : g.Grounded v) {P : String → Prop}
    (step : ∀ u, g.Grounded u → (∀ d, g.Needs u d → P d) → P u) : P v := by
  let Below := {u : String // ReflTransGen g.Needs v u}
  let uses (a b : Below) : Prop := TransGen g.Needs b.1 a.1
  have : Finite Below :=
    Finite.of_injective (fun u => (⟨u.1, (hv u.1 u.2).1⟩ : {u // u ∈ g.files}))
      fun a b h => Subtype.ext (Subtype.mk.inj h)
  have : IsTrans Below uses := ⟨fun _ _ _ hab hbc => hbc.trans hab⟩
  have : Std.Irrefl uses := ⟨fun u => (hv u.1 u.2).2⟩
  have hw : WellFounded uses := Finite.wellFounded_of_trans_of_irrefl uses
  have hall (u : Below) : P u.1 := by
    induction u using hw.induction with
    | _ u ih =>
      refine step u.1 (fun w hw => hv w (u.2.trans hw)) fun d hd => ?_
      exact ih ⟨d, u.2.tail hd⟩ (.single hd)
  exact hall ⟨v, .refl⟩

private theorem Grounded.mem_of_stuck {v : String} (hv : g.Grounded v)
    (hs : ∀ q ∈ g.remaining placed, q.waits ≠ []) : v ∈ placed := by
  refine hv.induction fun u hu ih => ?_
  by_contra hn
  obtain ⟨⟨w, deps⟩, hm, rfl⟩ := List.mem_map.mp (hu u .refl).1
  refine hs ⟨w, g.users w, deps.filter fun d => d ∉ placed⟩
    (mem_remaining.mpr ⟨deps, hm, hn, rfl, rfl⟩) ?_
  exact List.filter_eq_nil_iff.mpr fun d hd => by simpa using ih d ⟨deps, hm, hd⟩

private theorem needs_placed (hn : g.files.Nodup)
    (h : next? (g.remaining placed) = some p) (hv : g.Grounded p.name) {d : String}
    (hd : g.Needs p.name d) : d ∈ placed := by
  obtain ⟨hm, hw⟩ := next_eq_some h
  obtain ⟨deps, hg, hp, -, he⟩ := mem_remaining.mp hm
  rcases hw with hw | hs
  · obtain ⟨deps', hg', hd'⟩ := hd
    have hu : deps' = deps := by
      have := List.inj_on_of_nodup_map hn hg' hg rfl
      exact congrArg Prod.snd this
    subst hu
    rw [he, List.filter_eq_nil_iff] at hw
    simpa using hw d hd'
  · exact absurd (hv.mem_of_stuck hs) hp

/-- What a grounded file needs was placed before the rounds or stands before it in their result. -/
private theorem needs_before (hn : g.files.Nodup) {fuel : Nat} {placed pre post : List String}
    {v d : String} (h : orderFrom fuel (g.remaining placed) = pre ++ v :: post)
    (hv : g.Grounded v) (hd : g.Needs v d) : d ∈ placed ∨ d ∈ pre := by
  induction fuel generalizing placed pre with
  | zero => simp [orderFrom] at h
  | succ fuel ih =>
    unfold orderFrom at h
    cases hp : next? (g.remaining placed) with
    | none => simp [hp] at h
    | some p =>
      simp only [hp, place_remaining] at h
      cases pre with
      | nil =>
        obtain ⟨rfl, -⟩ := List.cons.inj h
        exact .inl (needs_placed hn hp hv hd)
      | cons u pre =>
        obtain ⟨rfl, ht⟩ := List.cons.inj h
        rcases ih ht with hm | hm
        · rcases List.mem_cons.mp hm with rfl | hm
          · exact .inr List.mem_cons_self
          · exact .inl hm
        · exact .inr (List.mem_cons_of_mem _ hm)

theorem idxOf_order_lt (hn : g.files.Nodup) {v d : String} (hv : g.Grounded v)
    (hd : g.Needs v d) : g.order.idxOf d < g.order.idxOf v := by
  have hp := order_perm hn
  obtain ⟨pre, post, he⟩ := List.append_of_mem (hp.mem_iff.mpr (hv v .refl).1)
  have hm : d ∈ pre := by
    have hb : orderFrom g.length (g.remaining []) = pre ++ v :: post := by
      rw [← pending_eq_remaining]
      exact he
    simpa using needs_before hn hb hv hd
  have hf : v ∉ pre := by
    have := hp.nodup_iff.mpr hn
    rw [he] at this
    exact fun h => (List.nodup_append.mp this).2.2 v h v List.mem_cons_self rfl
  rw [he, List.idxOf_append_of_mem hm, List.idxOf_append_of_notMem hf, List.idxOf_cons_self]
  exact List.idxOf_lt_length_of_mem hm

/-- The order of a graph whose files are distinct. It is found in as many rounds as there are files
and holds each file once. Every file from which dependencies lead to neither a circle nor a missing
file comes after its dependencies, whatever circles there are elsewhere. -/
theorem order_places_dependencies_first (g : Graph) (hn : g.files.Nodup) :
    (∀ n, g.length ≤ n → orderFrom n g.pending = g.order) ∧
    g.order.Perm g.files ∧
    (∀ v d, g.Grounded v → g.Needs v d → g.order.idxOf d < g.order.idxOf v) ∧
    ((∀ v d, g.Needs v d → d ∈ g.files) → (∀ v, ¬ TransGen g.Needs v v) →
      ∀ v d, g.Needs v d → g.order.idxOf d < g.order.idxOf v) := by
  refine ⟨fun n hl => orderFrom_fuel (by simpa [pending] using hl) (by simp [pending]),
    order_perm hn, fun v d hv hd => idxOf_order_lt hn hv hd, fun hc ha v d hd => ?_⟩
  refine idxOf_order_lt hn (fun u hu => ⟨?_, ha u⟩) hd
  cases hu with
  | refl =>
    obtain ⟨deps, hm, -⟩ := hd
    exact List.mem_map_of_mem hm
  | tail _ hl => exact hc _ _ hl

/-- Two files that depend on each other, one of them on a file that only needs a third one and is
placed after it. -/
theorem order_beside_circle :
    let g : Graph := [("a.py", ["b.py"]), ("c.py", ["d.py", "a.py"]), ("d.py", ["c.py"]), ("b.py", [])]
    g.files.Nodup ∧ g.order.idxOf "b.py" < g.order.idxOf "a.py" := by
  intro g
  have ha (d : String) (h : g.Needs "a.py" d) : d = "b.py" := by
    simpa [Needs, g] using h
  have hb (d : String) (h : g.Needs "b.py" d) : False := by
    simp [Needs, g] at h
  have hg : g.Grounded "a.py" := by
    intro u hu
    have hr : u = "a.py" ∨ u = "b.py" := by
      induction hu with
      | refl => exact .inl rfl
      | tail _ hs ih =>
        rcases ih with rfl | rfl
        · exact .inr (ha _ hs)
        · exact (hb _ hs).elim
    rcases hr with rfl | rfl
    · refine ⟨by decide, fun hc => ?_⟩
      obtain ⟨d, hd, hp⟩ := TransGen.head'_iff.mp hc
      obtain rfl := ha d hd
      rcases hp.cases_head with he | ⟨w, hw, -⟩
      · exact absurd he (by decide)
      · exact hb w hw
    · refine ⟨by decide, fun hc => ?_⟩
      obtain ⟨d, hd, -⟩ := TransGen.head'_iff.mp hc
      exact hb d hd
  have hn : g.files.Nodup := by decide
  exact ⟨hn, (order_places_dependencies_first g hn).2.2.1 _ _ hg ⟨_, List.mem_cons_self, by simp⟩⟩

end Mender.Graph
