import Mathlib.Data.Int.CardIntervalMod
import Mathlib.Data.List.Rotate
import Mender.Bench.Order
import Mender.Proofs.Order
import Mender.Proofs.Text

/-! The file that an order begins with. In a circle every file waits for another one and is used
once, so the first file of the graph comes first. Of leaves that share cores in turn only the cores
wait for nothing, and none of them is used more often than the first one. -/
namespace Mender.Graph

section First
variable {g : Graph} {p : Pending} {ps rest : List Pending}

theorem mostUsed_cons_of_le (h : ∀ q ∈ ps, q.users ≤ p.users) : mostUsed? (p :: ps) = some p := by
  unfold mostUsed?
  split
  · rename_i q hq
    rw [if_neg (Nat.not_lt.mpr (h q (mem_of_mostUsed hq)))]
  · rfl

theorem next_of_ready (h : (ps.filter fun q => q.waits.isEmpty) = p :: rest)
    (hle : ∀ q ∈ rest, q.users ≤ p.users) : next? ps = some p := by
  rw [next?, h, mostUsed_cons_of_le hle]

theorem next_of_stuck (h : ∀ q ∈ p :: ps, q.waits ≠ []) (hle : ∀ q ∈ ps, q.users ≤ p.users) :
    next? (p :: ps) = some p := by
  have hnone : (p :: ps).filter (fun q => q.waits.isEmpty) = [] :=
    List.filter_eq_nil_iff.mpr fun q hq => by simpa using h q hq
  rw [next?, hnone]
  exact mostUsed_cons_of_le hle

theorem orderSize_of_next (hn : g.files.Nodup) (h : next? g.pending = some p) :
    Bench.orderSize g = .ok ⟨g.length, p.name⟩ := by
  have hlength : g.order.length = g.length := by
    rw [(order_perm hn).length_eq, files, List.length_map]
  have horder : ∃ rest, g.order = p.name :: rest := by
    obtain ⟨e, es, rfl⟩ : ∃ e es, g = e :: es := by
      cases g with
      | nil => cases h
      | cons e es => exact ⟨e, es, rfl⟩
    rw [order, List.length_cons, orderFrom, h]
    exact ⟨_, rfl⟩
  obtain ⟨rest, hrest⟩ := horder
  rw [hrest, List.length_cons] at hlength
  rw [Bench.orderSize, hrest, ← hlength]

theorem users_eq_count (g : Graph) (name : String) :
    g.users name = (g.flatMap Prod.snd).count name := by
  induction g with
  | nil => rfl
  | cons e g ih =>
    rw [List.flatMap_cons, List.count_append, ← ih]
    rfl

end First

section Circle
variable {name : Nat → String} {n : Nat} {v : String}

def circle (name : Nat → String) (n : Nat) : Graph :=
  (List.range n).map fun i => (name i, [name ((i + (n - 1)) % n)])

theorem files_circle (name : Nat → String) (n : Nat) :
    (circle name n).files = (List.range n).map name := by
  simp [files, circle]

theorem nodup_circle (h : name.Injective) (n : Nat) : (circle name n).files.Nodup := by
  rw [files_circle]
  exact List.nodup_range.map h

private theorem map_previous_range (n : Nat) :
    (List.range n).map (fun i => (i + (n - 1)) % n) = (List.range n).rotate (n - 1) := by
  refine List.ext_getElem (by simp) fun i _ _ => ?_
  simp [List.getElem_rotate]

private theorem deps_circle (name : Nat → String) (n : Nat) :
    ((circle name n).flatMap Prod.snd).Perm (circle name n).files := by
  have hdeps : (circle name n).flatMap Prod.snd = ((List.range n).rotate (n - 1)).map name := by
    rw [← map_previous_range, circle, List.flatMap_map, List.map_map]
    exact List.map_eq_flatMap.symm
  rw [hdeps, files_circle]
  exact (List.rotate_perm _ (n - 1)).map name

private theorem users_circle (h : name.Injective) (hv : v ∈ (circle name n).files) :
    (circle name n).users v = 1 := by
  rw [users_eq_count, (deps_circle name n).count_eq,
    List.count_eq_one_of_mem (nodup_circle h n) hv]

theorem next_circle (h : name.Injective) (n : Nat) :
    ∃ p, next? (circle name (n + 1)).pending = some p ∧ p.name = name 0 := by
  have hmem (q : Pending) (hq : q ∈ (circle name (n + 1)).pending) :
      q.waits ≠ [] ∧ q.users = 1 := by
    obtain ⟨e, he, rfl⟩ := List.mem_map.mp hq
    have hfile : e.1 ∈ (circle name (n + 1)).files := List.mem_map_of_mem he
    obtain ⟨i, -, rfl⟩ := List.mem_map.mp he
    exact ⟨List.cons_ne_nil _ _, users_circle h hfile⟩
  obtain ⟨p, ps, hpending, hname⟩ :
      ∃ p ps, (circle name (n + 1)).pending = p :: ps ∧ p.name = name 0 := by
    rw [pending, circle, List.range_succ_eq_map, List.map_cons, List.map_cons]
    exact ⟨_, _, rfl, rfl⟩
  rw [hpending] at hmem ⊢
  refine ⟨p, next_of_stuck (fun q hq => (hmem q hq).1) fun q hq => ?_, hname⟩
  rw [(hmem q (List.mem_cons_of_mem p hq)).2, (hmem p List.mem_cons_self).2]

end Circle

section Fan
variable {core leaf : Nat → String} {k n : Nat}

def fan (core leaf : Nat → String) (k n : Nat) : Graph :=
  (List.range k).map (fun i => (core i, [])) ++
    (List.range n).map fun i => (leaf i, [core (i % k)])

theorem files_fan (core leaf : Nat → String) (k n : Nat) :
    (fan core leaf k n).files = (List.range k).map core ++ (List.range n).map leaf := by
  rw [files, fan, List.map_append, List.map_map, List.map_map]
  rfl

theorem nodup_fan (hcore : core.Injective) (hleaf : leaf.Injective)
    (happart : ∀ i j, core i ≠ leaf j) (k n : Nat) : (fan core leaf k n).files.Nodup := by
  rw [files_fan]
  refine List.Nodup.append (List.nodup_range.map hcore) (List.nodup_range.map hleaf) ?_
  intro v hv hw
  obtain ⟨i, -, rfl⟩ := List.mem_map.mp hv
  obtain ⟨j, -, hj⟩ := List.mem_map.mp hw
  exact happart i j hj.symm

theorem deps_fan (core leaf : Nat → String) (k n : Nat) :
    (fan core leaf k n).flatMap Prod.snd = (List.range n).map fun j => core (j % k) := by
  rw [fan, List.flatMap_append, List.flatMap_map, List.flatMap_map, List.map_eq_flatMap]
  exact congrArg (· ++ _) (List.flatMap_eq_nil_iff.mpr fun _ _ => rfl)

private theorem users_core (hcore : core.Injective) {i : Nat} (hi : i < k) :
    (fan core leaf k n).users (core i) = n / k + if i < n % k then 1 else 0 := by
  have hcount : (List.range n).countP ((· == core i) ∘ fun j => core (j % k)) =
      n.count (· ≡ i [MOD k]) := by
    refine List.countP_congr fun j _ => ?_
    have hmod : j ≡ i [MOD k] ↔ j % k = i := by
      conv_rhs => rw [← Nat.mod_eq_of_lt hi]
      rfl
    rw [Function.comp_apply, beq_iff_eq, hcore.eq_iff, decide_eq_true_iff]
    exact hmod.symm
  rw [users_eq_count, deps_fan, List.count, List.countP_map, hcount,
    Nat.count_modEq_card n (Nat.zero_lt_of_lt hi), Nat.mod_eq_of_lt hi]

theorem users_fan_le (hcore : core.Injective) (hk : 0 < k) (v : String) :
    (fan core leaf k n).users v ≤ (fan core leaf k n).users (core 0) := by
  by_cases hv : v ∈ (fan core leaf k n).flatMap Prod.snd
  · rw [deps_fan] at hv
    obtain ⟨j, -, rfl⟩ := List.mem_map.mp hv
    rw [users_core hcore (Nat.mod_lt j hk), users_core hcore hk]
    split
    · rename_i hlt
      rw [if_pos (Nat.zero_lt_of_lt hlt)]
    · exact Nat.add_le_add_left (Nat.zero_le _) _
  · rw [users_eq_count, List.count_eq_zero.mpr hv]
    exact Nat.zero_le _

theorem next_fan (hcore : core.Injective) (hk : 0 < k) :
    ∃ p, next? (fan core leaf k n).pending = some p ∧ p.name = core 0 := by
  obtain ⟨k, rfl⟩ := Nat.exists_eq_add_one_of_ne_zero (Nat.ne_of_gt hk)
  have hready : ((fan core leaf (k + 1) n).pending.filter fun q => q.waits.isEmpty) =
      (List.range (k + 1)).map fun i => ⟨core i, (fan core leaf (k + 1) n).users (core i), []⟩ := by
    unfold pending
    generalize (fan core leaf (k + 1) n).users = users
    rw [fan, List.map_append, List.filter_append, List.map_map, List.map_map,
      List.filter_eq_self.mpr, List.filter_eq_nil_iff.mpr, List.append_nil]
    · rfl
    · intro q hq
      obtain ⟨i, -, rfl⟩ := List.mem_map.mp hq
      exact Bool.false_ne_true
    · intro q hq
      obtain ⟨i, -, rfl⟩ := List.mem_map.mp hq
      rfl
  rw [List.range_succ_eq_map, List.map_cons] at hready
  refine ⟨_, next_of_ready hready fun q hq => ?_, rfl⟩
  obtain ⟨i, -, rfl⟩ := List.mem_map.mp hq
  exact users_fan_le hcore hk (core i)

end Fan

end Mender.Graph

namespace Mender.Bench
open Text

section Names

private theorem digitsValue_threeDigits (i : Nat) : digitsValue (threeDigits i).toList = i := by
  rw [threeDigits, String.toList_append]
  split
  · exact digitsValue_toString i
  · split
    · exact digitsValue_toString i
    · exact digitsValue_toString i

theorem threeDigits_injective : threeDigits.Injective :=
  Function.LeftInverse.injective (g := fun s : String => digitsValue s.toList)
    digitsValue_threeDigits

theorem framed_injective {f : Nat → String} (h : f.Injective) (front back : String) :
    (fun i => front ++ f i ++ back).Injective := by
  intro i j he
  have hlist := congrArg String.toList he
  simp only [String.toList_append] at hlist
  exact h (String.toList_inj.mp (List.append_cancel_left (List.append_cancel_right hlist)))

private theorem moduleName_injective : moduleName.Injective :=
  framed_injective threeDigits_injective "m" ".py"

private theorem coreName_injective :
    coreName.Injective := framed_injective toString_injective "core" ".py"

private theorem leafName_injective : leafName.Injective :=
  framed_injective threeDigits_injective "leaf" ".py"

private theorem coreName_ne_leafName (i j : Nat) : coreName i ≠ leafName j := by
  have hframe (a b c : String) : (a ++ b ++ c).toList = a.toList ++ (b.toList ++ c.toList) := by
    rw [String.toList_append, String.toList_append, List.append_assoc]
  intro h
  have hlist := congrArg String.toList h
  have hfirst := (hframe "core" _ ".py").symm.trans (hlist.trans (hframe "leaf" _ ".py"))
  exact absurd (List.cons.inj hfirst).1 (by decide)

end Names

/-- The orders of a circle and of leaves over four cores, of any size. Each order has all files of
its graph once. That of the circle begins with the first module, that of the leaves with the first
core, and no file is used more often than this one. -/
theorem orders_complete (n : Nat) (h : 1 ≤ n) :
    orders n = .ok (⟨n, "m000.py"⟩, ⟨n + 4, "core0.py"⟩) ∧
      (chain n).order.Perm ((List.range n).map moduleName) ∧
      (fan n).order.Perm ((List.range 4).map coreName ++ (List.range n).map leafName) ∧
      ∀ v, (fan n).users v ≤ (fan n).users "core0.py" := by
  have hcircle : (chain n).files.Nodup := Graph.nodup_circle moduleName_injective n
  have hleaves : (fan n).files.Nodup :=
    Graph.nodup_fan coreName_injective leafName_injective coreName_ne_leafName 4 n
  refine ⟨?_, ?_, ?_, Graph.users_fan_le coreName_injective (by decide)⟩
  · obtain ⟨m, rfl⟩ := Nat.exists_eq_add_one_of_ne_zero (Nat.ne_of_gt h)
    obtain ⟨p, hp, hname⟩ := Graph.next_circle moduleName_injective m
    obtain ⟨q, hq, hfirst⟩ := Graph.next_fan (n := m + 1) coreName_injective (k := 4) (by decide)
    have hmodules : (chain (m + 1)).length = m + 1 := by
      rw [chain, List.length_map, List.length_range]
    have hfiles : (fan (m + 1)).length = m + 1 + 4 := by
      rw [fan, List.length_append, List.length_map, List.length_map, List.length_range,
        List.length_range, Nat.add_comm]
      rfl
    rw [orders, Graph.orderSize_of_next hcircle hp, Graph.orderSize_of_next hleaves hq, hname,
      hfirst, hmodules, hfiles]
    rfl
  · rw [← Graph.files_circle]
    exact Graph.order_perm hcircle
  · rw [← Graph.files_fan]
    exact Graph.order_perm hleaves

/-- A thousand and one modules, so that names have more than three digits. -/
theorem orders_of_many : 1 ≤ 1001 ∧
    orders 1001 = .ok (⟨1001, "m000.py"⟩, ⟨1005, "core0.py"⟩) :=
  ⟨by decide, (orders_complete 1001 (by decide)).1⟩

end Mender.Bench
