import Mender.Proofs.Disk
import Mender.Proofs.Order
import Mender.Workflow.Files

/-! The source files of a directory and the order in which they are repaired: the files have
distinct names, the dependencies among them make a graph of these names, and its order, turned back
into paths, holds each file once. -/
namespace Mender
open Text Relation

namespace Glob
variable {d : Disk} {input : String} {l : Language}

private theorem join_empty : Path.join "" = id := by
  funext name
  simp [Path.join]

theorem suffix_unslashed (l : Language) : '/' ∉ ("*" ++ l.profile.suffix).toList := by
  cases l <;> decide

def searched (input : String) (l : Language) : String :=
  Path.dirName (Path.join input ("*" ++ l.profile.suffix))

theorem withSuffix_eq (d : Disk) (l : Language) (h : hasWildcard input = false) :
    withSuffix d input l.profile.suffix =
      d.order.arrange [Path.join input ("*" ++ l.profile.suffix)]
        (sorted ((namesIn d false (searched input l) ("*" ++ l.profile.suffix)).map
          (Path.join (searched input l)))) := by
  have hbase := Path.baseName_join (suffix_unslashed l) input
  have hplain : hasWildcard (searched input l) = false := by
    rw [hasWildcard, List.any_eq_false] at h ⊢
    intro c hc
    rcases Path.mem_dirName_join (suffix_unslashed l) hc with hm | rfl
    · exact h c hm
    · decide
  have hwild : hasWildcard ("*" ++ l.profile.suffix) = true := by cases l <;> decide
  obtain ⟨n, hn⟩ : ∃ n, length (Path.join input ("*" ++ l.profile.suffix)) = n + 1 := by
    rw [Path.join_eq (suffix_unslashed l)]
    exact ⟨length (Path.lead input) + length l.profile.suffix, by simp [length]; omega⟩
  rw [withSuffix, hn, expand, hbase, ← searched]
  dsimp only
  by_cases hdir : searched input l = ""
  · rw [if_pos hdir, hdir, join_empty, List.map_id]
  · rw [if_neg hdir, hplain]
    simp [hwild]

private theorem unslashed_of_mem_names {p : List String} {name : String} (hd : d.Named)
    (h : name ∈ sorted (d.fileNames p ++ d.dirNames p)) : '/' ∉ name.toList := by
  rw [mem_sorted, List.mem_append, Disk.mem_fileNames, Disk.mem_dirNames, ← List.mem_append] at h
  exact hd _ h name (List.mem_append_right _ (List.mem_singleton_self name))

theorem proper_of_mem_namesIn {dir name : String} (hd : d.Named)
    (h : name ∈ namesIn d false dir ("*" ++ l.profile.suffix)) : Disk.IsProper name := by
  have hstar : startsWith ("*" ++ l.profile.suffix) "." = false := by cases l <;> decide
  have hempty : matchesName ("*" ++ l.profile.suffix) "" = false := by cases l <;> decide
  unfold namesIn at h
  split at h
  · cases h
  dsimp only at h
  split at h
  · obtain ⟨hn, hf⟩ := List.mem_filter.mp h
    rw [hstar, Bool.false_or, Bool.and_eq_true, Bool.not_eq_true'] at hf
    refine ⟨?_, ?_, ?_, unslashed_of_mem_names hd hn⟩
    · rintro rfl
      exact absurd (hempty.symm.trans hf.2) (by decide)
    · rintro rfl
      exact absurd hf.1 (by decide)
    · rintro rfl
      exact absurd hf.1 (by decide)
  · cases h

theorem selected (hd : d.Named) (l : Language) (h : hasWildcard input = false) :
    (∀ path ∈ withSuffix d input l.profile.suffix, Disk.IsProper (Path.baseName path)) ∧
      ((withSuffix d input l.profile.suffix).map Path.baseName).Nodup := by
  have hw := withSuffix_eq d l h
  have hpath : ∀ path ∈ withSuffix d input l.profile.suffix,
      Disk.IsProper (Path.baseName path) ∧
        path = Path.join (searched input l) (Path.baseName path) := by
    intro path hp
    rw [hw, Arrangement.mem_arrange, mem_sorted] at hp
    obtain ⟨name, hn, rfl⟩ := List.mem_map.mp hp
    have hname := proper_of_mem_namesIn hd hn
    rw [Path.baseName_join hname.unslashed]
    exact ⟨hname, rfl⟩
  refine ⟨fun path hp => (hpath path hp).1, List.Nodup.map_on (fun x hx y hy he => ?_) ?_⟩
  · rw [(hpath x hx).2, (hpath y hy).2, he]
  · rw [hw]
    exact Arrangement.nodup_arrange (nodup_sorted _)

end Glob

theorem foldl_put_of_nodup {α β : Type} {k : α → β} {put : List α → α → List α}
    (hput : ∀ xs x, k x ∉ xs.map k → put xs x = xs ++ [x]) {xs ys : List α}
    (h : (xs.map k ++ ys.map k).Nodup) : ys.foldl put xs = xs ++ ys := by
  induction ys generalizing xs with
  | nil => simp
  | cons y ys ih =>
    have hnew : k y ∉ xs.map k := fun hm =>
      (List.nodup_append.mp h).2.2 _ hm _ (by simp) rfl
    rw [List.foldl_cons, hput xs y hnew, ih (by simpa using h), List.append_assoc]
    rfl

namespace Graph

private theorem put_new {g : Graph} {file : String} {deps : List String} (h : file ∉ g.files) :
    g.put file deps = g ++ [(file, deps)] := by
  refine if_neg ?_
  rw [List.any_eq_true]
  rintro ⟨e, he, hf⟩
  exact h (List.mem_map.mpr ⟨e, he, of_decide_eq_true hf⟩)

theorem foldl_put {g es : Graph} (h : (g.files ++ es.files).Nodup) :
    es.foldl (fun g (name, deps) => g.put name deps) g = g ++ es :=
  foldl_put_of_nodup (fun _ _ => put_new) (by simpa [files] using h)

end Graph

namespace Dependency
variable {lang : Option Language} {d : Disk}

def entry (d : Disk) (names : List String) (lang : Option Language) (path : String) :
    Except Fault (String × List String) := do
  let deps ← ofFile d path lang
  return (Path.baseName path, deps.filter fun dep => names.contains dep && dep ≠ Path.baseName path)

private theorem entry_eq_ok {names : List String} {path : String}
    {e : String × List String} (h : entry d names lang path = .ok e) :
    e.1 = Path.baseName path ∧ ∀ dep ∈ e.2, dep ∈ names := by
  unfold entry at h
  cases hd : ofFile d path lang with
  | error f =>
    rw [hd] at h
    cases h
  | ok deps =>
    rw [hd] at h
    obtain rfl := Except.ok.inj h
    refine ⟨rfl, fun dep hdep => ?_⟩
    have := (List.mem_filter.mp hdep).2
    rw [Bool.and_eq_true, List.contains_iff_mem] at this
    exact this.1

private theorem entries_eq_ok {names : List String}
    {paths : List String} {es : Graph} (h : paths.mapM (entry d names lang) = .ok es) :
    es.files = paths.map Path.baseName ∧ ∀ e ∈ es, ∀ dep ∈ e.2, dep ∈ names := by
  induction paths generalizing es with
  | nil =>
    obtain rfl := Except.ok.inj h
    exact ⟨rfl, by simp⟩
  | cons path paths ih =>
    rw [List.mapM_cons] at h
    cases he : entry d names lang path with
    | error f =>
      rw [he] at h
      cases h
    | ok e =>
      cases hes : paths.mapM (entry d names lang) with
      | error f =>
        rw [he, hes] at h
        cases h
      | ok rest =>
        rw [he, hes] at h
        obtain rfl := Except.ok.inj h
        obtain ⟨hname, hdeps⟩ := entry_eq_ok he
        obtain ⟨hnames, hrest⟩ := ih hes
        exact ⟨congrArg₂ List.cons hname hnames, List.forall_mem_cons.mpr ⟨hdeps, hrest⟩⟩

theorem graph_files {paths : List String} {g : Graph}
    (hn : (paths.map Path.baseName).Nodup) (h : graph d paths lang = .ok g) :
    g.files = paths.map Path.baseName ∧ ∀ v dep, g.Needs v dep → dep ∈ g.files := by
  have hgraph : graph d paths lang = (paths.mapM (entry d (paths.map Path.baseName) lang)) >>=
      fun es => pure (es.foldl (fun g (name, deps) => Graph.put g name deps) []) := rfl
  rw [hgraph] at h
  cases hes : paths.mapM (entry d (paths.map Path.baseName) lang) with
  | error f =>
    rw [hes] at h
    cases h
  | ok es =>
    rw [hes] at h
    obtain ⟨hnames, hdeps⟩ := entries_eq_ok hes
    have hg : es.foldl (fun g (name, deps) => Graph.put g name deps) [] = g := Except.ok.inj h
    have hnodup : (Graph.files [] ++ Graph.files es).Nodup := hnames ▸ hn
    rw [Graph.foldl_put hnodup, List.nil_append] at hg
    subst hg
    refine ⟨hnames, fun v dep hv => ?_⟩
    obtain ⟨deps, hm, hd⟩ := hv
    rw [hnames]
    exact hdeps _ hm dep hd

end Dependency

namespace Workflow

def pathsOf (files order : List String) : List String :=
  order.filterMap fun name => files.reverse.find? fun path => Path.baseName path = name

theorem pathsOf_subperm {files order : List String} (hn : order.Nodup) :
    (pathsOf files order).Subperm files := by
  refine List.Nodup.subperm (hn.filterMap fun name other path hp hq => ?_) fun path hp => ?_
  · have he := List.find?_some hp
    have ho := List.find?_some hq
    exact (of_decide_eq_true he).symm.trans (of_decide_eq_true ho)
  · obtain ⟨name, -, hf⟩ := List.mem_filterMap.mp hp
    exact List.mem_reverse.mp (List.mem_of_find?_eq_some hf)

theorem pathsOf_spec {files order : List String} (hn : (files.map Path.baseName).Nodup)
    (h : order.Perm (files.map Path.baseName)) :
    (pathsOf files order).map Path.baseName = order ∧ (pathsOf files order).Perm files := by
  have hfind (name : String) (hm : name ∈ order) : ∃ path, Path.baseName path = name ∧
      (files.reverse.find? fun path => Path.baseName path = name) = some path := by
    obtain ⟨path, hp, he⟩ := List.mem_map.mp (h.mem_iff.mp hm)
    cases hf : files.reverse.find? fun path => Path.baseName path = name with
    | none =>
      rw [List.find?_eq_none] at hf
      exact absurd (decide_eq_true he) (hf path (List.mem_reverse.mpr hp))
    | some found =>
      have he := List.find?_some (p := fun path => decide (Path.baseName path = name)) hf
      exact ⟨found, of_decide_eq_true he, rfl⟩
  have hmap : (pathsOf files order).map Path.baseName = order := by
    rw [pathsOf]
    clear h hn
    induction order with
    | nil => rfl
    | cons name order ih =>
      obtain ⟨path, he, hf⟩ := hfind name List.mem_cons_self
      simp only [List.filterMap_cons, hf, List.map_cons, he]
      rw [ih fun n hm => hfind n (List.mem_cons_of_mem _ hm)]
  have hlen : (pathsOf files order).length = files.length := by
    rw [← List.length_map Path.baseName, hmap, h.length_eq, List.length_map]
  exact ⟨hmap, (pathsOf_subperm (h.nodup_iff.mpr hn)).perm_of_length_le hlen.ge⟩

end Workflow
end Mender
