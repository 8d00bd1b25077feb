import Mender.Project.Layers
import Mender.Proofs.Disk
import Mender.Proofs.Undone

/-! The layers of a project: which files belong to each of them, and in which order. -/
namespace Mender

namespace Layers
open Text Pattern

section Number

def stepWord : List Char := "step".toList

/-- The digits that stand directly behind a word, where it first has any behind it. -/
def digitsBehind (word : List Char) : List Char → Option (List Char)
  | [] => none
  | c :: cs =>
    if word.isPrefixOf (c :: cs) && !(((c :: cs).drop word.length).takeWhile isDecimal).isEmpty
    then some (((c :: cs).drop word.length).takeWhile isDecimal)
    else digitsBehind word cs

/-- The place of a step file in the order: the first number behind `step` in its name, capitals
made small; 999 if there is none. -/
def stepKey (name : String) : Nat :=
  ((digitsBehind stepWord (lower name).toList).map digitsValue).getD 999

theorem stepPattern_eq : stepPattern = spelled stepWord (.group 1 (plus .digit)) := by
  decide +kernel

private theorem moves_stepPattern : stepPattern.Moves :=
  stepPattern_eq ▸ moves_spelled _ (by decide)

private theorem matchAt_stepPattern (before cs : List Char) (pos : Nat) :
    (stepPattern.matchAt false ⟨before, cs, pos, []⟩).map (·.group 1) =
      if stepWord.isPrefixOf cs && !((cs.drop stepWord.length).takeWhile isDecimal).isEmpty
      then some (String.ofList ((cs.drop stepWord.length).takeWhile isDecimal)) else none := by
  rw [matchAt_eq, stepPattern_eq]
  by_cases hword : stepWord <+: cs
  · obtain ⟨rest, rfl⟩ := hword
    have hprefix : stepWord.isPrefixOf (stepWord ++ rest) = true :=
      List.isPrefixOf_iff_prefix.mpr (List.prefix_append ..)
    rw [run_spelled rfl, List.drop_left, hprefix, Bool.true_and]
    by_cases hdigits : rest.takeWhile isDecimal = []
    · have hhead : ∀ x ∈ rest.head?, isDecimal x = false := by
        intro x hx
        cases rest with
        | nil => cases hx
        | cons y rest =>
          obtain rfl : y = x := Option.some.inj hx
          by_contra hy
          rw [List.takeWhile_cons_of_pos (by simpa using hy)] at hdigits
          cases hdigits
      have hnone : (group 1 (plus .digit)).run some
          (Cursor.past ⟨before, stepWord ++ rest, pos, []⟩ stepWord rest) = none :=
        run_plus_of_not hhead
      rw [hnone, hdigits]
      rfl
    · have htaken : ∀ x ∈ rest.takeWhile isDecimal, isDecimal x = true :=
        fun x hx => List.all_eq_true.mp List.all_takeWhile x hx
      have hbehind : ∀ x ∈ (rest.dropWhile isDecimal).head?, isDecimal x = false := by
        intro x hx
        have hhead := List.head?_dropWhile_not isDecimal rest
        rwa [Option.mem_def.mp hx] at hhead
      have hsplit : (Cursor.past ⟨before, stepWord ++ rest, pos, []⟩ stepWord rest).rest =
          rest.takeWhile isDecimal ++ rest.dropWhile isDecimal :=
        List.takeWhile_append_dropWhile.symm
      have hgoes := (goes_plus (c := .digit) hsplit hdigits htaken hbehind).group hsplit 1
      rw [hgoes some (by simp), if_pos (by simpa using hdigits)]
      rfl
  · rw [run_spelled_of_not hword, if_neg]
    · rfl
    · rw [Bool.and_eq_true, List.isPrefixOf_iff_prefix]
      exact fun h => hword h.1

private theorem stepNumber_eq (name : String) : stepNumber name =
    ((digitsBehind stepWord (lower name).toList).map
      fun digits => readNumber (String.ofList digits)).getD (.ok 999) := by
  have hsearch (before : List Char) (pos : Nat) (cs : List Char) :
      (stepPattern.searchFrom before pos cs).map (·.group 1) =
        (digitsBehind stepWord cs).map String.ofList := by
    induction cs generalizing before pos with
    | nil =>
      rw [searchFrom, matchAt_end moves_stepPattern]
      rfl
    | cons c cs ih =>
      have hat := matchAt_stepPattern before (c :: cs) pos
      rw [searchFrom, digitsBehind]
      cases hm : stepPattern.matchAt false ⟨before, c :: cs, pos, []⟩ with
      | some m =>
        rw [hm] at hat
        split at hat
        · rename_i hc
          rw [if_pos hc]
          exact hat
        · cases hat
      | none =>
        rw [hm] at hat
        split at hat
        · cases hat
        · rename_i hc
          rw [if_neg hc]
          exact ih ..
  have h := hsearch [] 0 (lower name).toList
  rw [stepNumber, search]
  cases hm : stepPattern.searchFrom [] 0 (lower name).toList with
  | none =>
    rw [hm] at h
    rw [Option.map_eq_none_iff.mp h.symm]
    rfl
  | some m =>
    rw [hm] at h
    obtain ⟨digits, hd, he⟩ := Option.map_eq_some_iff.mp h.symm
    rw [hd]
    exact congrArg readNumber he.symm

theorem stepKey_of_stepNumber {name : String} {n : Int} (h : stepNumber name = .ok n) :
    n = stepKey name := by
  rw [stepNumber_eq] at h
  rw [stepKey]
  cases hd : digitsBehind stepWord (lower name).toList with
  | none =>
    rw [hd] at h
    exact (Except.ok.inj h).symm
  | some digits =>
    rw [hd] at h
    simp only [Option.map_some, Option.getD_some, readNumber, String.toList_ofList] at h ⊢
    split at h
    · exact (Except.ok.inj h).symm
    · cases h

end Number

section Order
variable {α : Type} {xs : List α}

theorem keyed_trans (key : α → Nat) (a b c : α) (hab : decide (key a ≤ key b) = true)
    (hbc : decide (key b ≤ key c) = true) : decide (key a ≤ key c) = true :=
  decide_eq_true (Nat.le_trans (of_decide_eq_true hab) (of_decide_eq_true hbc))

theorem keyed_total (key : α → Nat) (a b : α) :
    (decide (key a ≤ key b) || decide (key b ≤ key a)) = true := by
  simpa using Nat.le_total (key a) (key b)

private theorem filter_mergeSort (key : α → Nat) (xs : List α) (n : Nat) :
    (xs.mergeSort fun a b => decide (key a ≤ key b)).filter (fun a => key a = n) =
      xs.filter fun a => key a = n := by
  have hties : (xs.filter fun a => key a = n).Pairwise
      fun a b => decide (key a ≤ key b) = true := by
    rw [List.pairwise_filter]
    refine List.pairwise_of_forall fun a b ha hb => ?_
    simp only [decide_eq_true_eq] at ha hb ⊢
    omega
  have hsub : (xs.filter fun a => key a = n).Sublist
      ((xs.mergeSort fun a b => decide (key a ≤ key b)).filter fun a => key a = n) := by
    have := (List.sublist_mergeSort (keyed_trans key) (keyed_total key) hties
      List.filter_sublist).filter fun a => decide (key a = n)
    rwa [List.filter_filter, funext fun a => Bool.and_self (decide (key a = n))] at this
  exact (hsub.eq_of_length ((List.mergeSort_perm xs _).filter _).length_eq.symm).symm

/-- Sorted by a number, members stand in the order of their numbers, and those that have the same
number as they did before. -/
theorem pairwise_mergeSort_of {R : α → α → Prop} (key : α → Nat) (h : xs.Pairwise R) :
    (xs.mergeSort fun a b => decide (key a ≤ key b)).Pairwise
      fun a b => key a < key b ∨ key a = key b ∧ R a b := by
  have hsorted := List.pairwise_mergeSort (keyed_trans key) (keyed_total key) xs
  rw [List.pairwise_iff_forall_sublist] at h hsorted ⊢
  intro a b hab
  rcases Nat.lt_or_eq_of_le (of_decide_eq_true (hsorted hab)) with hlt | heq
  · exact .inl hlt
  · refine .inr ⟨heq, h ?_⟩
    have hkept := hab.filter fun x => decide (key x = key b)
    rw [filter_mergeSort] at hkept
    refine List.Sublist.trans ?_ (hkept.trans List.filter_sublist)
    simp [heq]

theorem nodup_of_ascending {names : List String} (h : names.Pairwise (· < ·)) : names.Nodup := by
  refine h.imp ?_
  rintro a b hlt rfl
  exact String.lt_irrefl a hlt

theorem pairwise_idxOf [BEq α] [LawfulBEq α] (h : xs.Nodup) :
    xs.Pairwise fun a b => xs.idxOf a < xs.idxOf b := by
  rw [List.pairwise_iff_getElem]
  intro i j hi hj hij
  rwa [h.idxOf_getElem, h.idxOf_getElem]

end Order

variable {d : Disk} {dir project name : String} {names : List String} {ls : Layers}

theorem of_scripts (h : scripts d dir = .ok names) :
    ∃ listed, d.list dir = .ok listed ∧ names = listed.filter (endsWith · ".py") := by
  obtain ⟨listed, hlisted, h⟩ := bind_eq_ok.mp h
  exact ⟨listed, hlisted, (Except.ok.inj h).symm⟩

theorem of_steps (h : steps d dir = .ok names) :
    ∃ files, scripts d dir = .ok files ∧
      names = files.mergeSort fun a b => decide (stepKey a ≤ stepKey b) := by
  obtain ⟨files, hfiles, h⟩ := bind_eq_ok.mp h
  obtain ⟨numbered, hnumbered, h⟩ := bind_eq_ok.mp h
  refine ⟨files, hfiles, ?_⟩
  have hkeys (name : String) (e : Int × String)
      (he : (do return (← stepNumber name, name) : Except Fault (Int × String)) = .ok e) :
      e = ((stepKey name : Int), name) := by
    obtain ⟨n, hn, he⟩ := bind_eq_ok.mp he
    rw [← Except.ok.inj he, stepKey_of_stepNumber hn]
  rw [← Except.ok.inj h, eq_of_mapM hkeys hnumbered,
    List.map_mergeSort (s := fun a b => decide (stepKey a ≤ stepKey b)), List.map_map]
  · exact congrArg (List.mergeSort · _) (List.map_id files)
  · intro a ha b hb
    obtain ⟨x, -, rfl⟩ := List.mem_map.mp ha
    obtain ⟨y, -, rfl⟩ := List.mem_map.mp hb
    simp

def HasScript (d : Disk) (dir name : String) : Prop :=
  endsWith name ".py" = true ∧ d.Lists dir name

theorem HasScript.proper (h : HasScript d dir name) (hd : d.Named) : Disk.IsProper name := by
  have differs {other : String} (ho : endsWith other ".py" = false) : name ≠ other := by
    rintro rfl
    rw [h.1] at ho
    cases ho
  exact ⟨differs (by decide), differs (by decide), differs (by decide), h.2.unslashed hd⟩

theorem HasScript.locate (h : HasScript d dir name) (hd : d.Named) :
    ∃ p, d.locate? (Path.join dir name) = some p := by
  obtain ⟨q, hq, -⟩ := h.2
  have hne : dir ≠ "" := by
    rintro rfl
    cases hq
  rw [Disk.locate_join hne (h.proper hd), hq]
  exact ⟨_, rfl⟩

theorem mem_scripts (h : scripts d dir = .ok names) : name ∈ names ↔ HasScript d dir name := by
  obtain ⟨listed, hlisted, rfl⟩ := of_scripts h
  rw [List.mem_filter, (Disk.of_list hlisted).2, and_comm]
  rfl

theorem listed_scripts {listed : List String} (h : scripts d dir = .ok names)
    (hlisted : d.list dir = .ok listed) :
    names.Pairwise fun a b => listed.idxOf a < listed.idxOf b := by
  obtain ⟨listed', hlisted', rfl⟩ := of_scripts h
  obtain rfl := Except.ok.inj (hlisted.symm.trans hlisted')
  exact (pairwise_idxOf (Disk.of_list hlisted).1).filter _

private theorem ordered_steps (h : steps d dir = .ok names) :
    (∀ listed, d.list dir = .ok listed → names.Pairwise fun a b =>
      stepKey a < stepKey b ∨ stepKey a = stepKey b ∧ listed.idxOf a < listed.idxOf b) ∧
    ∀ name, name ∈ names ↔ HasScript d dir name := by
  obtain ⟨files, hfiles, rfl⟩ := of_steps h
  refine ⟨fun listed hlisted => pairwise_mergeSort_of stepKey (listed_scripts hfiles hlisted),
    fun name => ?_⟩
  rw [List.mem_mergeSort]
  exact mem_scripts hfiles

/-- The scripts of a project in their layers: the data structures in the order of their names, the
steps in the order of their numbers and, where these agree, as they are listed, the others as they
are listed. -/
structure Arranged (ls : Layers) (d : Disk) (project : String) : Prop where
  data_mem (name : String) :
    name ∈ ls.dataFiles ↔ HasScript d (Path.join project dataDir) name
  data_order : ls.dataFiles.Pairwise (· < ·)
  step_mem (name : String) :
    name ∈ ls.stepFiles ↔ HasScript d (Path.join project stepDir) name
  step_order (listed : List String) : d.list (Path.join project stepDir) = .ok listed →
    ls.stepFiles.Pairwise fun a b =>
      stepKey a < stepKey b ∨ stepKey a = stepKey b ∧ listed.idxOf a < listed.idxOf b
  entry_mem (name : String) :
    name ∈ ls.entryFiles ↔ HasScript d project name ∧ d.isFile (Path.join project name) = true
  entry_order (listed : List String) : d.list project = .ok listed →
    ls.entryFiles.Pairwise fun a b => listed.idxOf a < listed.idxOf b

private theorem of_listed {α : Type} {listed : Bool} {x : Except Fault (List String)}
    {f : List String → Except Fault α} {a : α}
    (h : (if listed then x >>= f else pure [] >>= f) = .ok a) :
    ∃ names, (x = .ok names ∨ listed = false ∧ names = []) ∧ f names = .ok a := by
  cases listed with
  | true =>
    obtain ⟨names, hx, hf⟩ := bind_eq_ok.mp h
    exact ⟨names, .inl hx, hf⟩
  | false => exact ⟨[], .inr ⟨rfl, rfl⟩, h⟩

private theorem not_hasScript (h : d.isDir dir = false) : ¬ HasScript d dir name := by
  intro hs
  have hdir := hs.2.isDir
  rw [h] at hdir
  cases hdir

theorem arranged_find (h : find d project = .ok (some ls)) : ls.Arranged d project := by
  obtain ⟨entries, hentries, h⟩ := bind_eq_ok.mp h
  dsimp only at h
  split at h
  · obtain ⟨dataFiles, hdata, h⟩ := of_listed h
    obtain ⟨stepFiles, hsteps, h⟩ := of_listed h
    obtain rfl := Option.some.inj (Except.ok.inj h)
    have hdata : dataFiles.Pairwise (· < ·) ∧
        ∀ name, name ∈ dataFiles ↔ HasScript d (Path.join project dataDir) name := by
      rcases hdata with hdata | ⟨hdir, rfl⟩
      · cases hfiles : scripts d (Path.join project dataDir) with
        | error e =>
          rw [hfiles] at hdata
          cases hdata
        | ok files =>
          rw [hfiles] at hdata
          cases hdata
          exact ⟨pairwise_sorted _, fun _ => mem_sorted.trans (mem_scripts hfiles)⟩
      · exact ⟨.nil, fun _ => iff_of_false List.not_mem_nil (not_hasScript hdir)⟩
    have hsteps : (∀ listed, d.list (Path.join project stepDir) = .ok listed →
          stepFiles.Pairwise fun a b =>
            stepKey a < stepKey b ∨ stepKey a = stepKey b ∧ listed.idxOf a < listed.idxOf b) ∧
        ∀ name, name ∈ stepFiles ↔ HasScript d (Path.join project stepDir) name := by
      rcases hsteps with hsteps | ⟨hdir, rfl⟩
      · exact ordered_steps hsteps
      · exact ⟨fun _ _ => .nil, fun _ => iff_of_false List.not_mem_nil (not_hasScript hdir)⟩
    refine ⟨hdata.2, hdata.1, hsteps.2, hsteps.1, fun name => ?_,
      fun listed hlisted => (listed_scripts hentries hlisted).filter _⟩
    rw [List.mem_filter, mem_scripts hentries]
  · cases h

theorem Arranged.entry_nodup (h : ls.Arranged d project) : ls.entryFiles.Nodup := by
  by_cases he : ls.entryFiles = []
  · rw [he]
    exact .nil
  · obtain ⟨name, hn⟩ := List.exists_mem_of_ne_nil _ he
    obtain ⟨listed, hlisted⟩ := ((h.entry_mem name).mp hn).1.2.list
    refine (h.entry_order listed hlisted).imp ?_
    rintro a b hab rfl
    omega

theorem Arranged.step_nodup (h : ls.Arranged d project) : ls.stepFiles.Nodup := by
  by_cases he : ls.stepFiles = []
  · rw [he]
    exact .nil
  · obtain ⟨name, hn⟩ := List.exists_mem_of_ne_nil _ he
    obtain ⟨listed, hlisted⟩ := ((h.step_mem name).mp hn).2.list
    refine (h.step_order listed hlisted).imp ?_
    rintro a b hab rfl
    omega

end Layers
end Mender
