import Mender.Proofs.Disk
import Mender.Proofs.Run
import Mathlib.Data.List.Nodup
import Mathlib.Data.List.Perm.Subperm

/-! The index of the modules of a project. Files are met one after the other: each gives its own
name to its path, and the part of the name before the first underscore only where that is free. Main
statement: whatever the order in which a tree is walked, every script is found under its name, and a
name that some script bears never stands for a script of which it is only a part. What carries it is
an equation for the whole walk: a name leads to the last file that bears it, or else to the first
one that it begins. -/
namespace Mender
open Text

namespace Disk
variable {d : Disk} {front back p more : List String}

/-- Whatever is on the disk stands in a directory, and no name holds a slash. -/
structure IsTree (d : Disk) : Prop where
  named : d.Named
  ways : ∀ p ∈ d.files.map (·.1) ++ d.dirs, ∀ above ∈ ancestors p, above ∈ d.dirs

instance (d : Disk) : Decidable d.IsTree :=
  decidable_of_iff
    (d.Named ∧ ∀ p ∈ d.files.map (·.1) ++ d.dirs, ∀ above ∈ ancestors p, above ∈ d.dirs)
    ⟨fun h => ⟨h.1, h.2⟩, fun h => ⟨h.named, h.ways⟩⟩

theorem IsTree.above (h : d.IsTree) (hp : front ++ back ∈ d.files.map (·.1) ++ d.dirs)
    (hfront : front ≠ []) (hback : back ≠ []) : front ∈ d.dirs := by
  refine h.ways _ hp _ (List.mem_filterMap.mpr ⟨front.length, ?_, ?_⟩)
  · have := List.length_pos_iff.mpr hback
    simpa using this
  · rw [if_neg (by simpa using hfront), List.take_left]

theorem length_le_dirs (h : ∀ front, front ≠ [] → front <+: more → p ++ front ∈ d.dirs) :
    more.length ≤ d.dirs.length := by
  let parts := (List.range more.length).map fun i => p ++ more.take (i + 1)
  have hnodup : parts.Nodup := by
    refine List.Nodup.map_on ?_ List.nodup_range
    intro i hi j hj he
    have hl := congrArg List.length (List.append_cancel_left he)
    simp only [List.mem_range] at hi hj
    simp only [List.length_take] at hl
    omega
  have hsub : parts ⊆ d.dirs := by
    intro part hpart
    obtain ⟨i, hi, rfl⟩ := List.mem_map.mp hpart
    refine h _ ?_ (List.take_prefix _ _)
    have := List.mem_range.mp hi
    exact List.ne_nil_of_length_pos (by rw [List.length_take]; omega)
  simpa [parts] using (List.subperm_of_subset hnodup hsub).length_le

end Disk

namespace Listing
variable {l : Listing} {d : Disk} {root place p more : List String} {file : String} {fuel : Nat}

/-- A listing holds what is in each directory of a disk, in an order of its own. -/
structure Arranges (l : Listing) (d : Disk) : Prop where
  files (p : List String) : (l.files p).Perm (d.fileNames p)
  dirs (p : List String) : (l.dirs p).Perm (d.dirNames p)

theorem arranges_listing (d : Disk) : d.listing.Arranges d :=
  ⟨fun _ => d.order.perm _ _, fun _ => d.order.perm _ _⟩

def Leads (l : Listing) : List String → List String → Prop
  | _, [] => True
  | p, name :: more =>
    name ∈ l.dirs p ∧ ModuleIndex.isSkipped name = false ∧ l.Leads (p ++ [name]) more

private theorem mem_walk : (more, file) ∈ l.walk root fuel place ↔ ∃ way, more = place ++ way ∧
    way.length < fuel ∧ l.Leads (root ++ place) way ∧ file ∈ l.files (root ++ more) := by
  induction fuel generalizing place with
  | zero => simp [walk]
  | succ fuel ih =>
    simp only [walk, List.mem_append, List.mem_map, List.mem_flatMap, List.mem_filter, ih]
    constructor
    · rintro (⟨f, hf, he⟩ | ⟨name, ⟨hname, hskip⟩, way, rfl, hlen, hway, hf⟩)
      · obtain ⟨rfl, rfl⟩ := Prod.mk.inj he
        exact ⟨[], by simp, by simp, trivial, hf⟩
      · refine ⟨name :: way, by simp, by simpa using hlen, ⟨hname, by simpa using hskip, ?_⟩, hf⟩
        rwa [List.append_assoc]
    · rintro ⟨way, rfl, hlen, hway, hf⟩
      cases way with
      | nil => exact .inl ⟨file, by simpa using hf, by simp⟩
      | cons name way =>
        obtain ⟨hname, hskip, hway⟩ := hway
        refine .inr ⟨name, ⟨hname, by simpa using hskip⟩, way, by simp, by simpa using hlen, ?_, hf⟩
        rwa [List.append_assoc] at hway

private theorem Arranges.leads_iff (h : l.Arranges d) : l.Leads p more ↔
    (∀ name ∈ more, ModuleIndex.isSkipped name = false) ∧
      ∀ front, front ≠ [] → front <+: more → p ++ front ∈ d.dirs := by
  induction more generalizing p with
  | nil => simpa [Leads] using fun _ hne he => absurd he hne
  | cons name more ih =>
    have hname : name ∈ l.dirs p ↔ p ++ [name] ∈ d.dirs :=
      (h.dirs p).mem_iff.trans Disk.mem_dirNames
    rw [Leads, hname, ih]
    constructor
    · rintro ⟨hd, hskip, hskips, hways⟩
      refine ⟨by simpa using ⟨hskip, hskips⟩, ?_⟩
      intro front hne hf
      obtain ⟨rest, rfl, hrest⟩ := (List.prefix_cons_iff.mp hf).resolve_left hne
      by_cases hnil : rest = []
      · rwa [hnil]
      · simpa using hways rest hnil hrest
    · rintro ⟨hskips, hways⟩
      refine ⟨hways [name] (by simp) (by simp), hskips name (by simp),
        fun n hn => hskips n (by simp [hn]), ?_⟩
      intro front hne hf
      simpa using hways (name :: front) (by simp) (by simpa using hf)

/-- In a tree a walk of full depth meets exactly the files below searched directories. -/
theorem Arranges.mem_walk (h : l.Arranges d) (hd : d.IsTree) :
    (place, file) ∈ l.walk root (d.dirs.length + 1) [] ↔
      root ++ place ++ [file] ∈ d.files.map (·.1) ∧
        ∀ dir ∈ place, ModuleIndex.isSkipped dir = false := by
  have hfile : file ∈ l.files (root ++ place) ↔ root ++ place ++ [file] ∈ d.files.map (·.1) :=
    (h.files _).mem_iff.trans Disk.mem_fileNames
  rw [Listing.mem_walk, ← hfile, List.append_nil]
  constructor
  · rintro ⟨way, rfl, -, hway, hf⟩
    exact ⟨hf, (h.leads_iff.mp hway).1⟩
  · rintro ⟨hf, hskips⟩
    have hways : ∀ front, front ≠ [] → front <+: place → root ++ front ∈ d.dirs := by
      rintro front hne ⟨rest, rfl⟩
      have hbelow : (root ++ front) ++ (rest ++ [file]) ∈ d.files.map (·.1) ++ d.dirs := by
        simpa only [List.append_assoc] using List.mem_append_left d.dirs (hfile.mp hf)
      exact hd.above hbelow (by simp [hne]) (by simp)
    exact ⟨place, rfl, Nat.lt_succ_of_le (Disk.length_le_dirs hways),
      h.leads_iff.mpr ⟨hskips, hways⟩, hf⟩

end Listing

namespace ModuleIndex
variable {index : ModuleIndex} {name path k file stem : String} {place : List String}

theorem lookup_put : (index.put name path).lookup k =
    if k = name then some path else index.lookup k :=
  lookup_overwrite index name k path

theorem lookup_putNew : (index.putNew name path).lookup k =
    (index.lookup k).or (if k = name then some path else none) := by
  unfold putNew
  by_cases htaken : index.any (·.1 == name) = true
  · rw [if_pos htaken]
    split
    · rename_i hk
      subst hk
      obtain ⟨e, he, hn⟩ := List.any_eq_true.mp htaken
      have hsome : index.lookup k ≠ none := by
        rw [ne_eq, List.lookup_eq_none_iff]
        intro hnone
        exact bne_iff_ne.mp (hnone e he) (beq_iff_eq.mp hn).symm
      obtain ⟨old, hold⟩ := Option.ne_none_iff_exists'.mp hsome
      rw [hold, Option.some_or]
    · rw [Option.or_none]
  · rw [if_neg htaken, List.lookup_append, List.lookup_cons, List.lookup_nil]
    by_cases hk : k = name
    · simp [hk]
    · simp [hk, beq_eq_false_iff_ne.mpr hk]

private theorem nodup_concat (h : (index.map (·.1)).Nodup)
    (hfree : ¬ index.any (·.1 == name) = true) :
    ((index ++ [(name, path)]).map (·.1)).Nodup := by
  rw [List.map_append, List.map_singleton, List.nodup_append]
  refine ⟨h, List.nodup_singleton _, ?_⟩
  intro a ha b hb
  obtain rfl := List.mem_singleton.mp hb
  rintro rfl
  obtain ⟨e, he, hn⟩ := List.mem_map.mp ha
  exact hfree (List.any_eq_true.mpr ⟨e, he, beq_iff_eq.mpr hn⟩)

theorem nodup_put (h : (index.map (·.1)).Nodup) : ((index.put name path).map (·.1)).Nodup := by
  unfold put
  split
  · have hkeys : (index.map fun e => if e.1 == name then (name, path) else e).map (·.1) =
        index.map (·.1) := by
      rw [List.map_map]
      refine List.map_congr_left fun e _ => ?_
      by_cases he : e.1 = name
      · simp [he]
      · simp [he]
    rwa [hkeys]
  · rename_i hfree
    exact nodup_concat h hfree

theorem nodup_putNew (h : (index.map (·.1)).Nodup) :
    ((index.putNew name path).map (·.1)).Nodup := by
  unfold putNew
  split
  · exact h
  · rename_i hfree
    exact nodup_concat h hfree

def isScript (file : String) : Bool := endsWith file ".py" && !startsWith file "_"

def pathOf (place : List String) (file : String) : String :=
  upTo (-3) (replace (join "." (place ++ [file])) "/" ".")

def named? (k : String) (f : List String × String) : Option String :=
  if isScript f.2 ∧ k = upTo (-3) f.2 then some (pathOf f.1 f.2) else none

def begun? (k : String) (f : List String × String) : Option String :=
  if isScript f.2 ∧ contains (upTo (-3) f.2) "_" ∧ k = (splitOn '_' (upTo (-3) f.2)).headD "" then
    some (pathOf f.1 f.2)
  else none

private theorem lookup_addFile : (index.addFile place file).lookup k =
    (named? k (place, file)).or ((index.lookup k).or (begun? k (place, file))) := by
  by_cases hs : isScript file = true
  · have hadd : index.addFile place file = if contains (upTo (-3) file) "_" then
        (index.put (upTo (-3) file) (pathOf place file)).putNew
          ((splitOn '_' (upTo (-3) file)).headD "") (pathOf place file)
        else index.put (upTo (-3) file) (pathOf place file) := if_pos hs
    have hput : (index.put (upTo (-3) file) (pathOf place file)).lookup k =
        (named? k (place, file)).or (index.lookup k) := by
      rw [lookup_put]
      by_cases hk : k = upTo (-3) file
      · rw [if_pos hk, named?, if_pos ⟨hs, hk⟩, Option.some_or]
      · rw [if_neg hk, named?, if_neg fun h => hk h.2, Option.none_or]
    rw [hadd]
    by_cases hc : contains (upTo (-3) file) "_" = true
    · rw [if_pos hc, lookup_putNew, hput, Option.or_assoc]
      simp only [begun?, hs, hc, true_and]
    · have hbegun : begun? k (place, file) = none := if_neg fun h => hc h.2.1
      rw [if_neg hc, hput, hbegun, Option.or_none]
  · have hadd : index.addFile place file = index := if_neg hs
    have hnamed : named? k (place, file) = none := if_neg fun h => hs h.1
    have hbegun : begun? k (place, file) = none := if_neg fun h => hs h.1
    rw [hadd, hnamed, hbegun, Option.none_or, Option.or_none]

theorem lookup_ofFiles (files : List (List String × String)) (k : String) :
    (ofFiles files).lookup k =
      (files.filterMap (named? k)).getLast?.or (files.filterMap (begun? k)).head? := by
  -- The last file of the walk decides last, so the induction takes files off the end.
  induction files using List.reverseRecOn with
  | nil => rfl
  | append_singleton files f ih =>
    have hlast : ofFiles (files ++ [f]) = (ofFiles files).addFile f.1 f.2 := by
      simp [ofFiles]
    have hone (g : List String × String → Option String) : [f].filterMap g = (g f).toList := by
      cases hg : g f with
      | none => simp [hg]
      | some path => simp [hg]
    have hopt (o : Option String) : o.toList.getLast? = o ∧ o.toList.head? = o := by
      cases o with
      | none => exact ⟨rfl, rfl⟩
      | some path => exact ⟨rfl, rfl⟩
    rw [hlast, lookup_addFile, ih, List.filterMap_append, List.filterMap_append, hone, hone,
      List.getLast?_append, List.head?_append, (hopt _).1, (hopt _).2]
    simp only [Option.or_assoc]

private theorem nodup_addFile (h : (index.map (·.1)).Nodup) :
    ((index.addFile place file).map (·.1)).Nodup := by
  unfold addFile
  split
  · dsimp only
    split
    · exact nodup_putNew (nodup_put h)
    · exact nodup_put h
  · exact h

theorem nodup_ofFiles (files : List (List String × String)) :
    ((ofFiles files).map (·.1)).Nodup :=
  List.foldlRecOn (motive := fun index : ModuleIndex => (index.map (·.1)).Nodup) files _ (by simp)
    fun _ h _ _ => nodup_addFile h

def dotted (place : List String) (stem : String) : String := join "." (place ++ [stem])

theorem pathOf_script (h : ∀ name ∈ place ++ [stem ++ ".py"], '/' ∉ name.toList) :
    pathOf place (stem ++ ".py") = dotted place stem := by
  have hslash : '/' ∉ (join "." (place ++ [stem ++ ".py"])).toList := not_mem_join (by decide) h
  have hreplace : replace (join "." (place ++ [stem ++ ".py"])) "/" "." =
      join "." (place ++ [stem ++ ".py"]) :=
    replace_eq_self _ fun hin => hslash (hin.subset (by simp))
  rw [pathOf, hreplace, join_concat]
  exact upTo_append rfl (by decide)

/-- A script below a place: it is on the disk, its name is not private, and no directory on the way
to it is skipped. -/
structure Scanned (d : Disk) (root place : List String) (stem : String) : Prop where
  stored : root ++ place ++ [stem ++ ".py"] ∈ d.files.map (·.1)
  shown : startsWith (stem ++ ".py") "_" = false
  searched : ∀ dir ∈ place, isSkipped dir = false

theorem isScript_iff : isScript file = true ↔
    ∃ stem, file = stem ++ ".py" ∧ startsWith (stem ++ ".py") "_" = false := by
  rw [isScript, Bool.and_eq_true, endsWith, List.isSuffixOf_iff_suffix, Bool.not_eq_true']
  constructor
  · rintro ⟨⟨cs, hcs⟩, hstart⟩
    have hfile : file = String.ofList cs ++ ".py" := by
      rw [← String.toList_inj, String.toList_append, String.toList_ofList, hcs]
    exact ⟨String.ofList cs, hfile, hfile ▸ hstart⟩
  · rintro ⟨stem, rfl, hstart⟩
    exact ⟨⟨stem.toList, by rw [String.toList_append]⟩, hstart⟩

theorem named?_eq_some : named? k (place, file) = some path ↔
    file = k ++ ".py" ∧ startsWith (k ++ ".py") "_" = false ∧ pathOf place (k ++ ".py") = path := by
  constructor
  · intro h
    obtain ⟨⟨hs, hk⟩, hpath⟩ := Option.ite_none_right_eq_some.mp h
    obtain ⟨stem, rfl, hstart⟩ := isScript_iff.mp hs
    obtain rfl : k = stem := hk.trans (upTo_append rfl (by decide))
    exact ⟨rfl, hstart, Option.some.inj hpath⟩
  · rintro ⟨rfl, hstart, rfl⟩
    exact if_pos ⟨isScript_iff.mpr ⟨k, rfl, hstart⟩, (upTo_append rfl (by decide)).symm⟩

theorem of_begun? (h : begun? k (place, file) = some path) : ∃ stem, file = stem ++ ".py" ∧
    startsWith (stem ++ ".py") "_" = false ∧ startsWith stem (k ++ "_") = true ∧
      pathOf place (stem ++ ".py") = path := by
  obtain ⟨⟨hs, hc, hk⟩, hpath⟩ := Option.ite_none_right_eq_some.mp h
  obtain ⟨stem, rfl, hstart⟩ := isScript_iff.mp hs
  have hstem : upTo (-3) (stem ++ ".py") = stem := upTo_append rfl (by decide)
  rw [hstem] at hc hk
  refine ⟨stem, rfl, hstart, ?_, Option.some.inj hpath⟩
  obtain ⟨piece, pieces, hsplit⟩ :=
    List.exists_cons_of_ne_nil (intercalate_splitChars '_' stem.toList).1
  have hpiece : k.toList = piece := by
    rw [hk, splitOn, hsplit]
    exact String.toList_ofList
  have hfirst := splitChars_head '_' stem.toList
  rw [hsplit, List.headD_cons, ← hpiece] at hfirst
  rw [startsWith, List.isPrefixOf_iff_prefix, String.toList_append]
  rcases hfirst with hall | ⟨more, hmore⟩
  · -- The first piece is the whole name only where there is no underscore.
    have hin : '_' ∈ stem.toList := (contains_iff.mp hc).subset (by simp)
    have hout : '_' ∉ piece := not_mem_of_mem_splitChars (by rw [hsplit]; simp)
    exact absurd hin (hall ▸ hpiece ▸ hout)
  · exact ⟨more, by simpa using hmore.symm⟩

section Scan
variable {d : Disk} {l : Listing} {root : List String}

theorem scanBy_eq (hd : d.IsTree) (hl : l.Arranges d) (root : List String) :
    scanBy d l root = ofFiles (l.walk root (d.dirs.length + 1) []) := by
  by_cases hroot : d.isDirAt root = true
  · exact if_pos hroot
  · have hnone : l.walk root (d.dirs.length + 1) [] = [] := by
      refine List.eq_nil_iff_forall_not_mem.mpr ?_
      rintro ⟨place, file⟩ hf
      have hstored := ((hl.mem_walk hd).mp hf).1
      have hne : root ≠ [] := by
        rintro rfl
        exact hroot rfl
      have hbelow : root ++ (place ++ [file]) ∈ d.files.map (·.1) ++ d.dirs := by
        simpa only [List.append_assoc] using List.mem_append_left d.dirs hstored
      have hin : root ∈ d.dirs := hd.above hbelow hne (by simp)
      exact hroot (by simp [Disk.isDirAt, hin])
    rw [hnone]
    exact if_neg hroot

theorem scanned_iff (hd : d.IsTree) (hl : l.Arranges d) : Scanned d root place stem ↔
    (place, stem ++ ".py") ∈ l.walk root (d.dirs.length + 1) [] ∧
      startsWith (stem ++ ".py") "_" = false := by
  rw [hl.mem_walk hd]
  exact ⟨fun h => ⟨⟨h.stored, h.searched⟩, h.shown⟩, fun h => ⟨h.1.1, h.2, h.1.2⟩⟩

theorem Scanned.pathOf (h : Scanned d root place stem) (hd : d.IsTree) :
    pathOf place (stem ++ ".py") = dotted place stem := by
  refine pathOf_script fun name hname => hd.named _ (List.mem_append_left _ h.stored) name ?_
  rw [List.append_assoc]
  exact List.mem_append_right _ hname

private theorem mem_named (hd : d.IsTree) (hl : l.Arranges d) :
    path ∈ (l.walk root (d.dirs.length + 1) []).filterMap (named? k) ↔
      ∃ place, Scanned d root place k ∧ dotted place k = path := by
  rw [List.mem_filterMap]
  constructor
  · rintro ⟨⟨place, file⟩, hf, hn⟩
    obtain ⟨rfl, hshown, rfl⟩ := named?_eq_some.mp hn
    have hs : Scanned d root place k := (scanned_iff hd hl).mpr ⟨hf, hshown⟩
    exact ⟨place, hs, (hs.pathOf hd).symm⟩
  · rintro ⟨place, hs, rfl⟩
    exact ⟨(place, k ++ ".py"), ((scanned_iff hd hl).mp hs).1,
      named?_eq_some.mpr ⟨rfl, hs.shown, hs.pathOf hd⟩⟩

private theorem of_mem_begun (hd : d.IsTree) (hl : l.Arranges d)
    (h : path ∈ (l.walk root (d.dirs.length + 1) []).filterMap (begun? k)) :
    ∃ place stem, Scanned d root place stem ∧ startsWith stem (k ++ "_") = true ∧
      dotted place stem = path := by
  obtain ⟨⟨place, file⟩, hf, hb⟩ := List.mem_filterMap.mp h
  obtain ⟨stem, rfl, hshown, hstem, rfl⟩ := of_begun? hb
  have hs : Scanned d root place stem := (scanned_iff hd hl).mpr ⟨hf, hshown⟩
  exact ⟨place, stem, hs, hstem, (hs.pathOf hd).symm⟩

/-- What an index says of the scripts below a place: it is a map, every script is found under its
name, every name stands for a script that bears it or begins with it and an underscore, and the
scripts that bear a name come before those that it only begins. -/
structure Indexes (d : Disk) (root : List String) (index : ModuleIndex) : Prop where
  single : (index.map (·.1)).Nodup
  complete : ∀ place stem, Scanned d root place stem → ∃ path, index.lookup stem = some path
  sound : ∀ k path, index.lookup k = some path → ∃ place stem, Scanned d root place stem ∧
    dotted place stem = path ∧ (stem = k ∨ startsWith stem (k ++ "_") = true)
  preferred : ∀ k path, index.lookup k = some path → (∃ place, Scanned d root place k) →
    ∃ place, Scanned d root place k ∧ dotted place k = path

theorem indexes_scanBy (hd : d.IsTree) (hl : l.Arranges d) (root : List String) :
    Indexes d root (scanBy d l root) := by
  rw [scanBy_eq hd hl]
  generalize hw : l.walk root (d.dirs.length + 1) [] = files
  have hnamed (k path : String) : path ∈ files.filterMap (named? k) ↔
      ∃ place, Scanned d root place k ∧ dotted place k = path := hw ▸ mem_named hd hl
  -- A name that a script bears leads to the last such script.
  have hlast (k : String) (h : ∃ place, Scanned d root place k) :
      ∃ path ∈ files.filterMap (named? k), (ofFiles files).lookup k = some path := by
    obtain ⟨place, hs⟩ := h
    have hne : files.filterMap (named? k) ≠ [] :=
      List.ne_nil_of_mem ((hnamed k _).mpr ⟨place, hs, rfl⟩)
    refine ⟨_, List.getLast_mem hne, ?_⟩
    rw [lookup_ofFiles, List.getLast?_eq_some_getLast hne, Option.some_or]
  refine ⟨nodup_ofFiles files, ?_, ?_, ?_⟩
  · intro place stem hs
    obtain ⟨path, -, hpath⟩ := hlast stem ⟨place, hs⟩
    exact ⟨path, hpath⟩
  · intro k path hpath
    rw [lookup_ofFiles, Option.or_eq_some_iff] at hpath
    rcases hpath with hn | ⟨-, hb⟩
    · obtain ⟨place, hs, rfl⟩ := (hnamed k path).mp (List.mem_of_getLast? hn)
      exact ⟨place, k, hs, rfl, .inl rfl⟩
    · obtain ⟨place, stem, hs, hstem, rfl⟩ := of_mem_begun hd hl (hw ▸ List.mem_of_head? hb)
      exact ⟨place, stem, hs, rfl, .inr hstem⟩
  · intro k path hpath h
    obtain ⟨last, hmem, hlook⟩ := hlast k h
    obtain rfl : last = path := Option.some.inj (hlook.symm.trans hpath)
    exact (hnamed k last).mp hmem

end Scan

def placeOf? (d : Disk) : Option String → Option (List String)
  | none => some []
  | some path => d.locate? path

private theorem result_modules {w : World} {key : Option String} {root : List String}
    (hfresh : w.moduleCache.lookup key = none) (hroot : placeOf? w.disk key = some root) :
    (Run.modules key).result w = .ok (scanBy w.disk w.disk.listing root) := by
  have hg : (get : Run World).result w = .ok w := rfl
  unfold Run.modules
  rw [(Run.bind_ok hg).1]
  change Run.result _ w = _
  rw [hfresh]
  cases key with
  | none =>
    obtain rfl := Option.some.inj hroot
    rfl
  | some path =>
    have hscan : scan w.disk path = scanBy w.disk w.disk.listing root := by
      rw [scan, show w.disk.locate? path = some root from hroot]
      rfl
    rw [← hscan]
    rfl

/-- In whatever order a tree is listed, the index of a place in it covers the scripts below, and a
name that a script bears stands for such a script. The first question for a directory is answered
with the index that follows the listing by name. -/
theorem exact_name_wins_in_any_order {d : Disk} (hd : d.IsTree) :
    (∀ l : Listing, l.Arranges d → ∀ root, Indexes d root (scanBy d l root)) ∧
      ∀ (w : World) (key : Option String) (root : List String), w.disk = d →
        placeOf? d key = some root → w.moduleCache.lookup key = none →
          (Run.modules key).result w = .ok (scanBy d d.listing root) ∧
            Indexes d root (scanBy d d.listing root) := by
  refine ⟨fun l hl root => indexes_scanBy hd hl root, ?_⟩
  rintro w key root rfl hroot hfresh
  exact ⟨result_modules hfresh hroot, indexes_scanBy hd (Listing.arranges_listing w.disk) root⟩

/-- A project in which the first file that is met only begins with the name of the second. -/
def stepsDisk : Disk where
  files := [(["code", "step1_parsing.py"], ⟨"", true⟩), (["tools", "step1.py"], ⟨"", true⟩),
    (["venv", "step1.py"], ⟨"", true⟩), (["_setup.py"], ⟨"", true⟩)]
  dirs := [["code"], ["tools"], ["venv"]]

def stepsBackward : Listing where
  files p := (stepsDisk.fileNames p).reverse
  dirs p := (stepsDisk.dirNames p).reverse

private theorem scanned_step : Scanned stepsDisk [] ["tools"] "step1" := by
  refine ⟨by decide, by decide, ?_⟩
  intro dir hdir
  obtain rfl := List.mem_singleton.mp hdir
  decide

private theorem Scanned.place_step {place : List String} (h : Scanned stepsDisk [] place "step1") :
    place = ["tools"] := by
  have hends : ∀ p ∈ stepsDisk.files.map (·.1), p.getLast? = some "step1.py" →
      p = ["tools", "step1.py"] ∨ p = ["venv", "step1.py"] := forall_mem_of_all (by decide)
  have hplace {dir : String} (he : place ++ ["step1.py"] = [dir] ++ ["step1.py"]) : place = [dir] :=
    List.append_cancel_right he
  rcases hends _ h.stored List.getLast?_concat with he | he
  · exact hplace he
  · -- The other script of this name lies in a directory that is skipped.
    obtain rfl : place = ["venv"] := hplace he
    exact absurd (h.searched "venv" (by simp)) (by decide)

private theorem Indexes.lookup_step (h : Indexes stepsDisk [] index) :
    index.lookup "step1" = some "tools.step1" := by
  obtain ⟨path, hpath⟩ := h.complete _ _ scanned_step
  obtain ⟨place, hs, rfl⟩ := h.preferred _ _ hpath ⟨_, scanned_step⟩
  rw [hpath, hs.place_step]
  decide

/-- Met last or first, the script that bears the name is the one that the name stands for. -/
theorem step_found_in_both_orders : stepsDisk.IsTree ∧ stepsBackward.Arranges stepsDisk ∧
    (scanBy stepsDisk stepsBackward []).lookup "step1" = some "tools.step1" ∧
    (Run.modules none).result { disk := stepsDisk } = .ok (scanBy stepsDisk stepsDisk.listing []) ∧
    (scanBy stepsDisk stepsDisk.listing []).lookup "step1" = some "tools.step1" := by
  have hd : stepsDisk.IsTree := by decide
  have hback : stepsBackward.Arranges stepsDisk :=
    ⟨fun _ => List.reverse_perm _, fun _ => List.reverse_perm _⟩
  obtain ⟨hany, hfirst⟩ := exact_name_wins_in_any_order hd
  obtain ⟨hrun, hindex⟩ := hfirst { disk := stepsDisk } none [] rfl rfl rfl
  exact ⟨hd, hback, (hany stepsBackward hback []).lookup_step, hrun, hindex.lookup_step⟩

end ModuleIndex
end Mender
