import Mender.Proofs.Location
import Mender.Proofs.Mirror.Batch
import Mender.Proofs.Protection

/-! What a run touches. However it ends, a run opens nothing but its source files and its results,
and writes nothing but results. -/
namespace Mender
open Run

/-- Files that a run may open: sources are read, results are read and written. -/
def Access.Within (sources results : List String) : Access → Prop
  | .read path => path ∈ sources ∨ path ∈ results
  | .write path => path ∈ results

namespace World
variable {sources results : List String}

/-- Between two surroundings nothing but results was written, and nothing but sources and results
was opened. -/
structure Confined (sources results : List String) (w v : World) : Prop where
  dirs : w.disk.dirs ⊆ v.disk.dirs
  files : ∀ p, (∀ path ∈ results, v.disk.locate? path ≠ some p) →
    v.disk.fileAt? p = w.disk.fileAt? p
  opened : ∃ as, v.accesses = w.accesses ++ as ∧ ∀ a ∈ as, a.Within sources results

private theorem Confined.trans {u v w : World} (h : Confined sources results u v)
    (k : Confined sources results v w) : Confined sources results u w where
  dirs := List.Subset.trans h.dirs k.dirs
  files p hp := by
    rw [k.files p hp]
    refine h.files p fun path hm hl => ?_
    exact hp path hm (Disk.locate_mono k.dirs hl)
  opened := by
    obtain ⟨as, ha, hin⟩ := h.opened
    obtain ⟨bs, hb, kin⟩ := k.opened
    refine ⟨as ++ bs, by rw [hb, ha, List.append_assoc], fun a hm => ?_⟩
    rcases List.mem_append.mp hm with hm | hm
    · exact hin a hm
    · exact kin a hm

theorem Confined.of_untouched {w v : World} (h : untouched.rel w v) :
    Confined sources results w v where
  dirs := by rw [h.1]; exact List.Subset.refl _
  files _ _ := by rw [h.1]
  opened := ⟨[], by rw [h.2, List.append_nil], by simp⟩

/-- Nothing but results was written, and nothing but sources and results was opened. -/
def confined (sources results : List String) : Frame where
  rel := Confined sources results
  trans := Confined.trans
  quiet h := .of_untouched ⟨h.disk, h.accesses⟩

instance : (confined sources results).Issues := ⟨fun _ _ => .of_untouched ⟨rfl, rfl⟩⟩

instance : (confined sources results).Asks := ⟨fun _ _ _ _ _ => .of_untouched ⟨rfl, rfl⟩⟩

end World

namespace Run
open World
variable {α β : Type} {F : Frame} {sources results : List String} {path text : String}

theorem rel_bind {x : Run α} {f : α → Run β} {w : World} (hx : F.rel w (x.after w))
    (k : ∀ a v, Ends x w a v → F.rel v ((f a).after v)) : F.rel w ((x >>= f).after w) := by
  cases hr : x.result w with
  | error e =>
    rw [(bind_error hr).2]
    exact hx
  | ok a =>
    rw [(bind_ok hr).2]
    exact F.trans hx (k a _ (ends_of_result hr))

theorem keeps_forM_of {xs : List α} {f : α → Run PUnit} (h : ∀ a ∈ xs, Keeps F (f a)) :
    Keeps F (xs.forM f) := by
  induction xs with
  | nil => exact keeps_pure _
  | cons a xs ih =>
    obtain ⟨ha, hxs⟩ := List.forall_mem_cons.mp h
    exact keeps_bind (k := fun _ => ih hxs)

theorem keeps_foldlM_of {xs : List α} {f : β → α → Run β} (h : ∀ a ∈ xs, ∀ b, Keeps F (f b a))
    (b : β) : Keeps F (xs.foldlM f b) := by
  induction xs generalizing b with
  | nil => exact keeps_pure _
  | cons a xs ih =>
    obtain ⟨ha, hxs⟩ := List.forall_mem_cons.mp h
    rw [List.foldlM_cons]
    exact keeps_bind (h := ha b) (k := fun b => ih hxs b)

theorem confined_readFile {strict : Bool} (h : path ∈ sources ∨ path ∈ results) :
    Keeps (confined sources results) (readFile path strict) := by
  have opened : Keeps (confined sources results) (recordAccess (.read path)) := by
    refine ⟨fun w => ⟨List.Subset.refl _, fun _ _ => rfl, [.read path], rfl, ?_⟩⟩
    exact List.forall_mem_singleton.mpr h
  unfold readFile
  infer_instance

theorem confined_writeFile (h : path ∈ results) :
    Keeps (confined sources results) (writeFile path text) := by
  refine ⟨fun w => ?_⟩
  rw [after_writeFile]
  cases hw : w.disk.write path text with
  | error e => exact (confined sources results).quiet (.refl w)
  | ok d =>
    obtain ⟨p, hp, -, rfl⟩ := Disk.write_eq_ok hw
    dsimp only
    refine ⟨List.Subset.refl _, fun q hq => ?_, [.write path], rfl, ?_⟩
    · have hne : q ≠ p := by
        rintro rfl
        apply hq path h
        rw [← hp]
        apply Disk.locate_congr
        rfl
      exact (Disk.lookup_putFile ..).trans (if_neg hne)
    · exact List.forall_mem_singleton.mpr h

instance confined_makeDirs : Keeps (confined sources results) (makeDirs path) := by
  refine ⟨fun w => ?_⟩
  have hd : disk.result w = .ok w.disk := rfl
  unfold makeDirs
  rw [(bind_ok hd).2]
  change Confined sources results w ((ofExcept (w.disk.makeDirs path) >>= _).after w)
  cases hm : w.disk.makeDirs path with
  | error e => exact (confined sources results).quiet (.refl w)
  | ok d =>
    refine ⟨Disk.makeDirs_dirs hm, fun p _ => ?_, [], (List.append_nil _).symm, by simp⟩
    change d.fileAt? p = w.disk.fileAt? p
    rw [Disk.fileAt?, Disk.makeDirs_files hm, Disk.fileAt?]

end Run

namespace Workflow
open World
variable {sources results files : List String} {m : Model} {l : Language} {w : World}
  {input output path : String} {out lang : Option String}

private theorem confined_repairFile (hs : path ∈ sources)
    (hr : Path.join output (Path.baseName path) ∈ results) :
    Keeps (confined sources results) (repairFile m l output path) := by
  have read : Keeps (confined sources results) (readFile path false) := confined_readFile (.inl hs)
  have saved (code : String) :
      Keeps (confined sources results) (writeFile (Path.join output (Path.baseName path)) code) :=
    confined_writeFile hr
  unfold repairFile
  infer_instance

def Placed (sources results : List String) (output : String) (files : List String) : Prop :=
  ∀ path ∈ files, path ∈ sources ∧ Path.join output (Path.baseName path) ∈ results

private theorem confined_repairFiles {count done : Nat} (h : Placed sources results output files) :
    Keeps (confined sources results) (repairFiles m l output count files done) := by
  induction files generalizing done with
  | nil => exact keeps_pure _
  | cons path files ih =>
    obtain ⟨⟨hs, hr⟩, hrest⟩ := List.forall_mem_cons.mp h
    have first : Keeps (confined sources results) (repairFile m l output path) :=
      confined_repairFile hs hr
    have rest (done : Nat) :
        Keeps (confined sources results) (repairFiles m l output count files done) := ih hrest
    unfold repairFiles
    infer_instance

private theorem confined_recheck {names : List String}
    (h : ∀ name ∈ names, Path.join output name ∈ results) :
    Keeps (confined sources results) (recheck l output names) := by
  refine keeps_forM_of fun name hn => ?_
  have read : Keeps (confined sources results) (readFile (Path.join output name) true) :=
    confined_readFile (.inr (h name hn))
  infer_instance

private theorem confined_repairInOrder {deps : Bool} {g : Graph}
    (h : Placed sources results output files)
    (hg : ∀ name ∈ g.files, Path.join output name ∈ results) :
    Keeps (confined sources results) (repairInOrder l output deps files g) := by
  have repaired (m : Model) : Keeps (confined sources results)
      (repairFiles m l output files.length files 0) := confined_repairFiles h
  have checked (changed : List String) : Keeps (confined sources results)
      (recheck l output (toRecheck g changed)) :=
    confined_recheck fun name hn => hg name (mem_toRecheck hn)
  unfold repairInOrder
  refine keeps_say_bind _ _ (h := keeps_bind (k := fun _ => ?_))
  refine keeps_bind (k := fun m => keeps_bind (k := fun done => ?_))
  infer_instance

private theorem confined_repairDirectory {deps : Bool} (hnodup : (files.map Path.baseName).Nodup)
    (h : Placed sources results (outputDir input out) files) :
    Keeps (confined sources results) (repairDirectory l input out deps files) := by
  refine keeps_bind (k := fun _ => ?_)
  iterate 4 refine keeps_say_bind _ _ (h := ?_)
  cases deps with
  | false =>
    refine ⟨fun w => rel_bind (Keeps.keeps w) fun found v hfound => ?_⟩
    obtain ⟨rfl, rfl⟩ := hfound.of_pure
    exact (confined_repairInOrder h (by simp [Graph.files])).keeps w
  | true =>
    refine ⟨fun w => rel_bind (Keeps.keeps w) fun found v hfound => ?_⟩
    obtain ⟨paths, g⟩ := found
    obtain ⟨hgraph, rfl, -⟩ := of_arrange hfound
    obtain ⟨hnames, -⟩ := Dependency.graph_files hnodup hgraph
    have hplaced : Placed sources results (outputDir input out) (pathsOf files g.order) := by
      intro path hp
      obtain ⟨name, -, hf⟩ := List.mem_filterMap.mp hp
      exact h path (List.mem_reverse.mp (List.mem_of_find?_eq_some hf))
    refine (confined_repairInOrder hplaced fun name hn => ?_).keeps v
    rw [hnames] at hn
    obtain ⟨path, hp, rfl⟩ := List.mem_map.mp hn
    exact (h path hp).2

theorem confined_separate {deps : Bool} (hnodup : ∀ l : Language,
      ((Glob.withSuffix w.disk input l.profile.suffix).map Path.baseName).Nodup)
    (h : ∀ l, languageOf w.disk input lang = some l → Placed sources results (outputDir input out)
      (Glob.withSuffix w.disk input l.profile.suffix)) :
    Confined sources results w ((separate input out lang deps).after w) := by
  refine rel_bind (F := confined sources results) (Keeps.keeps w) fun d v hd => ?_
  obtain ⟨rfl, rfl⟩ := hd.of_disk
  unfold languageOf at h
  split
  · exact Keeps.keeps w
  · rename_i name hname
    rw [hname] at h
    split
    · exact Keeps.keeps w
    · rename_i l hl
      have repaired : Keeps (confined sources results) (repairDirectory l input out deps _) :=
        confined_repairDirectory (hnodup l) (h l hl)
      dsimp only
      exact Keeps.keeps w

private theorem confined_loadFiles (h : ∀ path ∈ files, path ∈ sources) :
    Keeps (confined sources results) (loadFiles files) := by
  refine keeps_foldlM_of (fun path hp ts => ?_) []
  have read : Keeps (confined sources results) (readFile path false) :=
    confined_readFile (.inl (h path hp))
  infer_instance

theorem confined_saveFiles {ts : Texts} (h : Placed sources results output files)
    (hnames : ts.map Prod.fst = files.map Path.baseName) :
    Keeps (confined sources results) (saveFiles output ts) := by
  refine keeps_forM_of fun t ht => confined_writeFile ?_
  have hn := List.mem_map_of_mem (f := Prod.fst) ht
  rw [hnames] at hn
  obtain ⟨path, hp, he⟩ := List.mem_map.mp hn
  exact he ▸ (h path hp).2

private theorem confined_repairProject {limit : Option Int}
    (hnodup : (files.map Path.baseName).Nodup)
    (h : Placed sources results (outputDir input out) files) :
    Keeps (confined sources results) (repairProject l input out limit files) := by
  have loaded : Keeps (confined sources results) (loadFiles files) :=
    confined_loadFiles fun path hp => (h path hp).1
  refine keeps_bind (k := fun _ => keeps_bind (k := fun main => ?_))
  iterate 6 refine keeps_say_bind _ _ (h := ?_)
  refine keeps_bind (k := fun _ => keeps_bind (k := fun m => ?_))
  refine ⟨fun w => rel_bind (loaded.keeps w) fun ts v hload => ?_⟩
  cases limit with
  | none => exact Keeps.keeps v
  | some limit =>
    refine rel_bind (Keeps.keeps v) fun p u hloop => ?_
    have hloaded : Loaded (files.map Path.baseName) w u p.texts :=
      loaded_projectLoop (loaded_loadFiles hnodup hload) hloop
    have saved := confined_saveFiles h hloaded.names
    dsimp only
    exact Keeps.keeps u

theorem confined_project {limit : Option Int} (hnodup : ∀ l : Language,
      ((Glob.withSuffix w.disk input l.profile.suffix).map Path.baseName).Nodup)
    (h : ∀ l, projectLanguage w.disk input lang = some l →
      Placed sources results (outputDir input out)
        (Glob.withSuffix w.disk input l.profile.suffix)) :
    Confined sources results w ((project input out lang limit).after w) := by
  refine rel_bind (F := confined sources results) (Keeps.keeps w) fun d v hd => ?_
  obtain ⟨rfl, rfl⟩ := hd.of_disk
  unfold projectLanguage at h
  dsimp only
  split
  · exact Keeps.keeps w
  · rename_i l hl
    have repaired : Keeps (confined sources results) (repairProject l input out limit _) :=
      confined_repairProject (hnodup l) (h l hl)
    exact Keeps.keeps w

private theorem confined_countedPhases {scope : Scope} (hnodup : (files.map Path.baseName).Nodup)
    (h : Placed sources results output files) :
    Keeps (confined sources results) (countedPhases l scope input output files) := by
  have read (path : String) (hp : path ∈ files) :
      Keeps (confined sources results) (readFile path false) :=
    confined_readFile (.inl (h path hp).1)
  have checked : Keeps (confined sources results) (initialErrors l files) := by
    refine keeps_foldlM_of (fun path hp errors => ?_) []
    have := read path hp
    infer_instance
  have texts : Keeps (confined sources results) (readTexts files) := by
    refine keeps_foldlM_of (fun path hp ts => ?_) []
    have := read path hp
    infer_instance
  refine keeps_say_bind _ _ (h := keeps_bind (k := fun initial => ?_))
  iterate 2 refine keeps_say_bind _ _ (h := ?_)
  refine keeps_bind (k := fun m => ⟨fun w => rel_bind (texts.keeps w) fun ts v hread => ?_⟩)
  refine rel_bind (Keeps.keeps v) fun c u hloop => ?_
  have saved := confined_saveFiles h
    ((names_countedLoop hloop).trans (names_readTexts hnodup hread))
  exact Keeps.keeps u

private theorem confined_publish {s : Statistics} (h : path ∈ results) :
    Keeps (confined sources results) (s.publish (some path)) := by
  refine keeps_say_bind _ _ (h := ?_)
  split
  · exact keeps_pure _
  · rename_i p hp
    obtain rfl := Option.some.inj (Option.filter_eq_some_iff.mp hp).1
    have saved : Keeps (confined sources results) (writeFile path s.report) :=
      confined_writeFile h
    infer_instance

theorem confined_counted {scope : Scope}
    (hnodup : ((countedFiles w.disk input lang).1.map Path.baseName).Nodup)
    (h : Placed sources results (outputDir (countedFiles w.disk input lang).2.1 out)
      (countedFiles w.disk input lang).1)
    (hreport : Path.join (outputDir (countedFiles w.disk input lang).2.1 out) "fix_report.txt" ∈
      results) :
    Confined sources results w ((counted input out lang scope).after w) := by
  refine rel_bind (F := confined sources results) (Keeps.keeps w) fun d v hd => ?_
  obtain ⟨rfl, rfl⟩ := hd.of_disk
  generalize countedFiles w.disk input lang = found at *
  obtain ⟨files, dir, lang⟩ := found
  have phases (l : Language) :
      Keeps (confined sources results) (countedPhases l scope dir (outputDir dir out) files) :=
    confined_countedPhases hnodup h
  have published (s : Statistics) : Keeps (confined sources results) (s.publish (some _)) :=
    confined_publish hreport
  suffices kept : Keeps (confined sources results) _ from kept.keeps w
  refine keeps_ite (k := ?_)
  refine keeps_bind (k := fun _ => keeps_say_bind _ _ (h := ?_))
  cases lang with
  | none => exact keeps_throw _
  | some lang =>
    iterate 4 refine keeps_say_bind _ _ (h := ?_)
    infer_instance

def filesInLayers (d : Disk) (project : String) : List LayerFile :=
  match Layers.find d project with
  | .ok (some ls) => layerFiles ls
  | _ => []

private theorem confined_repairLayers {ls : Layers}
    (hs : ∀ f ∈ layerFiles ls, f.pathIn input ∈ sources)
    (hr : ∀ f ∈ layerFiles ls, f.pathIn output ∈ results) :
    Keeps (confined sources results) (repairLayers ls input output lang) := by
  have one (m : Model) (l : Language) (f : LayerFile) (hf : f ∈ layerFiles ls) :
      Keeps (confined sources results) (repairLayerFile m l input output f) := by
    have read : Keeps (confined sources results) (readFile (f.pathIn input) false) :=
      confined_readFile (.inl (hs f hf))
    have saved (code : String) :
        Keeps (confined sources results) (writeFile (f.pathIn output) code) :=
      confined_writeFile (hr f hf)
    unfold repairLayerFile
    infer_instance
  have all (m : Model) (l : Language) (count : Nat) (files : List LayerFile) (done : Nat)
      (h : files ⊆ layerFiles ls) :
      Keeps (confined sources results) (repairLayerFiles m l input output count files done) := by
    induction files generalizing done with
    | nil => exact keeps_pure _
    | cons f files ih =>
      obtain ⟨hf, hrest⟩ := List.cons_subset.mp h
      have first := one m l f hf
      have rest (done : Nat) := ih done hrest
      unfold repairLayerFiles
      infer_instance
  have repaired (m : Model) (l : Language) :=
    all m l (layerFiles ls).length (layerFiles ls) 0 (List.Subset.refl _)
  have verified : Keeps (confined sources results) (verifyEntries output ls.entryFiles) := by
    refine keeps_forM_of fun entry he => ?_
    have hf : (⟨".", entry⟩ : LayerFile) ∈ layerFiles ls :=
      List.mem_append_right _ (List.mem_map_of_mem he)
    have read : Keeps (confined sources results) (readFile (Path.join output entry) true) :=
      confined_readFile (.inr (hr _ hf))
    infer_instance
  unfold repairLayers
  iterate 4 refine keeps_bind (k := fun _ => ?_)
  refine keeps_bind (k := fun l => keeps_bind (k := fun _ => ?_))
  refine keeps_bind (k := fun m => keeps_bind (k := fun _ => ?_))
  infer_instance

theorem confined_layered (hs : ∀ f ∈ filesInLayers w.disk input, f.pathIn input ∈ sources)
    (hr : ∀ f ∈ filesInLayers w.disk input, f.pathIn (outputDir input out) ∈ results) :
    Confined sources results w ((layered input out lang).after w) := by
  have said (line : String) {v : World} (hv : v.disk = w.disk) {α : Type} {f : PUnit → Run α}
      (k : ∀ u : World, u.disk = w.disk → Confined sources results u ((f ⟨⟩).after u)) :
      Confined sources results v ((say line >>= f).after v) := by
    refine rel_bind (F := confined sources results) (Keeps.keeps v) fun _ u hu => k u ?_
    exact (hu.keeps untouched).1.trans hv
  refine said _ rfl fun w₁ h₁ => said _ h₁ fun w₂ h₂ => said _ h₂ fun w₃ h₃ => ?_
  refine rel_bind (F := confined sources results) (Keeps.keeps w₃) fun d v hd => ?_
  obtain ⟨rfl, rfl⟩ := hd.of_disk
  refine rel_bind (F := confined sources results) (Keeps.keeps w₃) fun found v hfound => ?_
  obtain ⟨hfind, rfl⟩ := hfound.of_ofExcept
  cases found with
  | none => exact Keeps.keeps w₃
  | some ls =>
    rw [h₃] at hfind
    rw [filesInLayers, hfind] at hs hr
    have repaired : Keeps (confined sources results)
        (repairLayers ls input (outputDir input out) lang) :=
      confined_repairLayers hs hr
    exact Keeps.keeps w₃

theorem confined_single (hs : input ∈ sources)
    (hr : (out.filter (· ≠ "")).getD (fixedName input) ∈ results) :
    Keeps (confined sources results) (single input out lang) := by
  have program (l : Language) : Keeps (confined sources results)
      (repairProgram l input ((out.filter (· ≠ "")).getD (fixedName input))) := by
    have read : Keeps (confined sources results) (readFile input true) :=
      confined_readFile (.inl hs)
    have saved (code : String) : Keeps (confined sources results) (writeFile _ code) :=
      confined_writeFile hr
    unfold repairProgram
    iterate 3 refine keeps_say_bind _ _ (h := ?_)
    refine keeps_bind (k := fun code => keeps_bind (k := fun _ => ?_))
    refine keeps_bind (k := fun m => keeps_bind (k := fun checked => ?_))
    infer_instance
  unfold single
  dsimp only
  split <;> infer_instance

end Workflow

end Mender
