import Mender.Proofs.Sources

/-! Repairing a project in layers handles every script of it once: the data structures come first,
then the steps in their order, then the files beside them. Each is read, repaired and written under
the same path below the directory for the results, and stays there as it was written. -/
namespace Mender
open Run World

def Layers.paths (ls : Layers) : List String :=
  ls.dataFiles.map (dataDir ++ "/" ++ ·) ++ ls.stepFiles.map (stepDir ++ "/" ++ ·) ++ ls.entryFiles

namespace Workflow

namespace LayerFile
variable {f g : LayerFile} {d : Disk} {dir : String}

def relative (f : LayerFile) : String := if f.layer = "." then f.name else f.layer ++ "/" ++ f.name

theorem way_injective (h : f.way = g.way) : f = g := by
  obtain ⟨layer, name⟩ := f
  obtain ⟨layer', name'⟩ := g
  unfold way at h
  split at h <;> split at h <;> simp_all

private theorem IsProper.locate (h : f.IsProper) (hdir : dir ≠ "") :
    d.locate? (f.pathIn dir) = (d.locate? dir).map (· ++ f.way) := by
  have hbase := h.base d dir
  have hne : f.pathIn dir ≠ "" := by
    intro he
    rw [he] at hbase
    obtain ⟨q, -, hq⟩ := Option.map_eq_some_iff.mp hbase.symm
    exact f.way_ne_nil (List.append_eq_nil_iff.mp hq).2
  rwa [Disk.base_of_ne hne, Disk.base_of_ne hdir] at hbase

theorem IsProper.locate_ne (hf : f.IsProper) (hg : g.IsProper) (hdir : dir ≠ "")
    {p : List String} (hp : d.locate? (f.pathIn dir) = some p) (hne : f ≠ g) :
    d.locate? (g.pathIn dir) ≠ d.locate? (f.pathIn dir) := by
  rw [hf.locate hdir] at hp
  obtain ⟨q, hq, -⟩ := Option.map_eq_some_iff.mp hp
  rw [hf.locate hdir, hg.locate hdir, hq]
  intro he
  exact hne (way_injective (List.append_cancel_left (Option.some.inj he)).symm)

theorem IsProper.pathIn_eq (h : f.IsProper) (dir : String) :
    f.pathIn dir = Path.join dir f.relative := by
  unfold pathIn relative
  split
  · rfl
  · rename_i hl
    obtain ⟨hne, -, -, hlayer⟩ := h.layer_proper hl
    exact Path.join_join hne hlayer h.name.unslashed

theorem IsProper.relative_injective (hf : f.IsProper) (hg : g.IsProper)
    (h : f.relative = g.relative) : f = g := by
  have hbase := hf.base {} ""
  rw [hf.pathIn_eq, h, ← hg.pathIn_eq, hg.base] at hbase
  exact way_injective (Option.some.inj hbase).symm

/-- In given surroundings, the repair of a source text of a file leads to a text. -/
def Mends (f : LayerFile) (source : String) (w : World) (code : String) : Prop :=
  ∃ m l fixes v, Ends (layerLoop m l f maxRounds source 0) w (code, fixes) v

def handling (project output : String) (f : LayerFile) : List Access :=
  [.read (f.pathIn project), .write (f.pathIn output)]

end LayerFile

def openings (project output path : String) : List Access :=
  [.read (Path.join project path), .write (Path.join output path)]

theorem flatMap_handling {project output : String} {files : List LayerFile}
    (h : ∀ f ∈ files, f.IsProper) : files.flatMap (·.handling project output) =
      (files.map LayerFile.relative).flatMap (openings project output) := by
  rw [List.flatMap_map]
  refine List.flatMap_congr fun f hf => ?_
  rw [LayerFile.handling, (h f hf).pathIn_eq, (h f hf).pathIn_eq]
  rfl

theorem map_relative_layerFiles (ls : Layers) :
    (layerFiles ls).map LayerFile.relative = ls.paths := by
  rw [layerFiles, List.map_append, List.map_append, List.map_map, List.map_map, List.map_map,
    Layers.paths]
  exact congrArg _ (List.map_id _)

theorem nodup_layerFiles {ls : Layers} {d : Disk} {project : String} (h : ls.Arranged d project) :
    (layerFiles ls).Nodup := by
  have named (layer : String) : Function.Injective (LayerFile.mk layer) :=
    fun _ _ he => (LayerFile.mk.inj he).2
  have hdata := Layers.nodup_of_ascending h.data_order
  rw [layerFiles, List.nodup_append, List.nodup_append]
  refine ⟨⟨hdata.map (named _), h.step_nodup.map (named _), ?_⟩, h.entry_nodup.map (named _), ?_⟩
  · intro f hf g hg he
    obtain ⟨a, -, rfl⟩ := List.mem_map.mp hf
    obtain ⟨b, -, rfl⟩ := List.mem_map.mp hg
    exact absurd (LayerFile.mk.inj he).1 (by decide)
  · intro f hf g hg he
    obtain ⟨b, -, rfl⟩ := List.mem_map.mp hg
    rcases List.mem_append.mp hf with hf | hf
    · obtain ⟨a, -, rfl⟩ := List.mem_map.mp hf
      exact absurd (LayerFile.mk.inj he).1 (by decide)
    · obtain ⟨a, -, rfl⟩ := List.mem_map.mp hf
      exact absurd (LayerFile.mk.inj he).1 (by decide)

theorem locate_source {ls : Layers} {d : Disk} {project : String} (h : ls.Arranged d project)
    (hd : d.Named) {f : LayerFile} (hf : f ∈ layerFiles ls) :
    ∃ p, d.locate? (f.pathIn project) = some p := by
  obtain ⟨-, dir, hscript, hpath⟩ := of_mem_layerFiles h hf
  rw [hpath]
  exact hscript.locate hd

section Turns
variable {m : Model} {l : Language} {project output : String} {f : LayerFile} {w v : World}
variable {rs : List FileResult} {count done : Nat}

theorem of_repairLayerFile {r : FileResult}
    (h : Ends (repairLayerFile m l project output f) w r v) : ∃ source code x,
      w.disk.read (f.pathIn project) false = .ok source ∧ x.disk = w.disk ∧
      x.accesses = w.accesses ++ [.read (f.pathIn project)] ∧ f.Mends source x code ∧
      w.disk.write (f.pathIn output) code = .ok v.disk ∧
      v.accesses = w.accesses ++ f.handling project output := by
  obtain ⟨source, _, hr, h⟩ := h.of_bind
  obtain ⟨hread, rfl⟩ := hr.of_readFile
  obtain ⟨_, x, ⟨cdisk, caccesses⟩, h⟩ := h.past untouched
  obtain ⟨⟨code, fixes⟩, y, hloop, h⟩ := h.of_bind
  obtain ⟨ldisk, laccesses⟩ := hloop.keeps untouched
  obtain ⟨_, _, hw, h⟩ := h.of_bind
  obtain ⟨d, hwrite, rfl⟩ := hw.of_writeFile
  obtain ⟨-, rfl⟩ := h.of_pure
  rw [ldisk, cdisk] at hwrite
  refine ⟨source, code, x, hread, cdisk, caccesses, ⟨m, l, fixes, y, hloop⟩, hwrite, ?_⟩
  simp [laccesses, caccesses, LayerFile.handling]

theorem handled_repairLayerFiles {files : List LayerFile}
    (h : Ends (repairLayerFiles m l project output count files done) w rs v) :
    v.accesses = w.accesses ++ files.flatMap (·.handling project output) ∧
      w.disk.Writes (files.map (·.pathIn output)) v.disk := by
  induction files generalizing done rs w with
  | nil =>
    obtain ⟨-, rfl⟩ := h.of_pure
    exact ⟨by simp, .nil _⟩
  | cons f files ih =>
    unfold repairLayerFiles at h
    obtain ⟨_, _, ⟨sdisk, saccesses⟩, h⟩ := h.past untouched
    obtain ⟨r, _, hr, h⟩ := h.of_bind
    obtain ⟨rs', _, hrs, h⟩ := h.of_bind
    obtain ⟨-, rfl⟩ := h.of_pure
    obtain ⟨source, code, x, -, -, -, -, hwrite, hopened⟩ := of_repairLayerFile hr
    obtain ⟨haccesses, hwrites⟩ := ih hrs
    refine ⟨?_, .cons (sdisk ▸ hwrite) hwrites⟩
    rw [haccesses, hopened, saccesses, List.flatMap_cons, List.append_assoc]

private theorem split_repairLayerFiles {before after : List LayerFile}

    (h : Ends (repairLayerFiles m l project output count (before ++ after) done) w rs v) :
    ∃ rs₁ rs₂ u, Ends (repairLayerFiles m l project output count before done) w rs₁ u ∧
      Ends (repairLayerFiles m l project output count after (done + before.length)) u rs₂ v := by
  induction before generalizing done rs w with
  | nil => exact ⟨[], rs, w, rfl, h⟩
  | cons f before ih =>
    rw [List.cons_append, repairLayerFiles] at h
    obtain ⟨_, _, hsay, h⟩ := h.of_bind
    obtain ⟨r, _, hr, h⟩ := h.of_bind
    obtain ⟨rs', _, hrs, h⟩ := h.of_bind
    obtain ⟨-, rfl⟩ := h.of_pure
    obtain ⟨rs₁, rs₂, u, hbefore, hafter⟩ := ih hrs
    rw [Nat.add_right_comm] at hafter
    refine ⟨r :: rs₁, rs₂, u, ?_, hafter⟩
    rw [repairLayerFiles]
    exact hsay.bind (hr.bind (hbefore.bind rfl))

/-- When the turn of a file comes, those before it have been handled. Its source is repaired, the
outcome is written, and those behind it are handled then. -/
theorem turn_repairLayerFiles {before after : List LayerFile}

    (h : Ends (repairLayerFiles m l project output count (before ++ f :: after) done) w rs v) :
    ∃ source code x d, w.disk.Writes (before.map (·.pathIn output)) x.disk ∧
      x.accesses = w.accesses ++ before.flatMap (·.handling project output) ++
        [.read (f.pathIn project)] ∧
      x.disk.read (f.pathIn project) false = .ok source ∧ f.Mends source x code ∧
      x.disk.write (f.pathIn output) code = .ok d ∧
      d.Writes (after.map (·.pathIn output)) v.disk := by
  obtain ⟨rs₁, rs₂, u, hbefore, h⟩ := split_repairLayerFiles h
  obtain ⟨hopened, hwrites⟩ := handled_repairLayerFiles hbefore
  unfold repairLayerFiles at h
  obtain ⟨_, _, ⟨sdisk, saccesses⟩, h⟩ := h.past untouched
  obtain ⟨r, t, hr, h⟩ := h.of_bind
  obtain ⟨rs', _, hrs, h⟩ := h.of_bind
  obtain ⟨-, rfl⟩ := h.of_pure
  obtain ⟨source, code, x, hread, xdisk, xaccesses, hmends, hwrite, -⟩ := of_repairLayerFile hr
  rw [← xdisk] at hread hwrite
  refine ⟨source, code, x, t.disk, ?_, ?_, hread, hmends, hwrite,
    (handled_repairLayerFiles hrs).2⟩
  · rwa [xdisk, sdisk]
  · rw [xaccesses, saccesses, hopened]

private theorem consulted_verifyEntries {entries : List String} {u : Unit}
    (h : Ends (verifyEntries output entries) w u v) : w.Consulted output entries v := by
  induction entries generalizing w with
  | nil =>
    obtain ⟨-, rfl⟩ := h.of_pure
    exact .of_untouched ⟨rfl, rfl⟩
  | cons entry entries ih =>
    obtain ⟨_, _, hf, h⟩ := Ends.of_bind h
    obtain ⟨text, _, hr, hf⟩ := Ends.of_bind hf
    obtain ⟨-, rfl⟩ := hr.of_readFile
    have first : w.Consulted output [entry]
        { w with accesses := w.accesses ++ [.read (Path.join output entry)] } := ⟨rfl, rfl⟩
    exact (first.trans (.of_untouched (hf.keeps untouched))).trans (ih h)

end Turns

theorem file_result {d e e' : Disk} {output code : String} {f : LayerFile} {files : List LayerFile}
    (hout : output ≠ "") (hproper : ∀ g ∈ f :: files, g.IsProper) (hnodup : (f :: files).Nodup)
    (hwrite : d.write (f.pathIn output) code = .ok e)
    (hrest : e.Writes (files.map (·.pathIn output)) e') :
    e'.file? (f.pathIn output) = some ⟨code, true⟩ := by
  obtain ⟨hf, hfiles⟩ := List.forall_mem_cons.mp hproper
  obtain ⟨p, hp, -, -⟩ := Disk.write_eq_ok hwrite
  rw [← Disk.locate_congr (Disk.write_dirs hwrite)] at hp
  rw [hrest.file_other, Disk.file_write hwrite]
  refine List.forall_mem_map.mpr fun g hg => hf.locate_ne (hfiles g hg) hout hp ?_
  rintro rfl
  exact (List.nodup_cons.mp hnodup).1 hg

section Layered
variable {project : String} {w v : World}

theorem of_repairLayers {ls : Layers} {output : String} {lang : Option String} {u : Unit}
    (h : Ends (repairLayers ls project output lang) w u v) : ∃ m l x y rs,
      output ≠ "" ∧ x.accesses = w.accesses ∧
      (∀ path p, w.disk.locate? path = some p → x.disk.file? path = w.disk.file? path) ∧
      Ends (repairLayerFiles m l project output (layerFiles ls).length (layerFiles ls) 0) x rs y ∧
      y.Consulted output ls.entryFiles v := by
  obtain ⟨_, _, ha, h⟩ := h.of_bind
  obtain ⟨d₁, h₁, rfl⟩ := ha.of_makeDirs
  obtain ⟨_, _, hb, h⟩ := h.of_bind
  obtain ⟨d₂, h₂, rfl⟩ := hb.of_makeDirs
  obtain ⟨_, _, hc, h⟩ := h.of_bind
  obtain ⟨d₃, h₃, rfl⟩ := hc.of_makeDirs
  obtain ⟨_, _, hready, h⟩ := h.past untouched
  obtain ⟨l, _, hready, h⟩ := h.pass hready
  obtain ⟨_, _, hready, h⟩ := h.pass hready
  obtain ⟨m, _, hready, h⟩ := h.pass hready
  obtain ⟨_, x, ⟨xdisk, xaccesses⟩, h⟩ := h.pass hready
  obtain ⟨rs, y, hrepaired, h⟩ := h.of_bind
  obtain ⟨_, _, hshown, h⟩ := h.past untouched
  obtain ⟨_, _, hshown, h⟩ := h.pass hshown
  obtain ⟨_, _, hverified, h⟩ := h.of_bind
  have hread := (Consulted.of_untouched hshown).trans (consulted_verifyEntries hverified)
  have hread := hread.trans (.of_untouched (h.keeps untouched))
  rw [List.nil_append, List.append_nil] at hread
  refine ⟨m, l, x, y, rs, Disk.makeDirs_path h₁, xaccesses, fun path p hp => ?_, hrepaired, hread⟩
  rw [xdisk]
  have hp₁ := Disk.locate_mono (Disk.makeDirs_dirs h₁) hp
  have hp₂ := Disk.locate_mono (Disk.makeDirs_dirs h₂) hp₁
  exact (Disk.file_makeDirs h₃ hp₂).trans ((Disk.file_makeDirs h₂ hp₁).trans
    (Disk.file_makeDirs h₁ hp))

theorem of_layered {output lang : Option String}
    (h : Ends (layered project output lang) w true v) : ∃ ls x u,
      Layers.find w.disk project = .ok (some ls) ∧ untouched.rel w x ∧
      Ends (repairLayers ls project (outputDir project output) lang) x u v := by
  obtain ⟨_, _, hs, h⟩ := h.past untouched
  obtain ⟨_, _, hs, h⟩ := h.pass hs
  obtain ⟨_, _, hs, h⟩ := h.pass hs
  obtain ⟨d, _, hd, h⟩ := h.of_bind
  obtain ⟨rfl, rfl⟩ := hd.of_disk
  obtain ⟨found, _, hf, h⟩ := h.of_bind
  obtain ⟨hfind, rfl⟩ := hf.of_ofExcept
  rw [hs.1] at hfind
  cases found with
  | none =>
    obtain ⟨_, _, -, h⟩ := h.of_bind
    obtain ⟨_, _, -, h⟩ := h.of_bind
    cases h.of_pure.1
  | some ls =>
    obtain ⟨_, _, hs, h⟩ := h.pass hs
    obtain ⟨_, _, hs, h⟩ := h.pass hs
    obtain ⟨_, _, hs, h⟩ := h.pass hs
    obtain ⟨_, x, hs, h⟩ := h.pass hs
    obtain ⟨u, _, hr, h⟩ := h.of_bind
    obtain ⟨-, rfl⟩ := h.of_pure
    exact ⟨ls, x, u, hfind, hs, hr⟩

/-- The turn of a file in a run from `w` to `v`, at `x`. Those of the paths `before` it have been
read and written and its source has been read. The text to which its repair leads is written under
the same path below the directory for the results and stands there in the end. Unless an earlier
result stands in its place, the source is read as it was at the start. -/
structure Turn (project output : String) (w v : World) (before : List String) (path : String)
    (f : LayerFile) (source code : String) (x : World) : Prop where
  file : f.relative = path
  opened : x.accesses = w.accesses ++ before.flatMap (openings project output) ++
    [.read (Path.join project path)]
  read : x.disk.read (Path.join project path) false = .ok source
  original : (∀ other ∈ before, x.disk.locate? (Path.join output other) ≠
      x.disk.locate? (Path.join project path)) →
    w.disk.read (Path.join project path) false = .ok source
  mended : f.Mends source x code
  stands : v.disk.file? (Path.join output path) = some ⟨code, true⟩

/-- The files of layers are handled once each, in their order. After all of them, only the results of
those beside the layers are read again. -/
structure HandledInOrder (ls : Layers) (project output : String) (w v : World) : Prop where
  found : Layers.find w.disk project = .ok (some ls)
  arranged : ls.Arranged w.disk project
  once : ls.paths.Nodup
  opened : v.accesses = w.accesses ++ ls.paths.flatMap (openings project output) ++
    ls.entryFiles.map (fun entry => .read (Path.join output entry))
  turn (before : List String) (path : String) (after : List String) :
    ls.paths = before ++ path :: after →
      ∃ f source code x, Turn project output w v before path f source code x

/-- Repairing a project in layers handles each of its scripts once. The data structures come first
in the order of their names, then the steps in the order of their numbers and, where these agree, as
they are listed, then the files beside the layers. -/
theorem layers_handled_in_order {output lang : Option String} (hd : w.disk.Named)
    (h : Ends (layered project output lang) w true v) :
    ∃ ls, HandledInOrder ls project (outputDir project output) w v := by
  obtain ⟨ls, x₀, u, hfind, ⟨x₀disk, x₀accesses⟩, h⟩ := of_layered h
  have harranged := Layers.arranged_find hfind
  have hproper := proper_layerFiles harranged hd
  have hnodup := nodup_layerFiles harranged
  obtain ⟨m, l, x, y, rs, hout, xaccesses, hsame, hrepaired, hread⟩ := of_repairLayers h
  generalize outputDir project output = out at *
  rw [x₀disk] at hsame
  rw [x₀accesses] at xaccesses
  refine ⟨ls, hfind, harranged, ?_, ?_, fun before path after hsplit => ?_⟩
  · rw [← map_relative_layerFiles]
    exact hnodup.map_on fun f hf g hg he => (hproper f hf).relative_injective (hproper g hg) he
  · rw [hread.opened, (handled_repairLayerFiles hrepaired).1, xaccesses, flatMap_handling hproper,
      map_relative_layerFiles]
  · rw [← map_relative_layerFiles, List.map_eq_append_iff] at hsplit
    obtain ⟨fs, gs, hfiles, rfl, hgs⟩ := hsplit
    obtain ⟨f, gs, rfl, rfl, rfl⟩ := List.map_eq_cons_iff.mp hgs
    rw [hfiles] at hproper hnodup
    have hbefore : ∀ g ∈ fs, g.IsProper := fun g hg => hproper g (List.mem_append_left _ hg)
    have hbehind : ∀ g ∈ f :: gs, g.IsProper := fun g hg => hproper g (List.mem_append_right _ hg)
    have hf := hbehind f List.mem_cons_self
    obtain ⟨p, hp⟩ := locate_source harranged hd (f := f) (by simp [hfiles])
    rw [hfiles] at hrepaired
    obtain ⟨source, code, z, d, hwrites, hopened, hsource, hmends, hwrite, hrest⟩ :=
      turn_repairLayerFiles hrepaired
    rw [flatMap_handling hbefore, xaccesses] at hopened
    rw [hf.pathIn_eq] at hopened
    refine ⟨f, source, code, z, rfl, hopened, ?_, fun hclear => ?_, hmends, ?_⟩
    · rwa [← hf.pathIn_eq]
    · rw [← hf.pathIn_eq] at hclear ⊢
      refine Disk.read_of_file_eq ?_ hsource
      rw [← hsame _ p hp]
      refine (hwrites.file_other (List.forall_mem_map.mpr fun g hg => ?_)).symm
      rw [← Disk.locate_congr hwrites.dirs, ← Disk.locate_congr hwrites.dirs,
        (hbefore g hg).pathIn_eq]
      exact hclear _ (List.mem_map_of_mem hg)
    · rw [← hf.pathIn_eq, hread.disk]
      exact file_result hout hbehind (List.nodup_append.mp hnodup).2.1 hwrite hrest

end Layered

def stepped : World where
  disk := { files := [(["p", "app.py"], ⟨"x = 1\n", true⟩),
              (["p", "code", "step10.py"], ⟨"y = 1\n", true⟩),
              (["p", "code", "step2.py"], ⟨"z = 1\n", true⟩),
              (["p", "data_structure", "app.py"], ⟨"t = 1\n", true⟩)]
            dirs := [["p"], ["p", "code"], ["p", "data_structure"]] }

private theorem stepped_scripts {dir : String} (q files dirs : List String)
    (hq : stepped.disk.locate? dir = some q) (hdir : stepped.disk.isDirAt q = true)
    (hfiles : stepped.disk.fileNames q = Text.sorted files)
    (hdirs : stepped.disk.dirNames q = Text.sorted dirs)
    (h : (files ++ dirs).Pairwise fun a b => a ≤ b ∧ a ≠ b) :
    Layers.scripts stepped.disk dir = .ok ((files ++ dirs).filter (Text.endsWith · ".py")) := by
  have hf := Text.sorted_eq_self (h.sublist (List.sublist_append_left ..))
  have hd := Text.sorted_eq_self (h.sublist (List.sublist_append_right ..))
  have hlist : stepped.disk.list dir = .ok (files ++ dirs) := by
    rw [Disk.list, hq]
    dsimp only
    rw [if_pos hdir, hfiles, hdirs, hf, hd, Text.sorted_eq_self h]
    rfl
  rw [Layers.scripts, hlist]
  rfl

private theorem stepped_layers : Layers.find stepped.disk "p" =
    .ok (some ⟨["app.py"], ["step2.py", "step10.py"], ["app.py"]⟩) := by
  have htop : Layers.scripts stepped.disk "p" = .ok ["app.py"] :=
    (stepped_scripts ["p"] ["app.py"] ["code", "data_structure"]
      (by decide +kernel) (by decide) rfl rfl (by decide)).trans (by decide)
  have hdata : Layers.scripts stepped.disk "p/data_structure" = .ok ["app.py"] :=
    (stepped_scripts ["p", "data_structure"] ["app.py"] []
      (by decide +kernel) (by decide) rfl rfl (by decide)).trans (by decide)
  have hcode : Layers.scripts stepped.disk "p/code" = .ok ["step10.py", "step2.py"] :=
    (stepped_scripts ["p", "code"] ["step10.py", "step2.py"] []
      (by decide +kernel) (by decide) rfl rfl (by decide)).trans (by decide)
  have hsteps : Layers.steps stepped.disk "p/code" = .ok ["step2.py", "step10.py"] := by
    have hsorted : [((10 : Int), "step10.py"), (2, "step2.py")].mergeSort
        (fun a b => decide (a.1 ≤ b.1)) = [(2, "step2.py"), (10, "step10.py")] := by
      simp [List.mergeSort, List.MergeSort.Internal.splitInTwo]
    refine bind_eq_ok.mpr ⟨_, hcode, bind_eq_ok.mpr ⟨[(10, "step10.py"), (2, "step2.py")], ?_, ?_⟩⟩
    · decide +kernel
    · rw [hsorted]
      rfl
  have hdataDir : Path.join "p" Layers.dataDir = "p/data_structure" := by decide
  have hstepDir : Path.join "p" Layers.stepDir = "p/code" := by decide
  refine bind_eq_ok.mpr ⟨_, htop, ?_⟩
  rw [hdataDir, hstepDir, if_pos (by decide +kernel), if_pos (by decide +kernel)]
  refine bind_eq_ok.mpr ⟨_, congrArg (Except.map Text.sorted) hdata, ?_⟩
  dsimp only
  rw [if_pos (by decide +kernel)]
  exact bind_eq_ok.mpr ⟨_, hsteps, by decide +kernel⟩

private theorem stepped_ends :
    ∃ v, Ends (layered "p" none (some "python")) stepped true v := by
  have said (line : String) (w : World) : (say line).result w = .ok ⟨⟩ := rfl
  have looked (w : World) : Run.disk.result w = .ok w.disk := rfl
  have same (line : String) (w : World) : ((say line).after w).disk = w.disk := rfl
  have found (w : World) : (Run.ofExcept (Layers.find stepped.disk "p")).result w =
          .ok (some ⟨["app.py"], ["step2.py", "step10.py"], ["app.py"]⟩) ∧
        (Run.ofExcept (Layers.find stepped.disk "p")).after w = w := by
    rw [stepped_layers]
    exact ⟨rfl, rfl⟩
  refine ⟨_, ends_of_result ?_⟩
  rw [layered, (bind_ok (said _ _)).1, (bind_ok (said _ _)).1, (bind_ok (said _ _)).1,
    (bind_ok (looked _)).1, same, same, same, (bind_ok (found _).1).1, (found _).2]
  decide +kernel

/-- A second step is repaired before a tenth one, though its name comes after it; scripts of the
same name in two layers are repaired each in its own. -/
theorem second_step_before_tenth : stepped.disk.Named ∧ ∃ v,
    Ends (layered "p" none (some "python")) stepped true v ∧
    v.accesses =
      [.read "p/data_structure/app.py", .write "p_fixed/data_structure/app.py",
        .read "p/code/step2.py", .write "p_fixed/code/step2.py",
        .read "p/code/step10.py", .write "p_fixed/code/step10.py",
        .read "p/app.py", .write "p_fixed/app.py", .read "p_fixed/app.py"] := by
  have hnamed : stepped.disk.Named := by decide
  obtain ⟨v, hends⟩ := stepped_ends
  refine ⟨hnamed, v, hends, ?_⟩
  obtain ⟨ls, hls⟩ := layers_handled_in_order hnamed hends
  obtain rfl := Option.some.inj (Except.ok.inj (stepped_layers.symm.trans hls.found))
  rw [hls.opened]
  decide +kernel

end Workflow
end Mender
