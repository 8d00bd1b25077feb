import Mender.Proofs.Footprint
import Mender.Proofs.Layers

/-! Source files are never touched: where no place for the results is named, they stand beside the
source files and never over them, so that a run leaves every source file as it is. -/
namespace Mender
open Run

namespace Workflow
variable {d e : Disk}

namespace LayerFile

def way (f : LayerFile) : List String := if f.layer = "." then [f.name] else [f.layer, f.name]

theorem way_ne_nil (f : LayerFile) : f.way ≠ [] := by
  unfold way
  split <;> simp

/-- A file of one of the layers, under a proper name. -/
structure IsProper (f : LayerFile) : Prop where
  layer : f.layer = "." ∨ f.layer = Layers.dataDir ∨ f.layer = Layers.stepDir
  name : Disk.IsProper f.name

theorem IsProper.layer_proper {f : LayerFile} (h : f.IsProper) (hl : f.layer ≠ ".") :
    Disk.IsProper f.layer := by
  rcases h.layer with he | he | he
  · exact absurd he hl
  · rw [he]
    exact ⟨by decide, by decide, by decide, by decide⟩
  · rw [he]
    exact ⟨by decide, by decide, by decide, by decide⟩

theorem IsProper.base {f : LayerFile} (h : f.IsProper) (d : Disk) (dir : String) :
    d.base? (f.pathIn dir) = (d.base? dir).map (· ++ f.way) := by
  unfold pathIn way
  split
  · exact Disk.base_join_proper h.name
  · rename_i hl
    rw [Disk.base_join_proper h.name, Disk.base_join_proper (h.layer_proper hl)]
    cases d.base? dir <;> simp

theorem IsProper.way_plain {f : LayerFile} (h : f.IsProper) :
    ∀ name ∈ f.way.dropLast, Text.endsWith name "_fixed" = false := by
  unfold way
  split
  · simp
  · rename_i hl
    have hlayer : Text.endsWith f.layer "_fixed" = false := by
      rcases h.layer with he | he | he
      · exact absurd he hl
      · rw [he]
        decide
      · rw [he]
        decide
    simpa using hlayer

end LayerFile

section Layers
variable {ls : Layers} {project : String} {f : LayerFile}

theorem of_mem_layerFiles (h : ls.Arranged d project) (hf : f ∈ layerFiles ls) :
    (f.layer = "." ∨ f.layer = Layers.dataDir ∨ f.layer = Layers.stepDir) ∧
      ∃ dir, Layers.HasScript d dir f.name ∧ f.pathIn project = Path.join dir f.name := by
  rcases List.mem_append.mp hf with hf | hf
  · rcases List.mem_append.mp hf with hf | hf
    · obtain ⟨name, hn, rfl⟩ := List.mem_map.mp hf
      exact ⟨.inr (.inl rfl), _, (h.data_mem name).mp hn, rfl⟩
    · obtain ⟨name, hn, rfl⟩ := List.mem_map.mp hf
      exact ⟨.inr (.inr rfl), _, (h.step_mem name).mp hn, rfl⟩
  · obtain ⟨name, hn, rfl⟩ := List.mem_map.mp hf
    exact ⟨.inl rfl, _, ((h.entry_mem name).mp hn).1, rfl⟩

theorem proper_layerFiles (h : ls.Arranged d project) (hd : d.Named) :
    ∀ f ∈ layerFiles ls, f.IsProper := by
  intro f hf
  obtain ⟨hlayer, dir, hscript, -⟩ := of_mem_layerFiles h hf
  exact ⟨hlayer, hscript.proper hd⟩

end Layers

theorem proper_filesInLayers (hd : d.Named) {project : String} :
    ∀ f ∈ filesInLayers d project, f.IsProper := by
  unfold filesInLayers
  split
  · rename_i ls hfind
    exact proper_layerFiles (Layers.arranged_find hfind) hd
  · simp

/-- The files that a run on several files writes: a result for each source file, and the report. -/
def Batch.results (b : Batch) (d : Disk) (input : String) (output lang : Option String) :
    List String :=
  ((b.sources d input lang).map Path.baseName ++ b.report?.toList).map
    (Path.join (b.directory d input output lang))

theorem Batch.placed (b : Batch) {input : String} {output lang : Option String}
    {files : List String} (h : b.sources d input lang = files) :
    Placed (b.sources d input lang) (b.results d input output lang)
      (b.directory d input output lang) files := by
  intro path hp
  rw [← h] at hp
  exact ⟨hp, List.mem_map_of_mem (List.mem_append_left _ (List.mem_map_of_mem hp))⟩

def Batch.home (b : Batch) (d : Disk) (input : String) (lang : Option String) : String :=
  match b with
  | .counted _ => (countedFiles d input lang).2.1
  | _ => input

/-- The name of a directory of source files holds no wildcards. -/
def Batch.Plain (b : Batch) (d : Disk) (input : String) : Prop :=
  match b with
  | .counted _ => d.isFile input = true ∨ Glob.hasWildcard input = false
  | _ => Glob.hasWildcard input = false

section Beside
variable {b : Batch} {input source result : String} {lang : Option String} {c : FileContent}
  {p : List String}

theorem Batch.directory_none : b.directory d input none lang = b.home d input lang ++ "_fixed" := by
  cases b <;> rfl

theorem Batch.at_home (hb : b.Plain d input) (hd : d.Named) (ha : d.Apart)
    (hs : source ∈ b.sources d input lang) (hf : d.file? source = some c) :
    d.base? source = (d.base? (b.home d input lang)).map (· ++ [Path.baseName source]) ∧
      ∀ path ∈ b.sources d input lang, Disk.IsProper (Path.baseName path) := by
  have selected (l : Language) (hinput : Glob.hasWildcard input = false)
      (hs : source ∈ Glob.withSuffix d input l.profile.suffix) :
      d.base? source = (d.base? input).map (· ++ [Path.baseName source]) ∧
        ∀ path ∈ Glob.withSuffix d input l.profile.suffix,
          Disk.IsProper (Path.baseName path) := by
    refine ⟨?_, fun _ hp => (Glob.base_selected hd hinput hp).1⟩
    obtain ⟨-, q, hq, hat⟩ := Glob.base_selected hd hinput hs
    rw [hat, hq]
    rfl
  cases b with
  | separate deps =>
    rw [sources] at hs ⊢
    cases hl : languageOf d input lang with
    | none =>
      rw [hl] at hs
      cases hs
    | some l =>
      rw [hl] at hs
      exact selected l hb hs
  | project limit =>
    rw [sources] at hs ⊢
    cases hl : projectLanguage d input lang with
    | none =>
      rw [hl] at hs
      cases hs
    | some l =>
      rw [hl] at hs
      exact selected l hb hs
  | counted scope =>
    simp only [sources, home] at hs ⊢
    unfold countedFiles at hs ⊢
    by_cases hfile : d.isFile input = true
    · rw [if_pos hfile] at hs ⊢
      obtain rfl := List.mem_singleton.mp hs
      obtain ⟨hproper, hbase⟩ := ha.file_proper hf
      exact ⟨hbase, List.forall_mem_singleton.mpr hproper⟩
    · rw [if_neg hfile] at hs ⊢
      have hinput := hb.resolve_left hfile
      dsimp only at hs ⊢
      split at hs
      · exact selected _ hinput hs
      · exact selected .python hinput hs

theorem Batch.results_beside (hb : b.Plain d input) (hd : d.Named) (ha : d.Apart)
    (hs : source ∈ b.sources d input lang) (hr : result ∈ b.results d input none lang)
    (hf : d.file? source = some c) (hp : d.locate? source = some p) :
    e.locate? result ≠ some p := by
  obtain ⟨hbase, hproper⟩ := at_home hb hd ha hs hf
  rw [Disk.base_of_locate hp] at hbase
  rw [results, directory_none] at hr
  obtain ⟨name, hn, rfl⟩ := List.mem_map.mp hr
  have hname : Disk.IsProper name := by
    rcases List.mem_append.mp hn with hn | hn
    · obtain ⟨path, hp, rfl⟩ := List.mem_map.mp hn
      exact hproper path hp
    · obtain rfl : name = "fix_report.txt" := by
        cases b <;> simp_all [report?]
      exact ⟨by decide, by decide, by decide, by decide⟩
  intro hl
  have hat := Disk.base_of_locate hl
  rw [Disk.base_join_proper hname] at hat
  exact Disk.beside hbase.symm (by simp) (List.cons_ne_nil _ _) hat

theorem fixedName_beside (ha : d.Apart) (hf : d.file? source = some c)
    (hp : d.locate? source = some p) : e.locate? (fixedName source) ≠ some p := by
  intro hl
  have hat := Disk.base_of_locate hl
  obtain ⟨-, hbase⟩ := ha.file_proper hf
  rw [Disk.base_of_locate hp] at hbase
  obtain ⟨happend, hplain⟩ := Path.splitExtension_append source
  have hfixed : fixedName source = (Path.splitExtension source).1 ++ "_fixed" ++
      (Path.splitExtension source).2 := by
    simp only [fixedName]
  generalize (Path.splitExtension source).1 = stem at *
  generalize (Path.splitExtension source).2 = ext at *
  have hadd : '/' ∉ ("_fixed" ++ ext).toList := by
    rw [String.toList_append, List.mem_append, not_or]
    exact ⟨by decide, hplain⟩
  rw [← happend, Path.dirName_append hplain, Path.baseName_append hplain] at hbase
  rw [hfixed, String.append_assoc, Disk.base_eq, Path.dirName_append hadd,
    Path.baseName_append hadd, Option.bind_eq_some_iff] at hat
  obtain ⟨q, hq, rfl⟩ := Option.map_eq_some_iff.mp hbase.symm
  obtain ⟨q', hq', hwalk⟩ := hat
  obtain rfl := Disk.base_agree hq hq'
  rcases Disk.walk_one hwalk with ⟨-, he⟩ | ⟨-, hpre⟩ | ⟨he, -⟩
  · simp at he
  · have hlen := hpre.length_le
    rw [List.length_append, List.length_singleton] at hlen
    omega
  · have hname : Path.baseName stem ++ ext = Path.baseName stem ++ ("_fixed" ++ ext) := by
      simpa using he
    have hlen := congrArg (fun s : String => s.toList.length) hname
    simp only [String.toList_append, List.length_append] at hlen
    have hadded : "_fixed".toList.length = 6 := by decide
    omega

end Beside

namespace Task

def output : Task → Option String
  | .single _ output _ => output
  | .separate _ output _ _ => output
  | .project _ output _ _ => output
  | .counted _ output _ _ => output
  | .layered _ output _ => output

def sources (d : Disk) : Task → List String
  | .single input _ _ => [input]
  | .separate input _ lang deps => (Batch.separate deps).sources d input lang
  | .project input _ lang limit => (Batch.project limit).sources d input lang
  | .counted input _ lang scope => (Batch.counted scope).sources d input lang
  | .layered input _ _ => (filesInLayers d input).map (·.pathIn input)

def results (d : Disk) : Task → List String
  | .single input output _ => [(output.filter (· ≠ "")).getD (fixedName input)]
  | .separate input output lang deps => (Batch.separate deps).results d input output lang
  | .project input output lang limit => (Batch.project limit).results d input output lang
  | .counted input output lang scope => (Batch.counted scope).results d input output lang
  | .layered input output _ => (filesInLayers d input).map (·.pathIn (outputDir input output))

/-- The name of a directory of source files holds no wildcards. -/
def Plain (d : Disk) : Task → Prop
  | .separate input _ _ deps => (Batch.separate deps).Plain d input
  | .project input _ _ limit => (Batch.project limit).Plain d input
  | .counted input _ _ scope => (Batch.counted scope).Plain d input
  | _ => True

theorem confined_run (t : Task) {w : World} (ht : t.Plain w.disk) (hd : w.disk.Named) :
    World.Confined (t.sources w.disk) (t.results w.disk) w (t.run.after w) := by
  cases t with
  | single input output lang =>
    rw [run, after_discard]
    exact (confined_single (List.mem_singleton_self _) (List.mem_singleton_self _)).keeps w
  | separate input output lang deps =>
    rw [run, after_discard]
    refine confined_separate (fun l => (Glob.selected hd l ht).2) fun l hl => ?_
    refine Batch.placed (.separate deps) ?_
    rw [Batch.sources, hl]
    rfl
  | project input output lang limit =>
    rw [run, after_discard]
    refine confined_project (fun l => (Glob.selected hd l ht).2) fun l hl => ?_
    refine Batch.placed (.project limit) ?_
    rw [Batch.sources, hl]
    rfl
  | counted input output lang scope =>
    rw [run, after_discard]
    refine confined_counted ?_ (Batch.placed (.counted scope) rfl) ?_
    · rcases ht with hfile | hplain
      · simp [countedFiles, hfile]
      · exact (countedFiles_spec lang hd hplain).2
    · exact List.mem_map_of_mem (List.mem_append_right _ (by simp [Batch.report?]))
  | layered input output lang =>
    rw [run, after_discard]
    exact confined_layered (fun f hf => List.mem_map_of_mem hf) fun f hf => List.mem_map_of_mem hf

private theorem results_beside {t : Task} (hout : t.output = none) (ht : t.Plain d) (hd : d.Named)
    (ha : d.Apart) {source result : String} {c : FileContent} {p : List String}
    (hs : source ∈ t.sources d) (hr : result ∈ t.results d) (hf : d.file? source = some c)
    (hp : d.locate? source = some p) : e.locate? result ≠ some p := by
  cases t with
  | single input output lang =>
    obtain rfl := hout
    obtain rfl := List.mem_singleton.mp hs
    simp only [results, Option.filter_none, Option.getD_none, List.mem_singleton] at hr
    rw [hr]
    exact fixedName_beside ha hf hp
  | separate input output lang deps =>
    obtain rfl := hout
    exact Batch.results_beside (b := .separate deps) ht hd ha hs hr hf hp
  | project input output lang limit =>
    obtain rfl := hout
    exact Batch.results_beside (b := .project limit) ht hd ha hs hr hf hp
  | counted input output lang scope =>
    obtain rfl := hout
    exact Batch.results_beside (b := .counted scope) ht hd ha hs hr hf hp
  | layered input output lang =>
    obtain rfl := hout
    obtain ⟨f, hm, rfl⟩ := List.mem_map.mp hs
    obtain ⟨g, hg, rfl⟩ := List.mem_map.mp hr
    intro hl
    have hfrom := Disk.base_of_locate hp
    have hat := Disk.base_of_locate hl
    rw [(proper_filesInLayers hd f hm).base] at hfrom
    rw [(proper_filesInLayers hd g hg).base] at hat
    exact Disk.beside hfrom (proper_filesInLayers hd f hm).way_plain g.way_ne_nil hat

/-- Source files are never touched. However a run ends, it writes nothing but results: every other
file keeps its content, and no other file appears. It reads nothing but source files and results.
Where no place for the results is named, no source file stands at the place of a result, so that
every one of them keeps its content. -/
theorem sources_untouched (t : Task) (w : World) (ht : t.Plain w.disk) (hd : w.disk.Named)
    (ha : w.disk.Apart) :
    (∀ p, (∀ result ∈ t.results w.disk, (t.run.after w).disk.locate? result ≠ some p) →
      (t.run.after w).disk.fileAt? p = w.disk.fileAt? p) ∧
    (∃ opened, (t.run.after w).accesses = w.accesses ++ opened ∧
      ∀ a ∈ opened, a.Within (t.sources w.disk) (t.results w.disk)) ∧
    (t.output = none → ∀ source ∈ t.sources w.disk, ∀ c, w.disk.file? source = some c →
      (t.run.after w).disk.file? source = some c ∧
      ∀ result ∈ t.results w.disk, (t.run.after w).disk.locate? result ≠
        (t.run.after w).disk.locate? source) := by
  have hconfined := t.confined_run ht hd
  refine ⟨hconfined.files, hconfined.opened, fun hout source hs c hf => ?_⟩
  obtain ⟨hslash, p, hp, hc⟩ := Disk.file_eq_some hf
  have hplace : (t.run.after w).disk.locate? source = some p :=
    Disk.locate_mono hconfined.dirs hp
  have hbeside (result : String) (hr : result ∈ t.results w.disk) :
      (t.run.after w).disk.locate? result ≠ some p :=
    results_beside hout ht hd ha hs hr hf hp
  rw [hplace]
  refine ⟨?_, hbeside⟩
  rw [Disk.file?, if_neg (by simp [hslash]), hplace, Option.bind_some, hconfined.files p hbeside]
  exact hc

def repaired : World where
  disk := { files := [(["p", "a.py"], ⟨"x = 1\n", true⟩), (["p_fixed", "a.py"], ⟨"x = 0\n", true⟩)]
            dirs := [["p"], ["p_fixed"]] }

/-- A run with figures replaces an earlier result and keeps the script. -/
theorem script_kept_result_replaced :
    (counted "p/a.py" none (some "python") .whole).Plain repaired.disk ∧ repaired.disk.Named ∧
      repaired.disk.Apart ∧
      ((counted "p/a.py" none (some "python") .whole).run.after repaired).disk.file? "p/a.py" =
        some ⟨"x = 1\n", true⟩ ∧
      ((counted "p/a.py" none (some "python") .whole).run.after repaired).disk.file?
        "p_fixed/a.py" = some ⟨"x = 1\n", true⟩ := by
  have hplain : (counted "p/a.py" none (some "python") .whole).Plain repaired.disk :=
    .inl (by decide +kernel)
  have hnamed : repaired.disk.Named := by decide
  have hapart : repaired.disk.Apart := by decide
  obtain ⟨-, -, hkept⟩ := sources_untouched (counted "p/a.py" none (some "python") .whole) repaired
    hplain hnamed hapart
  refine ⟨hplain, hnamed, hapart, ?_, by decide +kernel⟩
  exact (hkept rfl "p/a.py" (by decide +kernel) _ (by decide +kernel)).1

end Task

end Workflow
end Mender
