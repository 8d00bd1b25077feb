import Mender.Proofs.Revision
import Mender.Proofs.Selection

/-! Repairing the files of a directory one by one handles every source file once, dependencies
first: it is read, repaired and written under its own name, and nothing else is written. -/
namespace Mender
open Run

namespace World
variable {files : List String} {u v w : World}

def handling (output path : String) : List Access :=
  [.read path, .write (Path.join output (Path.baseName path))]

/-- Files are read and written anew into a directory, one after the other. -/
structure Handled (output : String) (files : List String) (w v : World) : Prop where
  opened : v.accesses = w.accesses ++ files.flatMap (handling output)
  written : w.disk.Writes ((files.map Path.baseName).map (Path.join output)) v.disk

theorem Handled.cons {output path : String}
    (h : u.Handled output [path] v) (k : v.Handled output files w) :
    u.Handled output (path :: files) w := by
  refine ⟨?_, ?_⟩
  · rw [k.opened, h.opened]
    simp
  · obtain ⟨text, first⟩ := Disk.Writes.of_singleton h.written
    exact .cons first k.written

theorem Handled.of_untouched {output : String}
    (h : untouched.rel u v) (k : v.Handled output files w) : u.Handled output files w :=
  ⟨h.2 ▸ k.opened, h.1 ▸ k.written⟩

theorem Handled.results {output : String} (hout : output ≠ "")
    (hproper : ∀ path ∈ files, Disk.IsProper (Path.baseName path)) (hne : files ≠ [])
    (h : w.Handled output files v) :
    ∃ q, w.disk.locate? output = some q ∧ w.disk.isDirAt q = true ∧
      (∀ path ∈ files, ∃ text, v.disk.fileAt? (q ++ [Path.baseName path]) = some ⟨text, true⟩) ∧
      ∀ p, (∀ path ∈ files, p ≠ q ++ [Path.baseName path]) →
        v.disk.fileAt? p = w.disk.fileAt? p := by
  have hnames := List.forall_mem_map.mpr hproper
  obtain ⟨q, hq, hdir⟩ := h.written.locate hout hnames (by simpa using hne)
  obtain ⟨hin, hother⟩ := h.written.fileAt hout hnames hq
  refine ⟨q, hq, hdir, fun path hp => hin _ (List.mem_map_of_mem hp), fun p hp => ?_⟩
  exact hother p (List.forall_mem_map.mpr hp)

structure Consulted (dir : String) (names : List String) (w v : World) : Prop where
  disk : v.disk = w.disk
  opened : v.accesses = w.accesses ++ names.map fun name => .read (Path.join dir name)

theorem Consulted.of_untouched {dir : String} (h : untouched.rel w v) :
    w.Consulted dir [] v := ⟨h.1, by simp [h.2]⟩

theorem Consulted.trans {dir : String} {ns ms : List String}
    (h : u.Consulted dir ns v) (k : v.Consulted dir ms w) : u.Consulted dir (ns ++ ms) w :=
  ⟨k.disk.trans h.disk, by simp [k.opened, h.opened]⟩

end World

namespace Graph
open Relation

/-- In a list of files, each one from which dependencies lead into no circle comes after all that it
depends on. -/
def DependenciesFirst (g : Graph) (files : List String) : Prop :=
  ∀ v dep, g.Needs v dep → (∀ u, TransGen g.Needs v u → ¬ TransGen g.Needs u u) →
    files.idxOf dep < files.idxOf v

theorem order_dependenciesFirst {g : Graph} (hn : g.files.Nodup)
    (hclosed : ∀ v dep, g.Needs v dep → dep ∈ g.files) : g.DependenciesFirst g.order := by
  intro v dep hv hfree
  refine idxOf_order_lt hn (fun u hu => ?_) hv
  rcases hu.cases_tail with rfl | ⟨x, hx, hxu⟩
  · obtain ⟨deps, hm, -⟩ := hv
    exact ⟨List.mem_map_of_mem hm, fun hc => hfree _ hc hc⟩
  · exact ⟨hclosed x u hxu, hfree u (TransGen.tail' hx hxu)⟩

end Graph

namespace Workflow
open World
variable {w v : World} {l : Language}

private theorem handled_repairFile {m : Model} {output path : String} {r : FileResult}
    (h : Ends (repairFile m l output path) w r v) : w.Handled output [path] v := by
  obtain ⟨source, _, hr, h⟩ := h.of_bind
  obtain ⟨-, rfl⟩ := hr.of_readFile
  -- copying and repairing leave the files alone
  obtain ⟨_, _, ⟨cdisk, caccesses⟩, h⟩ := h.past untouched
  obtain ⟨⟨code, fixes⟩, _, ⟨ldisk, laccesses⟩, h⟩ := h.past untouched
  obtain ⟨_, _, hw, h⟩ := h.of_bind
  obtain ⟨d, hwrite, rfl⟩ := hw.of_writeFile
  obtain ⟨-, rfl⟩ := h.of_pure
  rw [ldisk, cdisk] at hwrite
  refine ⟨?_, .cons hwrite (.nil d)⟩
  simp [laccesses, caccesses, handling]

theorem handled_repairFiles {m : Model} {output : String} {count : Nat}
    {files : List String} {done : Nat} {rs : List FileResult}
    (h : Ends (repairFiles m l output count files done) w rs v) : w.Handled output files v := by
  induction files generalizing done rs w with
  | nil =>
    obtain ⟨-, rfl⟩ := h.of_pure
    exact ⟨by simp, .nil _⟩
  | cons path files ih =>
    unfold repairFiles at h
    obtain ⟨_, _, hs, h⟩ := h.past untouched
    obtain ⟨_, _, ht, h⟩ := h.past untouched
    obtain ⟨r, _, hr, h⟩ := h.of_bind
    obtain ⟨rs', _, hrs, h⟩ := h.of_bind
    obtain ⟨-, rfl⟩ := h.of_pure
    have first := (handled_repairFile hr).of_untouched (untouched.trans hs ht)
    exact first.cons (ih hrs)

private theorem consulted_recheck {output : String} {names : List String}
    {u : Unit} (h : Ends (recheck l output names) w u v) :
    ∃ read, read ⊆ names ∧ w.Consulted output read v := by
  induction names generalizing w with
  | nil =>
    obtain ⟨-, rfl⟩ := h.of_pure
    exact ⟨[], by simp, .of_untouched ⟨rfl, rfl⟩⟩
  | cons name names ih =>
    obtain ⟨_, _, hf, h⟩ := Ends.of_bind h
    obtain ⟨read, hsub, hrest⟩ := ih h
    obtain ⟨d, _, hd, hf⟩ := Ends.of_bind hf
    obtain ⟨-, rfl⟩ := hd.of_disk
    split at hf
    · obtain ⟨text, _, hr, hf⟩ := hf.of_bind
      obtain ⟨-, rfl⟩ := hr.of_readFile
      have first : w.Consulted output [name]
          { w with accesses := w.accesses ++ [.read (Path.join output name)] } := ⟨rfl, rfl⟩
      refine ⟨name :: read, List.cons_subset_cons _ hsub, ?_⟩
      exact (first.trans (.of_untouched (hf.keeps untouched))).trans hrest
    · obtain ⟨-, rfl⟩ := hf.of_pure
      exact ⟨read, fun n hn => List.mem_cons_of_mem _ (hsub hn), hrest⟩

theorem of_arrange {files paths : List String} {g : Graph}
    (h : Ends (arrange l files) w (paths, g) v) :
    Dependency.graph w.disk files (some l) = .ok g ∧ paths = pathsOf files g.order ∧
      untouched.rel w v := by
  have hsame := h.keeps untouched
  obtain ⟨_, _, ⟨hdisk, -⟩, h⟩ := h.past untouched
  obtain ⟨d, _, hd, h⟩ := h.of_bind
  obtain ⟨rfl, rfl⟩ := hd.of_disk
  obtain ⟨graph, _, hg, h⟩ := h.of_bind
  obtain ⟨hgraph, rfl⟩ := hg.of_ofExcept
  obtain ⟨_, _, -, h⟩ := h.of_bind
  obtain ⟨_, _, -, h⟩ := h.of_bind
  obtain ⟨rfl, rfl⟩ := Prod.mk.inj h.of_pure.1
  rw [hdisk] at hgraph
  exact ⟨hgraph, rfl, hsame⟩

theorem mem_toRecheck {g : Graph} {changed : List String} {name : String}
    (h : name ∈ toRecheck g changed) : name ∈ g.files := by
  rw [toRecheck, Text.mem_sorted, List.mem_flatMap] at h
  obtain ⟨file, -, hm⟩ := h
  obtain ⟨e, he, rfl⟩ := List.mem_map.mp hm
  exact List.mem_map_of_mem (List.mem_filter.mp he).1

theorem of_repairDirectory {input : String} {output : Option String}
    {files : List String} {u : Unit}
    (h : Ends (repairDirectory l input output true files) w u v) : ∃ d g x read,
      w.disk.makeDirs (outputDir input output) = .ok d ∧
      Dependency.graph d files (some l) = .ok g ∧
      { w with disk := d }.Handled (outputDir input output) (pathsOf files g.order) x ∧
      read ⊆ g.files ∧ x.Consulted (outputDir input output) read v := by
  obtain ⟨_, _, hm, h⟩ := h.of_bind
  obtain ⟨d, hmake, rfl⟩ := hm.of_makeDirs
  obtain ⟨_, _, ha, h⟩ := h.past untouched
  obtain ⟨_, _, hb, h⟩ := h.past untouched
  obtain ⟨_, _, hc, h⟩ := h.past untouched
  obtain ⟨_, _, hd, h⟩ := h.past untouched
  have hshown := untouched.trans ha (untouched.trans hb (untouched.trans hc hd))
  rw [if_pos rfl] at h
  obtain ⟨⟨paths, g⟩, _, harranged, h⟩ := h.of_bind
  obtain ⟨hgraph, rfl, he⟩ := of_arrange harranged
  rw [hshown.1] at hgraph
  unfold repairInOrder at h
  obtain ⟨_, _, hf, h⟩ := h.past untouched
  obtain ⟨_, _, hg, h⟩ := h.past untouched
  obtain ⟨m, _, hh, h⟩ := h.past untouched
  have hready := untouched.trans he (untouched.trans hf (untouched.trans hg hh))
  obtain ⟨done, x, hdone, h⟩ := h.of_bind
  have hhandled := (handled_repairFiles hdone).of_untouched (untouched.trans hshown hready)
  suffices hread : ∃ read, read ⊆ g.files ∧ x.Consulted (outputDir input output) read v by
    obtain ⟨read, hsub, hread⟩ := hread
    exact ⟨d, g, x, read, hmake, hgraph, hhandled, hsub, hread⟩
  obtain ⟨_, _, hsum, h⟩ := h.past untouched
  have calm (hx : untouched.rel _ v) :
      ∃ read, read ⊆ g.files ∧ x.Consulted (outputDir input output) read v :=
    ⟨[], List.nil_subset _, .of_untouched (untouched.trans hsum hx)⟩
  dsimp only at h
  split at h
  · obtain ⟨_, _, ht, h⟩ := h.past untouched
    split at h
    · exact calm (untouched.trans ht (h.keeps untouched))
    · obtain ⟨_, _, hu, h⟩ := h.past untouched
      obtain ⟨_, _, hr, h⟩ := h.of_bind
      obtain ⟨read, hsub, hread⟩ := consulted_recheck hr
      have before : x.Consulted (outputDir input output) [] _ :=
        .of_untouched (untouched.trans hsum (untouched.trans ht hu))
      refine ⟨read, fun n hn => mem_toRecheck (hsub hn), ?_⟩
      simpa using (before.trans hread).trans (.of_untouched (h.keeps untouched))
  · exact calm (h.keeps untouched)

/-- The language of a run on a directory: the one that is named, or else that of its files. -/
def languageOf (d : Disk) (input : String) (lang : Option String) : Option Language :=
  ((lang.filter (· ≠ "")) <|> (languageIn d input fileSuffixes).map Language.name).bind
    Language.ofName?

theorem ends_separate {input : String} {output lang : Option String} {deps : Bool} :
    Ends (separate input output lang deps) w true v ↔ ∃ l u,
      languageOf w.disk input lang = some l ∧ Glob.withSuffix w.disk input l.profile.suffix ≠ [] ∧
      Ends (repairDirectory l input output deps (Glob.withSuffix w.disk input l.profile.suffix))
        w u v := by
  unfold languageOf
  constructor
  · intro h
    obtain ⟨d, _, hd, h⟩ := h.of_bind
    obtain ⟨rfl, rfl⟩ := hd.of_disk
    split at h
    · obtain ⟨_, _, -, h⟩ := h.of_bind
      cases h.of_pure.1
    · rename_i name hname
      rw [hname]
      split at h
      · obtain ⟨_, _, -, h⟩ := h.of_bind
        cases h.of_pure.1
      · rename_i l hl
        dsimp only at h
        split at h
        · obtain ⟨_, _, -, h⟩ := h.of_bind
          cases h.of_pure.1
        · rename_i hfiles
          obtain ⟨u, _, hr, h⟩ := h.of_bind
          obtain ⟨-, rfl⟩ := h.of_pure
          exact ⟨l, u, hl, by simpa using hfiles, hr⟩
  · rintro ⟨l, u, hl, hfiles, hr⟩
    obtain ⟨name, hname, hl⟩ := Option.bind_eq_some_iff.mp hl
    have hdisk : Ends disk w w.disk w := rfl
    refine hdisk.bind ?_
    rw [hname]
    dsimp only
    rw [hl]
    dsimp only
    rw [if_neg (by simpa using hfiles)]
    exact hr.bind rfl

/-- A run on a directory handles every source file once. The files, which have distinct names, are
read and written one after the other in an order that holds each of them once; after that only
results are read again. At the place of the output directory stands a result for each file under its
name, and nothing else on the disk is written. A file whose dependencies lead into no circle comes
after all that it depends on. -/
theorem separate_handles_each_file {input : String} {output lang : Option String} {w v : World}
    (hinput : Glob.hasWildcard input = false) (hnamed : w.disk.Named)
    (h : Ends (separate input output lang true) w true v) :
    ∃ l d g order, languageOf w.disk input lang = some l ∧
      w.disk.makeDirs (outputDir input output) = .ok d ∧
      Dependency.graph d (Glob.withSuffix w.disk input l.profile.suffix) (some l) = .ok g ∧
      order.Perm (Glob.withSuffix w.disk input l.profile.suffix) ∧ order ≠ [] ∧
      (order.map Path.baseName).Nodup ∧ g.DependenciesFirst (order.map Path.baseName) ∧
      (∃ read ⊆ order.map Path.baseName, v.accesses = w.accesses ++
        order.flatMap (handling (outputDir input output)) ++
        read.map fun name => .read (Path.join (outputDir input output) name)) ∧
      (∃ q, d.locate? (outputDir input output) = some q ∧ d.isDirAt q = true ∧
        (∀ path ∈ order, ∃ text, v.disk.fileAt? (q ++ [Path.baseName path]) = some ⟨text, true⟩) ∧
        ∀ p, (∀ path ∈ order, p ≠ q ++ [Path.baseName path]) →
          v.disk.fileAt? p = w.disk.fileAt? p) ∧
      v.disk.Named := by
  obtain ⟨l, u, hl, hfiles, hr⟩ := ends_separate.mp h
  obtain ⟨d, g, x, read, hmake, hgraph, hhandled, hsub, hread⟩ := of_repairDirectory hr
  obtain ⟨hproper, hnodup⟩ := Glob.selected hnamed l hinput
  obtain ⟨hnames, hclosed⟩ := Dependency.graph_files hnodup hgraph
  have hgn : g.files.Nodup := hnames ▸ hnodup
  have horder := Graph.order_perm hgn
  obtain ⟨hmap, hperm⟩ := pathsOf_spec hnodup (hnames ▸ horder)
  generalize pathsOf _ g.order = order at *
  have hne : order ≠ [] := fun he => hfiles (he ▸ hperm).nil_eq.symm
  obtain ⟨q, hq, hdir, hin, hother⟩ := hhandled.results (Disk.makeDirs_path hmake)
    (fun path hp => hproper path (hperm.mem_iff.mp hp)) hne
  refine ⟨l, d, g, order, hl, hmake, hgraph, hperm, hne, ?_, ?_, ⟨read, ?_, ?_⟩,
    ⟨q, hq, hdir, ?_, fun p hp => ?_⟩, ?_⟩
  · rw [hmap]
    exact horder.nodup_iff.mpr hgn
  · rw [hmap]
    exact Graph.order_dependenciesFirst hgn hclosed
  · rw [hmap]
    exact fun n hn => horder.mem_iff.mpr (hsub hn)
  · rw [hread.opened, hhandled.opened]
  · rw [hread.disk]
    exact hin
  · rw [hread.disk, hother p hp, Disk.fileAt?, Disk.makeDirs_files hmake, Disk.fileAt?]
  · rw [hread.disk]
    exact (hnamed.makeDirs hmake).writes hhandled.written

def importing : World where
  disk := { files := [(["p", "a.py"], ⟨"import b\n", true⟩), (["p", "b.py"], ⟨"x = 1\n", true⟩)]
            dirs := [["p"]] }

private theorem importing_files :
    Glob.withSuffix importing.disk "p" Language.python.profile.suffix = ["p/a.py", "p/b.py"] := by
  have hsorted : Text.sorted ["a.py", "b.py"] = ["a.py", "b.py"] := Text.sorted_eq_self (by decide)
  have hfiles : importing.disk.fileNames ["p"] = ["a.py", "b.py"] := hsorted
  have hdirs : importing.disk.dirNames ["p"] = [] := Text.sorted_eq_self .nil
  have hplace : importing.disk.locate? "p" = some ["p"] := by decide +kernel
  have hnames : Glob.namesIn importing.disk false "p" ("*" ++ Language.python.profile.suffix) =
      ["a.py", "b.py"] := by
    rw [Glob.namesIn, if_neg (by decide), hplace]
    dsimp only
    rw [hfiles, hdirs, if_pos (by decide +kernel), if_neg (by decide), List.append_nil, hsorted]
    decide +kernel
  have hdir : Glob.searched "p" .python = "p" := by decide
  rw [Glob.withSuffix_eq _ _ (by decide), hdir, hnames]
  exact Text.sorted_eq_self (by decide)

private theorem importing_ends :
    ∃ v, Ends (separate "p" none (some "python")) importing true v := by
  have hrun : ((repairDirectory .python "p" none true ["p/a.py", "p/b.py"]).result
      importing).toBool = true := by decide +kernel
  cases hr : (repairDirectory .python "p" none true ["p/a.py", "p/b.py"]).result importing with
  | error e => simp [hr, Except.toBool] at hrun
  | ok u =>
    refine ⟨(repairDirectory .python "p" none true ["p/a.py", "p/b.py"]).after importing,
      ends_separate.mpr ⟨.python, u, by decide, ?_, ?_⟩⟩
    · rw [importing_files]
      simp
    · rw [importing_files]
      exact ends_of_result hr

/-- A script that imports another one is handled after it, though its name comes first. -/
theorem imported_first : Glob.hasWildcard "p" = false ∧ importing.disk.Named ∧
    ∃ (v : World) (order : List String),
      Ends (separate "p" none (some "python")) importing true v ∧
      order.Perm ["p/a.py", "p/b.py"] ∧
      (order.map Path.baseName).idxOf "b.py" < (order.map Path.baseName).idxOf "a.py" := by
  have hplain : Glob.hasWildcard "p" = false := by decide
  have hnamed : importing.disk.Named := by decide
  obtain ⟨v, hends⟩ := importing_ends
  obtain ⟨l, d, g, order, hl, hmake, hgraph, hperm, -, -, hfirst, -⟩ :=
    separate_handles_each_file hplain hnamed hends
  have hpython : languageOf importing.disk "p" (some "python") = some .python := by decide
  obtain rfl := Option.some.inj (hpython.symm.trans hl)
  rw [importing_files] at hgraph hperm
  have hmade : importing.disk.makeDirs (outputDir "p" none) =
      .ok { importing.disk with dirs := [["p"], ["p_fixed"]] } := by
    have hdir : outputDir "p" none = "p_fixed" := by decide
    have hnames : Text.splitOn '/' "p_fixed" = ["p_fixed"] := by decide
    rw [hdir, Disk.makeDirs, if_neg (by decide), hnames]
    rfl
  obtain rfl := Except.ok.inj (hmade.symm.trans hmake)
  have hfound : Dependency.graph { importing.disk with dirs := [["p"], ["p_fixed"]] }
      ["p/a.py", "p/b.py"] (some .python) = .ok [("a.py", ["b.py"]), ("b.py", [])] := by
    decide +kernel
  obtain rfl := Except.ok.inj (hfound.symm.trans hgraph)
  have hneeds (u x : String) (hu : Graph.Needs [("a.py", ["b.py"]), ("b.py", [])] u x) :
      u = "a.py" ∧ x = "b.py" := by
    obtain ⟨deps, hm, hx⟩ := hu
    simp only [List.mem_cons, Prod.mk.injEq, List.not_mem_nil, or_false] at hm
    rcases hm with ⟨rfl, rfl⟩ | ⟨rfl, rfl⟩
    · exact ⟨rfl, List.mem_singleton.mp hx⟩
    · cases hx
  refine ⟨hplain, hnamed, v, order, hends, hperm, hfirst _ _ ⟨["b.py"], by simp, by simp⟩ ?_⟩
  intro u _ hc
  obtain ⟨x, hx, -⟩ := Relation.TransGen.head'_iff.mp hc
  obtain ⟨y, -, hy⟩ := Relation.TransGen.tail'_iff.mp hc
  exact absurd ((hneeds u x hx).1.symm.trans (hneeds y u hy).2) (by decide)

end Workflow
end Mender
