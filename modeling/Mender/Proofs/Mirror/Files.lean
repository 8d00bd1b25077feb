import Mender.Proofs.Copies
import Mender.Proofs.Handling
import Mender.Proofs.LocalFix

/-! Files that are repaired one by one are saved as the container holds them: every text that is
repaired is copied at once, and a file that is checked again is copied as it was saved. -/
namespace Mender.Workflow
open Run World Sandbox
variable {u v w : World} {m : Model} {l : Language} {code name output path : String}
variable {files : List String}

theorem outcome_localFix {message lang new : String} {fixed : Bool}
    (h : Ends (localFix code message lang) w (new, fixed) v) : ∃ s,
      (LocalFix.run w.workingModules code message lang).outcome.1 = .ok s ∧ s.code = new ∧
      s.applied = fixed := by
  obtain ⟨_, _, hw, h⟩ := h.of_bind
  cases hw
  obtain ⟨s, _, hs, h⟩ := h.of_bind
  have he : (s.code, s.applied) = (new, fixed) := by
    split at h
    · obtain ⟨_, _, -, h⟩ := h.of_bind
      exact h.of_pure.1
    · exact h.of_pure.1
  exact ⟨s, hs.of_ofNoted, Prod.mk.inj he⟩

private theorem of_localFix {message lang new : String}
    (h : Ends (localFix code message lang) w (new, false) v) : new = code := by
  obtain ⟨s, hs, rfl, ha⟩ := outcome_localFix h
  exact LocalFix.code_of_not_applied hs ha

private theorem holds_fileLoop {left fixes n : Nat} {new : String}
    (hw : u.Holds w (inWorkspace name) code)
    (h : Ends (fileLoop m l name left code fixes) w (new, n) v) :
    u.Holds v (inWorkspace name) new := by
  induction left generalizing code fixes w with
  | zero =>
    obtain ⟨he, rfl⟩ := h.of_pure
    exact (Prod.mk.inj he).1 ▸ hw
  | succ left ih =>
    unfold fileLoop at h
    obtain ⟨checked, _, hc, h⟩ := h.past copyless
    replace hw := hw.idle hc
    dsimp only at h
    split at h
    · obtain ⟨_, _, hs, h⟩ := h.past copyless
      replace hw := hw.idle hs
      obtain ⟨he, rfl⟩ := h.of_pure
      exact (Prod.mk.inj he).1 ▸ hw
    · obtain ⟨_, _, hs, h⟩ := h.past copyless
      obtain ⟨⟨text, fixed⟩, _, hl, h⟩ := h.of_bind
      replace hw := (hw.idle hs).idle (hl.keeps copyless)
      cases fixed with
      | true =>
        obtain ⟨_, _, hcopy, h⟩ := h.of_bind
        exact ih (hw.trans (holds_copyFile hcopy)) h
      | false =>
        rw [← of_localFix hl] at hw
        obtain ⟨p, _, hp, h⟩ := h.past copyless
        replace hw := hw.idle hp
        dsimp only at h
        split at h
        · obtain ⟨kept, _, hk, h⟩ := h.past copyless
          obtain ⟨_, _, hcopy, h⟩ := h.of_bind
          exact ih ((hw.idle hk).trans (holds_copyFile hcopy)) h
        · obtain ⟨_, _, hs, h⟩ := h.past copyless
          replace hw := hw.idle hs
          obtain ⟨he, rfl⟩ := h.of_pure
          exact (Prod.mk.inj he).1 ▸ hw

/-- A file that is repaired is copied and saved with the same text; if it is reported as unchanged,
that is the text it had. -/
theorem inStep_repairFile {r : FileResult} (h : Ends (repairFile m l output path) w r v) :
    ∃ text, w.InStep v output (Path.baseName path) text ∧ r.name = Path.baseName path ∧
      (r.changed = false → w.disk.read path false = .ok text) := by
  obtain ⟨source, _, hr, h⟩ := h.of_bind
  obtain ⟨hsource, rfl⟩ := hr.of_readFile
  obtain ⟨_, _, hcopy, h⟩ := h.of_bind
  obtain ⟨⟨text, fixes⟩, _, hl, h⟩ := h.of_bind
  have hheld := holds_fileLoop (holds_copyFile hcopy) hl
  obtain ⟨_, _, hw, h⟩ := h.of_bind
  have hstored := hw.keeps copyless
  obtain ⟨d, hwrite, rfl⟩ := hw.of_writeFile
  obtain ⟨rfl, rfl⟩ := h.of_pure
  refine ⟨text, ⟨hheld.idle hstored, Disk.file_write hwrite⟩, rfl, fun hc => ?_⟩
  have he : text = source := by simpa using hc
  exact he ▸ hsource

private theorem undisturbed_repairFile (hout : output ≠ "") (ho : '/' ∉ name.toList)
    (hp : Disk.IsProper (Path.baseName path)) (hne : name ≠ Path.baseName path) :
    Keeps (undisturbed output name) (repairFile m l output path) := by
  have copied (code : String) :
      Keeps (undisturbed output name) (copyFile code (Path.baseName path)) :=
    undisturbed_copyFile hne.symm
  have saved (text : String) : Keeps (undisturbed output name)
      (writeFile (Path.join output (Path.baseName path)) text) :=
    undisturbed_writeFile hout ho hp hne
  have repaired := keeps_fileLoop_of (m := m) (l := l) copied
  unfold repairFile
  infer_instance

private theorem undisturbed_repairFiles {count : Nat} {done : Nat}
    (hout : output ≠ "") (ho : '/' ∉ name.toList)
    (hproper : ∀ path ∈ files, Disk.IsProper (Path.baseName path))
    (hne : name ∉ files.map Path.baseName) :
    Keeps (undisturbed output name) (repairFiles m l output count files done) := by
  induction files generalizing done with
  | nil => exact keeps_pure _
  | cons path files ih =>
    obtain ⟨hp, hproper⟩ := List.forall_mem_cons.mp hproper
    rw [List.map_cons, List.mem_cons, not_or] at hne
    have first := undisturbed_repairFile (m := m) (l := l) hout ho hp hne.1
    have rest (done : Nat) :
        Keeps (undisturbed output name) (repairFiles m l output count files done) :=
      ih hproper hne.2
    unfold repairFiles
    infer_instance

theorem inStep_repairFiles {count : Nat} {done : Nat} {rs : List FileResult}
    (hout : output ≠ "") (hproper : ∀ path ∈ files, Disk.IsProper (Path.baseName path))
    (hnodup : (files.map Path.baseName).Nodup)
    (h : Ends (repairFiles m l output count files done) w rs v) :
    rs.map FileResult.name = files.map Path.baseName ∧
      ∀ path ∈ files, ∃ text, w.InStep v output (Path.baseName path) text ∧
        ∃ r ∈ rs, r.name = Path.baseName path ∧ (r.changed = false → '\r' ∉ text.toList) := by
  induction files generalizing done rs w with
  | nil =>
    obtain ⟨rfl, -⟩ := h.of_pure
    exact ⟨rfl, by simp⟩
  | cons path files ih =>
    unfold repairFiles at h
    obtain ⟨_, _, hu, h⟩ := h.past grown
    obtain ⟨_, _, hu, h⟩ := h.pass hu
    obtain ⟨r, _, hr, h⟩ := h.of_bind
    obtain ⟨rest, _, hrs, h⟩ := h.of_bind
    obtain ⟨rfl, rfl⟩ := h.of_pure
    obtain ⟨hp, hproper⟩ := List.forall_mem_cons.mp hproper
    obtain ⟨hnew, hnodup⟩ := List.nodup_cons.mp hnodup
    obtain ⟨hnames, hrest⟩ := ih hproper hnodup hrs
    obtain ⟨text, hstep, hname, hsame⟩ := inStep_repairFile hr
    refine ⟨by simp [hname, hnames], List.forall_mem_cons.mpr ⟨?_, fun path' hp' => ?_⟩⟩
    · have others : (undisturbed output (Path.baseName path)).rel _ _ := hrs.keeps
        (undisturbed output (Path.baseName path)) (k := undisturbed_repairFiles hout
          (Path.baseName_unslashed path) hproper hnew)
      exact ⟨text, (hstep.past others).of_grown hu, r, List.mem_cons_self, hname,
        fun hc => Disk.read_unreturned (hsame hc)⟩
    · obtain ⟨text', hstep', r', hr', hk⟩ := hrest path' hp'
      exact ⟨text', hstep'.of_grown (grown.trans hu (hr.keeps grown)), r',
        List.mem_cons_of_mem _ hr', hk⟩

private theorem inStep_recheck {names : List String} {x : Unit} {text : String}
    (hw : u.InStep w output name text) (hr : name ∈ names → '\r' ∉ text.toList)
    (h : Ends (recheck l output names) w x v) : u.InStep v output name text := by
  induction names generalizing w with
  | nil =>
    obtain ⟨-, rfl⟩ := h.of_pure
    exact hw
  | cons n names ih =>
    obtain ⟨_, _, hf, h⟩ := Ends.of_bind h
    refine ih ?_ (fun hm => hr (List.mem_cons_of_mem _ hm)) h
    obtain ⟨d, _, hd, hf⟩ := Ends.of_bind hf
    obtain ⟨-, rfl⟩ := hd.of_disk
    split at hf
    · by_cases hn : n = name
      · subst hn
        obtain ⟨read, _, hread, hf⟩ := hf.of_bind
        have hidle := hread.keeps copyless
        obtain ⟨htext, rfl⟩ := hread.of_readFile
        obtain rfl := Disk.read_eq hw.saved (hr List.mem_cons_self) htext
        obtain ⟨_, _, hcopy, hf⟩ := hf.of_bind
        refine ⟨((hw.held.idle hidle).trans (holds_copyFile hcopy)).idle (hf.keeps copyless), ?_⟩
        rw [(hf.keeps untouched).1, (hcopy.keeps untouched).1]
        exact hw.saved
      · have copied (code : String) : Keeps (undisturbed output name) (copyFile code n) :=
          undisturbed_copyFile hn
        exact hw.past (hf.keeps (undisturbed output name))
    · obtain ⟨-, rfl⟩ := hf.of_pure
      exact hw

private theorem FileResult.foldl_put {rs : List FileResult} (h : (rs.map FileResult.name).Nodup) :
    rs.foldl FileResult.put [] = rs := by
  refine foldl_put_of_nodup (k := FileResult.name) (fun rs r hr => if_neg ?_) (by simpa using h)
  simpa using hr

private theorem not_mem_of_mem_toRecheck {g : Graph} {changed : List String}
    (h : name ∈ toRecheck g changed) : name ∉ changed := by
  rw [toRecheck, Text.mem_sorted, List.mem_flatMap] at h
  obtain ⟨file, -, hm⟩ := h
  obtain ⟨e, he, rfl⟩ := List.mem_map.mp hm
  simpa using (Bool.and_eq_true_iff.mp (List.mem_filter.mp he).2).2

/-- Files that are repaired in an order are all in step at the end, also those that are checked
again. -/
private theorem inStep_repairInOrder {deps : Bool} {g : Graph} {x : Unit}
    (hout : output ≠ "") (hproper : ∀ path ∈ files, Disk.IsProper (Path.baseName path))
    (hnodup : (files.map Path.baseName).Nodup)
    (h : Ends (repairInOrder l output deps files g) w x v) (hp : path ∈ files) :
    ∃ text, w.InStep v output (Path.baseName path) text := by
  obtain ⟨_, _, hu, h⟩ := h.past grown
  obtain ⟨_, _, hu, h⟩ := h.pass hu
  obtain ⟨m, _, hu, h⟩ := h.pass hu
  obtain ⟨done, _, hdone, h⟩ := h.of_bind
  obtain ⟨hnames, hstep⟩ := inStep_repairFiles hout hproper hnodup hdone
  obtain ⟨text, hstep, r, hr, hname, hsame⟩ := hstep path hp
  replace hstep := hstep.of_grown hu
  refine ⟨text, ?_⟩
  dsimp only at h
  rw [FileResult.foldl_put (hnames ▸ hnodup)] at h
  obtain ⟨_, _, h4, h⟩ := h.past (undisturbed output (Path.baseName path))
  replace hstep := hstep.past h4
  split at h
  · obtain ⟨_, _, h5, h⟩ := h.past (undisturbed output (Path.baseName path))
    replace hstep := hstep.past h5
    split at h
    · exact hstep.past (h.keeps _)
    · obtain ⟨_, _, h6, h⟩ := h.past (undisturbed output (Path.baseName path))
      obtain ⟨_, _, hre, h⟩ := h.of_bind
      refine (inStep_recheck (hstep.past h6) (fun hm => hsame ?_) hre).past (h.keeps _)
      -- a file that is checked again was not changed
      by_contra hc
      refine not_mem_of_mem_toRecheck hm (List.mem_map.mpr ⟨r, List.mem_filter.mpr ⟨hr, ?_⟩, hname⟩)
      simpa using hc
  · exact hstep.past (h.keeps _)

theorem inStep_separate {input : String} {output lang : Option String} {deps : Bool}
    (hinput : Glob.hasWildcard input = false) (hnamed : w.disk.Named)
    (h : Ends (separate input output lang deps) w true v) : ∃ l,
      languageOf w.disk input lang = some l ∧ Glob.withSuffix w.disk input l.profile.suffix ≠ [] ∧
      ∀ path ∈ Glob.withSuffix w.disk input l.profile.suffix,
        ∃ text, w.InStep v (outputDir input output) (Path.baseName path) text := by
  obtain ⟨l, _, hl, hfiles, h⟩ := ends_separate.mp h
  refine ⟨l, hl, hfiles, fun path hp => ?_⟩
  obtain ⟨hproper, hnodup⟩ := Glob.selected hnamed l hinput
  generalize Glob.withSuffix w.disk input l.profile.suffix = files at *
  obtain ⟨_, _, hm, h⟩ := h.of_bind
  have hu := hm.keeps grown
  obtain ⟨d, hmake, rfl⟩ := hm.of_makeDirs
  have hout := Disk.makeDirs_path hmake
  iterate 4 obtain ⟨_, _, hu, h⟩ := h.pass hu
  split at h
  · obtain ⟨⟨order, g⟩, _, ha, h⟩ := h.of_bind
    have hperm : order.Perm files := by
      obtain ⟨hgraph, rfl, -⟩ := of_arrange ha
      obtain ⟨hnames, -⟩ := Dependency.graph_files hnodup hgraph
      exact (pathsOf_spec hnodup (hnames ▸ Graph.order_perm (hnames ▸ hnodup))).2
    obtain ⟨text, hstep⟩ := inStep_repairInOrder hout
      (fun path hp => hproper path (hperm.mem_iff.mp hp))
      ((hperm.map Path.baseName).nodup_iff.mpr hnodup) h (hperm.mem_iff.mpr hp)
    exact ⟨text, hstep.of_grown (grown.trans hu (ha.keeps grown))⟩
  · obtain ⟨⟨order, g⟩, _, ha, h⟩ := h.of_bind
    obtain ⟨he, rfl⟩ := ha.of_pure
    obtain ⟨rfl, rfl⟩ := Prod.mk.inj he
    obtain ⟨text, hstep⟩ := inStep_repairInOrder hout hproper hnodup h hp
    exact ⟨text, hstep.of_grown hu⟩

end Mender.Workflow
