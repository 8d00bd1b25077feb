import Mender.Proofs.Rounds

/-! The report on a project that was repaired. A round revises one text at most; if it does, it
counts a repair and notes the file. So a text of a file that is not noted is saved as it was read,
no more files are noted than repairs counted, and no more repairs counted than rounds allowed. -/
namespace Mender.Workflow
open Run World

section Account
variable {ts : Texts} {p q : Project} {j : Job} {left : Nat} {u v w : World}

/-- A project keeps account of texts since they were read: it notes a file for each repair, and the
text of a file that is not noted is as it was. -/
structure Project.Tracks (ts : Texts) (p : Project) : Prop where
  counted : p.fixed.length = p.fixes
  unchanged : ∀ name ∉ p.fixed, p.texts.lookup name = ts.lookup name

private theorem Project.tracks_start (ts : Texts) : Tracks ts
    { texts := ts } := ⟨rfl, fun _ _ => rfl⟩

private theorem Project.Tracks.revise (h : Tracks ts p) (name code : String) :
    Tracks ts (p.revise name code) where
  counted := by rw [Project.revise, List.length_append, h.counted, List.length_singleton]
  unchanged other ho := by
    rw [Project.revise, List.mem_append, List.mem_singleton, not_or] at ho
    rw [Project.revise, Texts.lookup_put, if_neg ho.2, h.unchanged other ho.1]

theorem round_cases (h : Ends (j.round left p) w (.again q) v) :
    q = p ∨ ∃ name new, q = p.revise name new := by
  obtain ⟨report, x, t, ts, -, -, hskipped, hrevised⟩ := led_round h
  cases hl : p.texts.lookup t.file with
  | none => exact .inl (hskipped hl)
  | some old =>
    obtain ⟨new, hq, -⟩ := hrevised old hl
    exact .inr ⟨t.file, new, hq⟩

theorem round_changes_one (h : Ends (j.round left p) w (.again q) v) :
    ∃ name, ∀ other ≠ name, q.texts.lookup other = p.texts.lookup other := by
  rcases round_cases h with rfl | ⟨name, new, rfl⟩
  · exact ⟨"", fun _ _ => rfl⟩
  · exact ⟨name, fun other hne => (Texts.lookup_put ..).trans (if_neg hne)⟩

variable {input : String} {output lang : Option String} {limit : Option Int}

/-- Every round begins with the account kept and with a repair allowed for each round to come. -/
theorem Begins.tracks (h : Begins input output lang limit w j left p u) : ∃ ts x,
    Ends (opening input output lang limit) w (some (j, ts)) x ∧ p.Tracks ts ∧
      p.fixes + left ≤ j.limit.toNat := by
  induction h with
  | first h => exact ⟨_, _, h, Project.tracks_start _, Nat.le_of_eq (Nat.zero_add _)⟩
  | @next left p q u v h again ih =>
    obtain ⟨ts, x, hx, htracks, hle⟩ := ih
    rcases round_cases again with rfl | ⟨name, new, rfl⟩
    · exact ⟨ts, x, hx, htracks, by omega⟩
    · have hone : (p.revise name new).fixes = p.fixes + 1 := rfl
      exact ⟨ts, x, hx, htracks.revise name new, by omega⟩

theorem Begins.last (hb : Begins input output lang limit w j left p u)
    (h : Ends (j.rounds left p) u q v) : ∃ n x, Begins input output lang limit w j n q x ∧
      (n = 0 ∨ ∃ k, n = k + 1 ∧ Ends (j.round k q) x .stop v) := by
  induction left generalizing p u with
  | zero =>
    obtain ⟨rfl, -⟩ := h.of_pure
    exact ⟨0, u, hb, .inl rfl⟩
  | succ left ih =>
    obtain ⟨_, _, hsaid, h⟩ := h.of_bind
    obtain ⟨r, x, hround, h⟩ := h.of_bind
    replace hround : Ends (j.round left p) u r x := hsaid.bind hround
    cases r with
    | again p' => exact ih (hb.next hround) h
    | stop =>
      obtain ⟨rfl, rfl⟩ := h.of_pure
      exact ⟨left + 1, u, hb, .inr ⟨left, rfl, hround⟩⟩

end Account

section Opening
variable {input : String} {output lang : Option String} {limit : Int} {j : Job} {ts : Texts}
  {files : List String} {u v w : World}

theorem read_loadFiles (hnodup : (files.map Path.baseName).Nodup)
    (h : Ends (loadFiles files) w ts v) : ∀ path ∈ files, ∃ source,
      w.disk.read path false = .ok source ∧ ts.lookup (Path.baseName path) = some source := by
  refine read_foldlM (fun h => ?_) hnodup h
  obtain ⟨source, _, hr, h⟩ := h.of_bind
  obtain ⟨hread, rfl⟩ := hr.of_readFile
  obtain ⟨_, _, hc, h⟩ := h.of_bind
  obtain ⟨rfl, rfl⟩ := h.of_pure
  exact ⟨source, hread, rfl, hc.keeps unwritten⟩

theorem of_opening {found : Option (Job × Texts)}
    (h : Ends (opening input output lang (some limit)) w found u) :
    found = none ∧ u.disk = w.disk ∨ ∃ j ts d x, found = some (j, ts) ∧
      projectLanguage w.disk input lang = some j.language ∧
      j.files = Glob.withSuffix w.disk input j.language.profile.suffix ∧ j.input = input ∧
      j.limit = limit ∧ w.disk.makeDirs (outputDir input output) = .ok d ∧ x.disk = d ∧
      Ends (loadFiles j.files) x ts u := by
  obtain ⟨d, _, hd, h⟩ := h.of_bind
  obtain ⟨rfl, rfl⟩ := hd.of_disk
  dsimp only at h
  split at h
  · exact .inl ⟨h.of_said.symm, h.keeps unwritten⟩
  rename_i l hl
  split at h
  · exact .inl ⟨h.of_said.symm, h.keeps unwritten⟩
  obtain ⟨_, _, hm, h⟩ := h.of_bind
  obtain ⟨d, hmake, rfl⟩ := hm.of_makeDirs
  obtain ⟨main, _, hu, h⟩ := h.past unwritten
  iterate 6 obtain ⟨_, _, hu, h⟩ := h.pass hu
  obtain ⟨_, _, hu, h⟩ := h.pass hu
  obtain ⟨m, x, hu, h⟩ := h.pass hu
  obtain ⟨texts, _, hload, h⟩ := h.of_bind
  obtain ⟨rfl, rfl⟩ := h.of_pure
  exact .inr ⟨_, texts, d, x, rfl, hl, rfl, rfl, rfl, hmake, hu, hload⟩

end Opening

section Closing
variable {output : Option String} {p : Project} {j : Job} {u v w : World}

/-- The lines of a report: the number of files, the number of repairs, and the files repaired. -/
def reportLines (count fixes : Nat) (names : List String) : List String :=
  ["\n" ++ bar, "[SUMMARY] 项目级修复完成", bar, s!"总文件数: {count}", s!"修复次数: {fixes}",
    "已修改文件: " ++ if names.isEmpty then "无" else Text.join ", " names]

def showing (shown : String) (lines : List String) : String :=
  lines.foldl (fun shown line => shown ++ line ++ "\n") shown

private theorem output_say {line : String} {x : Unit} (h : Ends (say line) w x v) :
    v.output = w.output ++ line ++ "\n" := by
  rw [← Ends.of_modify h]

private theorem output_remove {x : Unit} (h : Ends Sandbox.remove w x v) : v.output = w.output := by
  obtain ⟨a, _, hc, h⟩ := Ends.of_bind h
  obtain ⟨-, rfl⟩ := h.of_pure
  rw [hc.of_command, issued]

private theorem isEmpty_sorted (names : List String) :
    (Text.sorted names).isEmpty = names.isEmpty := by
  rw [Bool.eq_iff_iff, List.isEmpty_iff, List.isEmpty_iff, List.eq_nil_iff_forall_not_mem,
    List.eq_nil_iff_forall_not_mem]
  simp only [Text.mem_sorted]

theorem of_close {b : Bool} (h : Ends (j.close output p) u b v) : b = true ∧ ∃ x,
    Ends (saveFiles (outputDir j.input output) p.texts) u () x ∧
      v.output = showing x.output (reportLines j.files.length p.fixes (Text.sorted p.fixed)) ∧
      ∀ name, (undisturbed (outputDir j.input output) name).rel x v := by
  obtain ⟨_, x, hsave, h⟩ := h.of_bind
  have hcalm (name : String) := h.keeps (undisturbed (outputDir j.input output) name)
  obtain ⟨_, _, h1, h⟩ := h.of_bind
  obtain ⟨_, _, h2, h⟩ := h.of_bind
  obtain ⟨_, _, h3, h⟩ := h.of_bind
  obtain ⟨_, _, h4, h⟩ := h.of_bind
  obtain ⟨_, _, h5, h⟩ := h.of_bind
  obtain ⟨_, _, h6, h⟩ := h.of_bind
  obtain ⟨_, _, hremove, h⟩ := h.of_bind
  obtain ⟨rfl, rfl⟩ := h.of_pure
  refine ⟨rfl, x, hsave, ?_, hcalm⟩
  rw [output_remove hremove, output_say h6, output_say h5, output_say h4, output_say h3,
    output_say h2, output_say h1, reportLines, isEmpty_sorted]
  rfl

end Closing

section Whole
variable {input : String} {output lang : Option String} {limit : Int} {j : Job} {ts : Texts}
  {p : Project} {u v w x : World}

theorem files_rounds (hinput : Glob.hasWildcard input = false) (hnamed : w.disk.Named)
    (hopen : Ends (opening input output lang (some limit)) w (some (j, ts)) u)
    (hrounds : Ends (j.rounds j.limit.toNat { texts := ts }) u p x)
    (hclose : Ends (j.close output p) x true v) : ∀ path ∈ j.files, ∃ source saved,
      w.disk.read path false = .ok source ∧ ts.lookup (Path.baseName path) = some source ∧
      v.disk.file? (Path.join (outputDir input output) (Path.baseName path)) = some ⟨saved, true⟩ ∧
      p.texts.lookup (Path.baseName path) = some saved := by
  rcases of_opening hopen with
    ⟨hnone, -⟩ | ⟨j', ts', d, y, he, -, hfiles, hj, -, hmake, hdisk, hload⟩
  · cases hnone
  obtain ⟨rfl, rfl⟩ := Prod.mk.inj (Option.some.inj he)
  obtain ⟨-, z, hsave, -, hcalm⟩ := of_close hclose
  rw [hj] at hsave hcalm
  obtain ⟨hproper, hnodup⟩ := Glob.selected hnamed j.language hinput
  rw [← hfiles] at hproper hnodup
  have hloaded : Loaded _ _ _ p.texts := loaded_projectLoop (loaded_loadFiles hnodup hload) hrounds
  have hstep := inStep_saveFiles_of_mem (Disk.makeDirs_path hmake)
    (fun path hp => hproper path (List.mem_of_mem_tail hp)) hnodup hloaded.names hloaded.held hsave
  intro path hp
  obtain ⟨source, hread, hsource⟩ := read_loadFiles hnodup hload path hp
  obtain ⟨place, hplace⟩ := Glob.locate_selected hnamed hinput (hfiles ▸ hp)
  rw [hdisk] at hread
  have hname : Path.baseName path ∈ p.texts.map Prod.fst :=
    hloaded.names ▸ List.mem_map_of_mem hp
  obtain ⟨t, ht, hbase⟩ := List.mem_map.mp hname
  refine ⟨source, t.2, Disk.read_of_file_eq (Disk.file_makeDirs hmake hplace).symm hread, hsource,
    ?_, ?_⟩
  · exact hbase ▸ ((hstep t ht).past (hcalm t.1)).saved
  · exact hbase ▸ Texts.lookup_of_mem (hloaded.names ▸ hnodup) ht

/-- A run from `w` to `v` whose report, which lists `names`, is sound. It goes from round to round,
the texts of the first one being those read and the texts of the last one those saved. -/
structure SoundReport (input : String) (output lang : Option String) (limit : Int) (w v : World)
    (j : Job) (first last : Project) (names : List String) : Prop where
  language : projectLanguage w.disk input lang = some j.language
  files : j.files = Glob.withSuffix w.disk input j.language.profile.suffix
  begins : ∃ u, Begins input output lang (some limit) w j limit.toNat first u
  ends : ∃ left x, Begins input output lang (some limit) w j left last x ∧
    (left = 0 ∨ ∃ n y, left = n + 1 ∧ Ends (j.round n last) x .stop y)
  /-- A round changes one text at most. -/
  single : ∀ n p q y z, Begins input output lang (some limit) w j (n + 1) p y →
    Begins input output lang (some limit) w j n q z →
    ∃ name, ∀ other ≠ name, q.texts.lookup other = p.texts.lookup other
  shown : ∃ before, v.output = showing before (reportLines j.files.length last.fixes names)
  /-- Every file that is saved with another text than it was read with is listed. -/
  saved : ∀ path ∈ j.files, ∃ source saved, w.disk.read path false = .ok source ∧
    first.texts.lookup (Path.baseName path) = some source ∧
    v.disk.file? (Path.join (outputDir input output) (Path.baseName path)) = some ⟨saved, true⟩ ∧
    last.texts.lookup (Path.baseName path) = some saved ∧
    (saved ≠ source → Path.baseName path ∈ names)
  few : names.length ≤ last.fixes
  bounded : (last.fixes : Int) ≤ limit

/-- The report on a project is sound. A run that finds nothing to repair begins no round and leaves
all files alone. The report of any other run lists no more files than it counts repairs, and it
counts no more repairs than rounds are allowed. -/
theorem project_report_sound {completed : Bool} (hinput : Glob.hasWildcard input = false)
    (hnamed : w.disk.Named) (hlimit : 0 ≤ limit)
    (h : Ends (project input output lang (some limit)) w completed v) :
    (completed = false → v.disk = w.disk ∧
      ∀ j left p u, ¬ Begins input output lang (some limit) w j left p u) ∧
    (completed = true → ∃ (j : Job) (first last : Project) (names : List String),
      SoundReport input output lang limit w v j first last names) := by
  rw [project_eq] at h
  obtain ⟨found, u, hopen, hrest⟩ := h.of_bind
  rcases of_opening hopen with ⟨rfl, hdisk⟩ | ⟨j, ts, _, _, rfl, hlang, hfiles, -, rfl, -⟩
  · obtain ⟨rfl, rfl⟩ := Ends.of_pure hrest
    refine ⟨fun _ => ⟨hdisk, fun j left p y hb => ?_⟩, fun hc => absurd hc (by decide)⟩
    obtain ⟨ts, z, hz, -⟩ := hb.tracks
    cases (hopen.unique hz).1
  · obtain ⟨p, y, hrounds, hclose⟩ := Ends.of_bind hrest
    obtain ⟨rfl, z, -, hshown, -⟩ := of_close hclose
    have hfirst := Begins.first hopen
    obtain ⟨n, x, hlast, hend⟩ := hfirst.last hrounds
    obtain ⟨ts', _, hopen', htracks, hle⟩ := hlast.tracks
    obtain ⟨he, -⟩ := hopen.unique hopen'
    obtain ⟨-, rfl⟩ := Prod.mk.inj (Option.some.inj he)
    refine ⟨fun hc => absurd hc (by decide), fun _ => ⟨j, _, p, Text.sorted p.fixed, hlang, hfiles,
      ⟨u, hfirst⟩, ⟨n, x, hlast, ?_⟩, ?_, ⟨z.output, hshown⟩, fun path hp => ?_, ?_, by omega⟩⟩
    · rcases hend with hzero | ⟨k, hk, hstop⟩
      · exact .inl hzero
      · exact .inr ⟨k, y, hk, hstop⟩
    · exact fun _ _ _ _ _ hb hb' => round_changes_one (hb.again hb')
    · obtain ⟨source, saved, hread, hsource, hfile, hsaved⟩ :=
        files_rounds hinput hnamed hopen hrounds hclose path hp
      refine ⟨source, saved, hread, hsource, hfile, hsaved, fun hne => Text.mem_sorted.mpr ?_⟩
      -- a text that is not noted is still the one that was read
      by_contra hn
      have hsame := htracks.unchanged _ hn
      rw [hsaved, hsource] at hsame
      exact hne (Option.some.inj hsame)
    · exact (Text.length_sorted_le _).trans (Nat.le_of_eq htracks.counted)

/-- A script is saved with another text than it was read with, and it is listed. -/
theorem turned_script_listed : Glob.hasWildcard "p" = false ∧ swinging.disk.Named ∧ (0 : Int) ≤ 2 ∧
    ∃ (v : World) (fixes : Nat) (names : List String) (shown : String),
      Ends (project "p" none (some "python") (some 2)) swinging true v ∧
      swinging.disk.read "p/main.py" false = .ok "a" ∧
      v.disk.file? "p_fixed/main.py" = some ⟨"b", true⟩ ∧
      v.output = showing shown (reportLines 1 fixes names) ∧
      "main.py" ∈ names ∧ names.length ≤ fixes ∧ (fixes : Int) ≤ 2 := by
  have hplain : Glob.hasWildcard "p" = false := by decide
  have hnamed : swinging.disk.Named := by decide
  have hrun : (do
      let completed ← project "p" none (some "python") (some 2)
      let d ← Run.disk
      return (completed, d.file? "p_fixed/main.py") : Run _).result swinging =
      .ok (true, some ⟨"b", true⟩) := by decide +kernel
  obtain ⟨completed, v, h, hend⟩ := (ends_of_result hrun).of_bind
  obtain ⟨d, _, hd, hend⟩ := hend.of_bind
  obtain ⟨rfl, rfl⟩ := hd.of_disk
  obtain ⟨rfl, hfile⟩ := Prod.mk.inj hend.of_pure.1
  have hread : swinging.disk.read "p/main.py" false = .ok "a" := by decide +kernel
  obtain ⟨j, first, last, names, hreport⟩ :=
    (project_report_sound hplain hnamed (by decide) h).2 rfl
  have hpython : Language.python = j.language :=
    Option.some.inj (Eq.trans (by decide) hreport.language)
  have honly : j.files = ["p/main.py"] := by
    rw [hreport.files, ← hpython]
    decide +kernel
  obtain ⟨shown, hshown⟩ := hreport.shown
  have hsaved := hreport.saved
  have hbase : Path.baseName "p/main.py" = "main.py" := by decide +kernel
  have hpath : Path.join (outputDir "p" none) "main.py" = "p_fixed/main.py" := by decide +kernel
  rw [honly] at hshown hsaved
  obtain ⟨source, saved, hsource, -, htext, -, hlisted⟩ := hsaved "p/main.py" List.mem_cons_self
  rw [hbase, hpath, hfile] at htext
  obtain rfl : "a" = source := Except.ok.inj (hread.symm.trans hsource)
  obtain rfl : "b" = saved := congrArg FileContent.text (Option.some.inj htext)
  exact ⟨hplain, hnamed, by decide, _, last.fixes, names, shown, h, hread, hfile, hshown,
    hbase ▸ hlisted (by decide), hreport.few, hreport.bounded⟩

end Whole

end Mender.Workflow
