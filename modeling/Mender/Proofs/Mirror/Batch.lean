import Mender.Proofs.Mirror.Files
import Mender.Proofs.Mirror.Project

/-! What is saved is what the container holds, whichever way several files are repaired. With
figures the container is behind during the repair, but every text is copied once more for the last
check; then the report goes beside the results. -/
namespace Mender.Workflow
open Run World Sandbox
variable {u v w : World} {m : Model} {l : Language} {code name output path : String}

section Counted
variable {files : List String} {scope : Scope} {input report : String} {c : Counted}

theorem names_readTexts {ts : Texts} (hnodup : (files.map Path.baseName).Nodup)
    (h : Ends (readTexts files) w ts v) : ts.map Prod.fst = files.map Path.baseName := by
  have hempty : ([] : Texts).map Prod.fst = [] := rfl
  refine Texts.ends_foldlM (I := fun names _ ts => ts.map Prod.fst = names)
    (fun hnew hnames h => ?_) hempty hnodup h
  obtain ⟨code, _, -, h⟩ := h.of_bind
  rw [← h.of_pure.1, Texts.names_put, hnames, if_neg hnew]

private theorem names_countedFix {t : Diagnostic.Target} {next : Counted}
    (hn : t.file ∈ c.texts.map Prod.fst)
    (h : Ends (countedFix m l c t code report) w (some next) v) :
    next.texts.map Prod.fst = c.texts.map Prod.fst := by
  have hput (new : String) : (c.texts.put t.file new).map Prod.fst = c.texts.map Prod.fst := by
    rw [Texts.names_put, if_pos hn]
  obtain ⟨⟨new, fixed⟩, _, -, h⟩ := h.of_bind
  dsimp only at h
  split at h
  · obtain ⟨_, _, -, h⟩ := h.of_bind
    rw [← Option.some.inj h.of_pure.1]
    exact hput new
  · obtain ⟨p, _, -, h⟩ := h.of_bind
    split at h
    · obtain ⟨new, _, -, h⟩ := h.of_bind
      obtain ⟨_, _, -, h⟩ := h.of_bind
      rw [← Option.some.inj h.of_pure.1]
      exact hput new
    · cases h.of_pure.1

theorem names_countedLoop {left : Nat} {c' : Counted}
    (h : Ends (countedLoop m l scope input files left c) w c' v) :
    c'.texts.map Prod.fst = c.texts.map Prod.fst := by
  induction left generalizing c w with
  | zero => rw [← h.of_pure.1]
  | succ left ih =>
    unfold countedLoop at h
    dsimp only at h
    -- the figures change at the start of a round, the texts do not
    generalize hd : ({ c with stats := _ } : Counted) = d at h
    have hsame : d.texts = c.texts := hd ▸ rfl
    rw [← hsame]
    obtain ⟨compiled, _, -, h⟩ := h.of_bind
    split at h
    · obtain ⟨_, _, -, h⟩ := h.of_bind
      rw [← h.of_pure.1]
    · obtain ⟨target, _, -, h⟩ := h.of_bind
      cases target with
      | none =>
        obtain ⟨_, _, -, h⟩ := h.of_bind
        rw [← h.of_pure.1]
      | some t =>
        obtain ⟨_, _, -, h⟩ := h.of_bind
        split at h
        · exact ih h
        · rename_i hlookup
          obtain ⟨next, _, hfix, h⟩ := h.of_bind
          cases next with
          | some next =>
            exact (ih h).trans (names_countedFix (hsame ▸ Texts.mem_of_lookup hlookup) hfix)
          | none =>
            obtain ⟨_, _, -, h⟩ := h.of_bind
            rw [← h.of_pure.1]

private theorem sparing_finalErrors {ts : Texts} {errors : List FoundError}
    (hne : name ∉ ts.map Prod.fst) : Keeps (sparing (· = inWorkspace name))
      (ts.foldlM (fun errors (name, code) => do
        return errors ++ (← fileErrors l name code)) errors) := by
  induction ts generalizing errors with
  | nil => exact keeps_pure _
  | cons t ts ih =>
    rw [List.map_cons, List.mem_cons, not_or] at hne
    have copied : Keeps (sparing (· = inWorkspace name)) (copyFile t.2 t.1) :=
      sparing_copyFile (Ne.symm hne.1)
    have first : Keeps (sparing (· = inWorkspace name)) (fileErrors l t.1 t.2) := by
      unfold fileErrors
      infer_instance
    rw [List.foldlM_cons]
    exact keeps_bind (k := fun _ => ih hne.2)

theorem holds_finalErrors {ts : Texts} {errors errors' : List FoundError}
    (hnodup : (ts.map Prod.fst).Nodup)
    (h : Ends (ts.foldlM (fun errors (name, code) => do
      return errors ++ (← fileErrors l name code)) errors) w errors' v) :
    ∀ t ∈ ts, w.Holds v (inWorkspace t.1) t.2 := by
  induction ts generalizing errors w with
  | nil => simp
  | cons t ts ih =>
    obtain ⟨hnew, hnodup⟩ := List.nodup_cons.mp hnodup
    rw [List.foldlM_cons] at h
    obtain ⟨_, _, hf, h⟩ := h.of_bind
    have hgrown := hf.keeps grown
    obtain ⟨_, _, he, hf⟩ := hf.of_bind
    obtain ⟨-, rfl⟩ := hf.of_pure
    obtain ⟨_, _, hc, he⟩ := he.of_bind
    refine List.forall_mem_cons.mpr ⟨?_, fun t' ht' => (ih hnodup h t' ht').of_grown hgrown⟩
    have hheld := (holds_copyFile hc).idle (he.keeps copyless)
    exact hheld.past (h.keeps _ (k := sparing_finalErrors hnew)) rfl

theorem inStep_countedPhases {s : Statistics} (hout : output ≠ "")
    (hproper : ∀ path ∈ files.tail, Disk.IsProper (Path.baseName path))
    (hnodup : (files.map Path.baseName).Nodup)
    (h : Ends (countedPhases l scope input output files) w s v) (hp : path ∈ files) :
    ∃ text, w.InStep v output (Path.baseName path) text := by
  obtain ⟨_, _, hu, h⟩ := h.past grown
  obtain ⟨initial, _, hu, h⟩ := h.pass hu
  iterate 2 obtain ⟨_, _, hu, h⟩ := h.pass hu
  obtain ⟨m, _, hu, h⟩ := h.pass hu
  obtain ⟨ts, _, hread, h⟩ := h.of_bind
  obtain ⟨c, _, hloop, h⟩ := h.of_bind
  obtain ⟨_, _, hsaid, h⟩ := h.past grown
  replace hu := grown.trans hu (grown.trans (hread.keeps grown)
    (grown.trans (hloop.keeps grown) hsaid))
  have hnames : c.texts.map Prod.fst = files.map Path.baseName :=
    (names_countedLoop hloop).trans (names_readTexts hnodup hread)
  obtain ⟨final, _, hfinal, h⟩ := h.of_bind
  obtain ⟨_, _, hsave, h⟩ := h.of_bind
  have hheld := holds_finalErrors (hnames ▸ hnodup) hfinal
  obtain ⟨text, hstep⟩ := inStep_saveFiles_of_names hout hproper hnodup hnames hheld hsave hp
  exact ⟨text, (hstep.past (h.keeps _)).of_grown hu⟩

theorem saved_publish {s : Statistics} {summary : Statistics.Summary} {text : String}
    (hout : output ≠ "") (ho : '/' ∉ name.toList) (hw : u.InStep w output name text)
    (h : Ends (s.publish (some (Path.join output "fix_report.txt"))) w summary v) :
    u.Holds v (inWorkspace name) text ∧ v.disk.file? (Path.join output name) =
      some ⟨if name = "fix_report.txt" then s.report else text, true⟩ := by
  have hproper : Disk.IsProper "fix_report.txt" := ⟨by decide, by decide, by decide, by decide⟩
  have hpath : (some (Path.join output "fix_report.txt")).filter (· ≠ "") =
      some (Path.join output "fix_report.txt") := by
    simp [Path.join_eq hproper.unslashed, String.append_eq_empty_iff]
  obtain ⟨_, _, hsaid, h⟩ := h.past (undisturbed output name)
  replace hw := hw.past hsaid
  rw [hpath] at h
  obtain ⟨_, _, hwrite, h⟩ := h.of_bind
  by_cases hn : name = "fix_report.txt"
  · have hheld := (hw.held.idle (hwrite.keeps copyless)).idle (h.keeps copyless)
    obtain ⟨d, hd, rfl⟩ := hwrite.of_writeFile
    rw [if_pos hn, (h.keeps untouched).1, hn]
    exact ⟨hn ▸ hheld, Disk.file_write hd⟩
  · have hkept := hwrite.keeps (undisturbed output name)
      (k := undisturbed_writeFile hout ho hproper hn)
    obtain ⟨hheld, hsaved⟩ := (hw.past hkept).past (h.keeps (undisturbed output name))
    exact ⟨hheld, by rw [if_neg hn, hsaved]⟩

theorem countedFiles_spec {d : Disk} (lang : Option String) (hd : d.Named)
    (hinput : Glob.hasWildcard input = false) :
    (∀ path ∈ (countedFiles d input lang).1.tail, Disk.IsProper (Path.baseName path)) ∧
      ((countedFiles d input lang).1.map Path.baseName).Nodup := by
  have hselected (l : Language) := Glob.selected hd l hinput
  unfold countedFiles
  split
  · simp
  · dsimp only
    split
    · rename_i l _
      exact ⟨fun path hp => (hselected l).1 path (List.mem_of_mem_tail hp), (hselected l).2⟩
    · exact ⟨fun path hp => (hselected .python).1 path (List.mem_of_mem_tail hp),
        (hselected .python).2⟩

/-- Files that are repaired with figures are all in step at the end, save one that has the name of
the report: that name holds the report. -/
theorem saved_counted {output lang : Option String} {summary : Statistics.Summary}
    (hinput : Glob.hasWildcard input = false) (hnamed : w.disk.Named)
    (h : Ends (counted input output lang scope) w (some summary) v) :
    (countedFiles w.disk input lang).1 ≠ [] ∧ ∃ s : Statistics,
      ∀ path ∈ (countedFiles w.disk input lang).1, ∃ text,
        w.Holds v (inWorkspace (Path.baseName path)) text ∧
        v.disk.file? (Path.join (outputDir (countedFiles w.disk input lang).2.1 output)
          (Path.baseName path)) =
          some ⟨if Path.baseName path = "fix_report.txt" then s.report else text, true⟩ := by
  obtain ⟨d, _, hd, h⟩ := h.of_bind
  obtain ⟨rfl, rfl⟩ := hd.of_disk
  have hspec := countedFiles_spec lang hnamed hinput
  generalize countedFiles w.disk input lang = found at *
  obtain ⟨files, dir, found⟩ := found
  obtain ⟨hproper, hnodup⟩ := hspec
  dsimp only at h hproper hnodup ⊢
  split at h
  · obtain ⟨_, _, -, h⟩ := h.of_bind
    cases h.of_pure.1
  rename_i hfiles
  refine ⟨by simpa using hfiles, ?_⟩
  obtain ⟨_, _, hm, h⟩ := h.of_bind
  have hu := hm.keeps grown
  obtain ⟨d, hmake, rfl⟩ := hm.of_makeDirs
  have hout := Disk.makeDirs_path hmake
  obtain ⟨_, _, hu, h⟩ := h.pass hu
  cases found with
  | none => cases h
  | some lang =>
    iterate 4 obtain ⟨_, _, hu, h⟩ := h.pass hu
    obtain ⟨_, _, hu, h⟩ := h.pass hu
    obtain ⟨l, _, hu, h⟩ := h.pass hu
    obtain ⟨s, _, hphases, h⟩ := h.of_bind
    obtain ⟨_, _, hpublish, h⟩ := h.of_bind
    obtain ⟨-, rfl⟩ := h.of_pure
    refine ⟨s, fun path hp => ?_⟩
    obtain ⟨text, hstep⟩ := inStep_countedPhases hout hproper hnodup hphases hp
    exact ⟨text, saved_publish hout (Path.baseName_unslashed path) (hstep.of_grown hu) hpublish⟩

end Counted

inductive Batch where
  | separate (deps : Bool)
  | project (limit : Option Int)
  | counted (scope : Scope)

namespace Batch

def run (b : Batch) (input : String) (output lang : Option String) : Run Bool :=
  match b with
  | .separate deps => Workflow.separate input output lang deps
  | .project limit => Workflow.project input output lang limit
  | .counted scope => return (← Workflow.counted input output lang scope).isSome

def sources (b : Batch) (d : Disk) (input : String) (lang : Option String) : List String :=
  let ofLanguage (l : Language) := Glob.withSuffix d input l.profile.suffix
  match b with
  | .separate _ => (languageOf d input lang).elim [] ofLanguage
  | .project _ => (projectLanguage d input lang).elim [] ofLanguage
  | .counted _ => (countedFiles d input lang).1

def directory (b : Batch) (d : Disk) (input : String) (output lang : Option String) : String :=
  match b with
  | .counted _ => outputDir (countedFiles d input lang).2.1 output
  | _ => outputDir input output

def report? : Batch → Option String
  | .counted _ => some "fix_report.txt"
  | _ => none

theorem sources_of_refused {b : Batch} {input : String} {output lang : Option String}
    (h : Ends (b.run input output lang) w false v) : b.sources w.disk input lang = [] := by
  cases b with
  | separate deps =>
    obtain ⟨d, _, hd, h⟩ := Ends.of_bind h
    obtain ⟨rfl, rfl⟩ := hd.of_disk
    simp only [sources, languageOf]
    split at h
    · rename_i hname
      rw [hname]
      rfl
    · rename_i name hname
      rw [hname, Option.bind_some]
      split at h
      · rename_i hl
        rw [hl]
        rfl
      · rename_i l hl
        rw [hl, Option.elim_some]
        dsimp only at h
        split at h
        · rename_i hfiles
          exact List.isEmpty_iff.mp hfiles
        · obtain ⟨_, _, -, h⟩ := h.of_bind
          cases h.of_pure.1
  | project limit =>
    obtain ⟨d, _, hd, h⟩ := Ends.of_bind h
    obtain ⟨rfl, rfl⟩ := hd.of_disk
    simp only [sources, projectLanguage]
    dsimp only at h
    split at h
    · rename_i hl
      rw [hl]
      rfl
    · rename_i l hl
      rw [hl, Option.elim_some]
      split at h
      · rename_i hfiles
        exact List.isEmpty_iff.mp hfiles
      · obtain ⟨_, _, -, h⟩ := h.of_bind
        cases h.of_pure.1
  | counted scope =>
    obtain ⟨summary, _, hc, h⟩ := Ends.of_bind h
    obtain rfl : summary = none := by simpa using h.of_pure.1
    obtain ⟨d, _, hd, hc⟩ := hc.of_bind
    obtain ⟨rfl, rfl⟩ := hd.of_disk
    dsimp only at hc
    split at hc
    · rename_i hfiles
      exact List.isEmpty_iff.mp hfiles
    · iterate 2 obtain ⟨_, _, -, hc⟩ := hc.of_bind
      split at hc
      · cases hc
      · iterate 8 obtain ⟨_, _, -, hc⟩ := hc.of_bind
        cases hc.of_pure.1

/-- What is saved is what the container holds: for each source file of a completed run, the text of
the last copy under its name is the one saved under that name. The only exception is a source file
with the name of the report, which the report overwrites. -/
theorem saves_what_is_held (b : Batch) {input : String} {output lang : Option String} {ok : Bool}
    (hinput : Glob.hasWildcard input = false) (hnamed : w.disk.Named)
    (h : Ends (b.run input output lang) w ok v) :
    (ok = true ↔ b.sources w.disk input lang ≠ []) ∧ ∃ s : Statistics,
      ∀ path ∈ b.sources w.disk input lang, ∃ text,
        w.Holds v (inWorkspace (Path.baseName path)) text ∧
        v.disk.file? (Path.join (b.directory w.disk input output lang) (Path.baseName path)) =
          some ⟨if b.report? = some (Path.baseName path) then s.report else text, true⟩ := by
  cases ok with
  | false =>
    rw [sources_of_refused h]
    exact ⟨by simp, {}, by simp⟩
  | true =>
    rw [eq_self_iff_true, true_iff]
    cases b with
    | separate deps =>
      obtain ⟨l, hl, hne, hstep⟩ := inStep_separate hinput hnamed h
      simp only [sources, hl, Option.elim_some]
      refine ⟨hne, {}, fun path hp => ?_⟩
      obtain ⟨text, hheld, hsaved⟩ := hstep path hp
      exact ⟨text, hheld, hsaved⟩
    | project limit =>
      obtain ⟨l, hl, hne, hstep⟩ := inStep_project hinput hnamed h
      simp only [sources, hl, Option.elim_some]
      refine ⟨hne, {}, fun path hp => ?_⟩
      obtain ⟨text, hheld, hsaved⟩ := hstep path hp
      exact ⟨text, hheld, hsaved⟩
    | counted scope =>
      obtain ⟨summary, _, hc, h⟩ := Ends.of_bind h
      obtain ⟨hs, rfl⟩ := h.of_pure
      obtain ⟨summary, rfl⟩ := Option.isSome_iff_exists.mp hs
      obtain ⟨hne, s, hsaved⟩ := saved_counted hinput hnamed hc
      refine ⟨hne, s, fun path hp => ?_⟩
      obtain ⟨text, hheld, hfile⟩ := hsaved path hp
      refine ⟨text, hheld, hfile.trans ?_⟩
      simp [report?, eq_comm]

def reporting : World where
  disk := { files := [(["fix_report.txt"], ⟨"x = 1\n", true⟩)] }

/-- The report overwrites the result of a program in a file with its name. -/
theorem report_over_result : Glob.hasWildcard "fix_report.txt" = false ∧ reporting.disk.Named ∧
    ∃ (v : World) (s : Statistics),
      Ends ((counted .whole).run "fix_report.txt" none (some "python")) reporting true v ∧
      reporting.Holds v (inWorkspace "fix_report.txt") "x = 1\n" ∧
      v.disk.file? "_fixed/fix_report.txt" = some ⟨s.report, true⟩ ∧ s.report ≠ "x = 1\n" := by
  have hplain : Glob.hasWildcard "fix_report.txt" = false := by decide
  have hnamed : reporting.disk.Named := by decide
  have hrun : ((counted .whole).run "fix_report.txt" none (some "python")).result reporting =
      .ok true := by
    decide +kernel
  have hheld : held (((counted .whole).run "fix_report.txt" none (some "python")).after
      reporting).commands (inWorkspace "fix_report.txt") = some "x = 1\n" := by
    decide +kernel
  have hfile : (((counted .whole).run "fix_report.txt" none (some "python")).after
      reporting).disk.file? "_fixed/fix_report.txt" ≠ some ⟨"x = 1\n", true⟩ := by
    decide +kernel
  have h := ends_of_result hrun
  generalize ((counted .whole).run "fix_report.txt" none (some "python")).after reporting = v at *
  obtain ⟨-, s, hsaved⟩ := saves_what_is_held (.counted .whole) hplain hnamed h
  obtain ⟨text, -, hsaved⟩ := hsaved "fix_report.txt" (by decide +kernel)
  have hpath : Path.join ((counted .whole).directory reporting.disk "fix_report.txt" none
      (some "python")) (Path.baseName "fix_report.txt") = "_fixed/fix_report.txt" := by
    decide +kernel
  have hreport : (counted .whole).report? = some (Path.baseName "fix_report.txt") := by
    decide +kernel
  rw [hpath, if_pos hreport] at hsaved
  refine ⟨hplain, hnamed, v, s, h, ⟨_, (List.nil_append _).symm, hheld⟩, hsaved, fun hs => ?_⟩
  exact hfile (hs ▸ hsaved)

end Batch

end Mender.Workflow
