import Mender.Proofs.Protection
import Mender.Proofs.Transcript

/-! Whether the container is removed at the end of a run. The removal is the last step of each
workflow, and nothing else leads to it: it is carried out just if all steps before it give a value,
so that a fault on the way leaves the container behind. -/
namespace Mender
open Run World

namespace Sandbox
variable {s t : List (Command × Response)}

def Removed (t : List (Command × Response)) : Prop :=
  ∃ r : Response, r.isDone = true ∧ t.getLast? = some (removing, r)

theorem not_removed_nil : ¬ Removed [] := by
  rintro ⟨r, -, hr⟩
  cases hr

theorem removed_concat {c : Command} {r : Response} :
    Removed (s ++ [(c, r)]) ↔ c = removing ∧ r.isDone = true := by
  simp only [Removed, List.getLast?_append, List.getLast?_singleton, Option.some_or,
    Option.some.injEq, Prod.mk.injEq]
  constructor
  · rintro ⟨_, hd, rfl, rfl⟩
    exact ⟨rfl, hd⟩
  · rintro ⟨rfl, hd⟩
    exact ⟨r, hd, rfl, rfl⟩

theorem removed_append (h : ¬ Removed s) : Removed (s ++ t) ↔ Removed t := by
  obtain rfl | ⟨t, e, rfl⟩ := t.eq_nil_or_concat
  · simpa [not_removed_nil] using h
  · rw [List.concat_eq_append, ← List.append_assoc, removed_concat, removed_concat]

private theorem not_removed_of {c : Command} {r : Response} (h : c.removes = false) :
    ¬ Removed (s ++ [(c, r)]) := by
  rw [removed_concat]
  rintro ⟨rfl, -⟩
  cases h

end Sandbox

open Sandbox

namespace World

/-- Commands were given and answered that do not end with the removal of the container. -/
def working : Frame where
  rel w v := ∃ t, w.Talk t v ∧ ¬ Removed t
  trans := fun ⟨s, hs, ns⟩ ⟨t, ht, nt⟩ => ⟨s ++ t, hs.trans ht, by rwa [removed_append ns]⟩
  quiet h := ⟨[], .of_eq h.commands h.commandRules, not_removed_nil⟩

instance : working.Handles where
  exec w _ _ hr := ⟨_, talk_issued w _, not_removed_of hr (s := [])⟩
  refused w _ _ hd := by
    refine ⟨_, talk_issued w _, ?_⟩
    rw [← List.nil_append [_], removed_concat, hd]
    simp
  behind w _ _ _ _ hr := ⟨_, (talk_issued w _).trans (talk_issued _ _), not_removed_of hr⟩
  copy w _ hr := ⟨_, talk_issued w _, not_removed_of hr (s := [])⟩

instance : working.Stores := ⟨fun _ _ _ => ⟨[], .of_eq rfl rfl, not_removed_nil⟩⟩

instance : working.Asks := ⟨fun _ _ _ _ _ => ⟨[], .of_eq rfl rfl, not_removed_nil⟩⟩

end World

namespace Run
variable {α β : Type} {x : Run α} {f : α → Run β} {w : World}
  {P : List (Command × Response) → Prop}

theorem silent_bind [hf : ∀ a, Keeps silent (f a)] :
    (x.after w).Talk [] ((x >>= f).after w) := by
  cases hr : x.result w with
  | error e => exact (bind_error hr).2 ▸ .of_eq rfl rfl
  | ok a => exact (bind_ok hr).2 ▸ (hf a).keeps _

/-- A run whose commands are as given ends with the removal of the container just if it gives a
value. -/
def ClearsWhen (P : List (Command × Response) → Prop) (x : Run α) : Prop :=
  ∀ w, ∃ t, w.Talk t (x.after w) ∧ (P t → (Removed t ↔ x.Completes w))

/-- A run ends with the removal of the container just if it gives a value. -/
abbrev Clears (x : Run α) : Prop := ClearsWhen (fun _ => True) x

/-- The same, unless a run gives no commands at all. -/
abbrev ClearsIfUsed (x : Run α) : Prop := ClearsWhen (· ≠ []) x

theorem clears_throw (e : Fault) : Clears (throw e : Run α) := by
  refine fun w => ⟨[], .of_eq rfl rfl, fun _ => iff_of_false not_removed_nil ?_⟩
  rintro ⟨a, ha⟩
  cases ha

theorem clears_remove : Clears remove := by
  intro w
  refine ⟨[(removing, (removing.answer w.commandRules).1)], ?_, fun _ => ?_⟩
  · cases hd : (removing.answer w.commandRules).1.isDone with
    | false => exact (remove_refused hd).2 ▸ talk_issued w removing
    | true => exact (remove_done hd).2 ▸ talk_issued w removing
  · rw [← List.nil_append [_], removed_concat]
    cases hd : (removing.answer w.commandRules).1.isDone with
    | false =>
      obtain ⟨⟨e, he⟩, -⟩ := remove_refused hd
      simp [Completes, he]
    | true => simp [Completes, (remove_done hd).1]

/-- Steps before the removal neither remove the container nor keep it from being removed, unless
they fail. -/
theorem Clears.after [hx : Keeps working x] (h : ∀ a, Clears (f a)) : Clears (x >>= f) := by
  intro w
  obtain ⟨s, hs, ns⟩ := hx.keeps w
  cases hr : x.result w with
  | error e =>
    refine ⟨s, (bind_error hr).2 ▸ hs, fun _ => ?_⟩
    exact iff_of_false ns (not_completes_bind hr)
  | ok a =>
    obtain ⟨t, ht, hiff⟩ := h a (x.after w)
    refine ⟨s ++ t, (bind_ok hr).2 ▸ hs.trans ht, fun _ => ?_⟩
    rw [removed_append ns, hiff trivial, completes_bind hr]

theorem ClearsWhen.followed (h : ClearsWhen P x) [hf : ∀ a, Keeps silent (f a)]
    (total : ∀ a w, (f a).Completes w) : ClearsWhen P (x >>= f) := by
  intro w
  obtain ⟨t, ht, hiff⟩ := h w
  have hsame := ht.trans (silent_bind (f := f))
  rw [List.append_nil] at hsame
  refine ⟨t, hsame, fun hp => (hiff hp).trans ⟨?_, Completes.of_bind⟩⟩
  rintro ⟨a, ha⟩
  exact (completes_bind ha).mpr (total a _)

theorem ClearsWhen.discard (h : ClearsWhen P x) : ClearsWhen P (discard x) :=
  h.followed (f := fun _ => pure PUnit.unit) fun _ _ => ⟨_, rfl⟩

theorem ClearsWhen.ifUsed (h : Clears x) : ClearsIfUsed x := by
  intro w
  obtain ⟨t, ht, hiff⟩ := h w
  exact ⟨t, ht, fun _ => hiff trivial⟩

theorem ClearsIfUsed.of_silent [h : Keeps silent x] : ClearsIfUsed x :=
  fun w => ⟨[], h.keeps w, fun hn => absurd rfl hn⟩

theorem ClearsIfUsed.after [hx : Keeps silent x] (h : ∀ a, ClearsIfUsed (f a)) :
    ClearsIfUsed (x >>= f) := by
  intro w
  cases hr : x.result w with
  | error e => exact ⟨[], (bind_error hr).2 ▸ hx.keeps w, fun hn => absurd rfl hn⟩
  | ok a =>
    obtain ⟨t, ht, hiff⟩ := h a (x.after w)
    refine ⟨t, (bind_ok hr).2 ▸ (hx.keeps w).trans ht, ?_⟩
    rwa [completes_bind hr]

end Run

namespace Workflow
variable {l : Language} {input output : String} {out lang : Option String} {files : List String}
variable {scope : Scope} {deps : Bool}

private theorem clears_repairProgram : Clears (repairProgram l input output) := by
  unfold repairProgram
  iterate 5 refine Clears.after fun _ => ?_
  refine Clears.after fun m => ?_
  iterate 3 refine Clears.after fun _ => ?_
  refine Clears.after fun p => ?_
  iterate 4 refine Clears.after fun _ => ?_
  exact clears_remove.followed fun _ _ => ⟨_, rfl⟩

theorem clearsIfUsed_single {lang output : Option String} :
    ClearsIfUsed (single input output lang) := by
  unfold single
  dsimp only
  split
  · exact .of_silent
  · exact clears_repairProgram.ifUsed

private theorem clears_repairInOrder {g : Graph} : Clears
    (repairInOrder l output deps files g) := by
  unfold repairInOrder
  iterate 2 refine Clears.after fun _ => ?_
  refine Clears.after fun m => Clears.after fun done => Clears.after fun _ => ?_
  dsimp only
  split
  · refine Clears.after fun _ => ?_
    split
    · exact clears_remove
    · iterate 2 refine Clears.after fun _ => ?_
      exact clears_remove
  · exact clears_remove

private theorem clearsIfUsed_repairDirectory : ClearsIfUsed
    (repairDirectory l input out deps files) := by
  unfold repairDirectory
  iterate 5 refine ClearsIfUsed.after fun _ => ?_
  dsimp only
  split
  · exact ClearsIfUsed.after fun p => clears_repairInOrder.ifUsed
  · exact clears_repairInOrder.ifUsed

theorem clearsIfUsed_separate : ClearsIfUsed (separate input out lang deps) := by
  refine ClearsIfUsed.after fun d => ?_
  split
  · exact .of_silent
  · split
    · exact .of_silent
    · dsimp only
      split
      · exact .of_silent
      · exact clearsIfUsed_repairDirectory.followed fun _ _ => ⟨_, rfl⟩

private theorem clearsIfUsed_repairProject {limit : Option Int}
    : ClearsIfUsed (repairProject l input out limit files) := by
  unfold repairProject
  iterate 8 refine ClearsIfUsed.after fun _ => ?_
  refine ClearsWhen.ifUsed (Clears.after fun _ => ?_)
  refine Clears.after fun m => Clears.after fun texts => ?_
  cases limit with
  | none => exact clears_throw _
  | some limit =>
    refine Clears.after fun p => ?_
    iterate 7 refine Clears.after fun _ => ?_
    exact clears_remove

theorem clearsIfUsed_project {limit : Option Int} :
    ClearsIfUsed (project input out lang limit) := by
  refine ClearsIfUsed.after fun d => ?_
  dsimp only
  split
  · exact .of_silent
  · split
    · exact .of_silent
    · exact clearsIfUsed_repairProject.followed fun _ _ => ⟨_, rfl⟩

theorem clears_countedPhases : Clears (countedPhases l scope input output files) := by
  unfold countedPhases
  refine Clears.after fun _ => Clears.after fun initial => ?_
  iterate 2 refine Clears.after fun _ => ?_
  refine Clears.after fun m => Clears.after fun texts => Clears.after fun c => ?_
  refine Clears.after fun _ => Clears.after fun final => Clears.after fun _ => ?_
  exact clears_remove.followed fun _ _ => ⟨_, rfl⟩

/-- Repairs files and collects figures, which are still to be reported, with the directory for the
results. -/
def counting (input : String) (output lang : Option String) (scope : Scope) :
    Run (Option (Statistics × String)) := do
  let (files, dir, lang) := countedFiles (← Run.disk) input lang
  if files.isEmpty then
    Run.say "[ERROR] 未找到源文件"
    return none
  let output := outputDir dir output
  Run.makeDirs output
  Run.say bar
  match lang with
  | none => throw .noOperation
  | some lang =>
    Run.say s!"[AUTO FIX WITH STATS] 语言: {Prompt.upper lang}"
    Run.say s!"[INPUT] {input} ({files.length} 个文件)"
    Run.say s!"[OUTPUT] {output}"
    Run.say bar
    Sandbox.setUp lang
    let l ← Run.ofExcept (Language.ofName lang)
    let stats ← countedPhases l scope dir output files
    return some (stats, output)

def reportFigures : Option (Statistics × String) → Run (Option Statistics.Summary)
  | none => return none
  | some (stats, output) =>
    return some (← stats.publish (some (Path.join output "fix_report.txt")))

theorem counted_eq :
    counted input out lang scope = counting input out lang scope >>= reportFigures := by
  unfold counted counting
  rw [bind_assoc]
  refine bind_congr fun d => ?_
  obtain ⟨files, dir, lang⟩ := countedFiles d input lang
  dsimp only
  split
  · rfl
  · cases lang with
    | none =>
      simp only [bind_assoc]
      rfl
    | some lang => simp only [bind_assoc, pure_bind, reportFigures]

private theorem clearsIfUsed_counting : ClearsIfUsed (counting input out lang scope) := by
  refine ClearsIfUsed.after fun d => ?_
  obtain ⟨files, dir, lang⟩ := countedFiles d input lang
  dsimp only
  split
  · exact .of_silent
  · iterate 2 refine ClearsIfUsed.after fun _ => ?_
    cases lang with
    | none => exact .of_silent
    | some lang =>
      iterate 4 refine ClearsIfUsed.after fun _ => ?_
      refine ClearsWhen.ifUsed (Clears.after fun _ => Clears.after fun l => ?_)
      exact clears_countedPhases.followed fun _ _ => ⟨_, rfl⟩

instance keeps_reportFigures {F : Frame} [F.Stores] (found : Option (Statistics × String)) :
    Keeps F (reportFigures found) := by
  cases found with
  | none => exact keeps_pure _
  | some found =>
    unfold reportFigures
    infer_instance

private theorem clears_repairLayers {ls : Layers} : Clears (repairLayers ls input output lang) := by
  unfold repairLayers
  iterate 4 refine Clears.after fun _ => ?_
  refine Clears.after fun l => Clears.after fun _ => Clears.after fun m => ?_
  refine Clears.after fun _ => Clears.after fun done => ?_
  iterate 3 refine Clears.after fun _ => ?_
  exact clears_remove.followed fun _ _ => ⟨_, rfl⟩

private theorem clearsIfUsed_layered : ClearsIfUsed (layered input out lang) := by
  iterate 3 refine ClearsIfUsed.after fun _ => ?_
  refine ClearsIfUsed.after fun d => ClearsIfUsed.after fun found => ?_
  split
  · exact .of_silent
  · iterate 4 refine ClearsIfUsed.after fun _ => ?_
    exact clears_repairLayers.ifUsed.followed fun _ _ => ⟨_, rfl⟩

namespace Task

/-- Carries out a task up to the removal of the container: without the report on figures. -/
def work : Task → Run Unit
  | .counted input output lang scope => discard (counting input output lang scope)
  | t => t.run

private theorem clearsIfUsed_work (t : Task) : ClearsIfUsed t.work := by
  cases t with
  | single input output lang => exact clearsIfUsed_single.discard
  | separate input output lang deps => exact clearsIfUsed_separate.discard
  | project input output lang limit => exact clearsIfUsed_project.discard
  | counted input output lang scope => exact clearsIfUsed_counting.discard
  | layered input output lang => exact clearsIfUsed_layered.discard

private theorem run_after_work (t : Task) (w : World) :
    (t.work.after w).Talk [] (t.run.after w) ∧ (t.run.Completes w → t.work.Completes w) := by
  cases t with
  | single input output lang => exact ⟨.of_eq rfl rfl, id⟩
  | separate input output lang deps => exact ⟨.of_eq rfl rfl, id⟩
  | project input output lang limit => exact ⟨.of_eq rfl rfl, id⟩
  | layered input output lang => exact ⟨.of_eq rfl rfl, id⟩
  | counted input output lang scope =>
    simp only [work, run, after_discard, completes_discard, counted_eq]
    exact ⟨silent_bind, Completes.of_bind⟩

/-- A run that gives any command ends with the removal of the container just if its work is
completed, as it is if the run gives a value: after a fault on the way the container is left. -/
theorem removed_iff_work_completes (t : Task) (w : World) :
    ∃ talk, w.Talk talk (t.run.after w) ∧
      (talk ≠ [] → (Removed talk ↔ t.work.Completes w)) ∧
      (t.run.Completes w → t.work.Completes w) := by
  obtain ⟨talk, ht, hiff⟩ := t.clearsIfUsed_work w
  obtain ⟨hs, hc⟩ := t.run_after_work w
  have hall := ht.trans hs
  rw [List.append_nil] at hall
  exact ⟨talk, hall, hiff, hc⟩

def unequipped : World where
  disk := { files := [(["a.py"], ⟨"x = 1\n", true⟩)] }
  missingLibraries := ["openai"]

/-- Without the library for the model a run is given up in a container that was made, and leaves
it. -/
theorem container_left_behind : ∃ talk,
    unequipped.Talk talk ((single "a.py" none none).run.after unequipped) ∧
      (∃ e ∈ talk, e.1.words.take 2 = ["docker", "run"] ∧ e.2 = .done 0 "" "") ∧
      talk.getLast?.map Prod.fst ≠ some removing ∧
      ¬ (single "a.py" none none).work.Completes unequipped := by
  obtain ⟨talk, ht, hiff, -⟩ := removed_iff_work_completes (single "a.py" none none) unequipped
  have hcommands : talk.map Prod.fst = ((single "a.py" none none).run.after unequipped).commands :=
    ht.commands.symm
  have hrun : ∃ c ∈ talk.map Prod.fst, c.words.take 2 = ["docker", "run"] := by
    rw [hcommands]
    decide +kernel
  have hlast : (talk.map Prod.fst).getLast? ≠ some removing := by
    rw [hcommands]
    decide +kernel
  obtain ⟨_, hc, hw⟩ := hrun
  obtain ⟨e, he, rfl⟩ := List.mem_map.mp hc
  rw [List.getLast?_map] at hlast
  refine ⟨talk, ht, ⟨e, he, hw, ?_⟩, hlast, fun hdone => ?_⟩
  · rw [ht.answers.of_nil e he, defaultResponse, hw]
    rfl
  · obtain ⟨r, -, hr⟩ := (hiff (List.ne_nil_of_mem he)).mpr hdone
    rw [hr] at hlast
    exact hlast rfl

end Task

end Workflow
end Mender
