import Mender.Proofs.Run
import Mender.Sandbox.Check

/-! What is done in the container is commands: a relation that holds over each of them holds over
all of it. Only copies need more than commands that copy nothing, and only the removal at the end of
a run needs more than commands that remove nothing: elsewhere another command comes behind it. -/
namespace Mender.Sandbox
open Run
variable {α : Type} {F : World.Frame}

def removing : Command where
  words := ["docker", "rm", "-f", container]
  timeout := none

theorem remove_done {w : World} (h : (removing.answer w.commandRules).1.isDone = true) :
    remove.result w = .ok () ∧ remove.after w = w.issued removing := by
  obtain ⟨hr, ha⟩ := run_command removing w
  obtain ⟨a, hok⟩ : ∃ a, (command removing).result w = .ok a := by
    rw [hr]
    cases hd : (removing.answer w.commandRules).1 with
    | done status stdout stderr => exact ⟨_, rfl⟩
    | timeout => simp [hd, Response.isDone] at h
    | failure reason => simp [hd, Response.isDone] at h
  have hb := bind_ok (f := fun _ => (pure () : Run Unit)) hok
  exact ⟨hb.1, hb.2.trans ha⟩

theorem remove_refused {w : World} (h : (removing.answer w.commandRules).1.isDone = false) :
    (∃ e, remove.result w = .error e) ∧ remove.after w = w.issued removing := by
  obtain ⟨hr, ha⟩ := run_command removing w
  obtain ⟨e, herr⟩ : ∃ e, (command removing).result w = .error e := by
    rw [hr]
    cases hd : (removing.answer w.commandRules).1 with
    | done status stdout stderr => simp [hd, Response.isDone] at h
    | timeout => exact ⟨_, rfl⟩
    | failure reason => exact ⟨_, rfl⟩
  have hb := bind_error (f := fun _ => (pure () : Run Unit)) herr
  exact ⟨⟨e, hb.1⟩, hb.2.trans ha⟩

instance keeps_remove [h : F.Executes] : Keeps F remove :=
  keeps_discard (h := ⟨fun w => (run_command _ w).2 ▸ h.exec w _ _⟩)

section Commands
variable [h : F.Operates]

theorem keeps_docker {words : List String} {timeout : Option Int}
    (hr : (Command.mk ("docker" :: words) timeout none).removes = false) :
    Keeps F (docker words timeout) :=
  ⟨fun w => (run_command _ w).2 ▸ h.exec w rfl hr⟩

instance keeps_isAvailable : Keeps F isAvailable := by
  have asked : Keeps F (docker ["info"] (some 10)) := keeps_docker rfl
  refine keeps_bind (k := fun r => ?_)
  split <;> infer_instance

instance keeps_isRunning : Keeps F isRunning := by
  refine keeps_bind (h := keeps_caught _ (h := keeps_docker rfl)) (k := fun r => ?_)
  split <;> infer_instance

instance keeps_installLint (p : Profile) : Keeps F (installLint p) := by
  unfold installLint
  split
  · infer_instance
  · refine keeps_bind (h := keeps_caught _ (h := keeps_docker rfl)) (k := fun r => ?_)
    split <;> infer_instance

private theorem keeps_remove_bind {words : List String} {f : Int × String × String → Run α}
    (hr : (Command.mk ("docker" :: words) none none).removes = false) (k : ∀ a, Keeps F (f a)) :
    Keeps F (remove >>= fun _ => docker words >>= f) where
  keeps w := by
    cases hd : (removing.answer w.commandRules).1.isDone with
    | false =>
      obtain ⟨⟨e, he⟩, ha⟩ := remove_refused hd
      rw [(bind_error he).2, ha]
      exact h.refused w rfl hd
    | true =>
      obtain ⟨hok, ha⟩ := remove_done hd
      rw [(bind_ok hok).2, ha]
      have hrun := (run_command (.mk ("docker" :: words) none none) (w.issued removing)).2
      have hboth : F.rel w ((docker words).after (w.issued removing)) :=
        hrun ▸ h.behind w rfl rfl hr
      cases hx : (docker words).result (w.issued removing) with
      | error e =>
        rw [(bind_error hx).2]
        exact hboth
      | ok a =>
        rw [(bind_ok hx).2]
        exact F.trans hboth ((k a).keeps _)

instance keeps_setUp (lang : Option String) : Keeps F (setUp lang) := by
  have made : Keeps F (docker ["exec", container, "mkdir", "-p", workspace]) := keeps_docker rfl
  unfold setUp
  refine keeps_bind (k := fun available => ?_)
  cases available with
  | false => exact keeps_throw_bind ..
  | true =>
    refine keeps_bind (k := fun l => keeps_remove_bind rfl fun a => ?_)
    infer_instance

instance keeps_restartIfStopped (lang : Option String) :
    Keeps F (restartIfStopped lang) := by
  unfold restartIfStopped
  infer_instance

instance keeps_execOnce (cmd : String) (timeout : Option Int) :
    Keeps F (execOnce cmd timeout) := by
  refine keeps_bind (h := keeps_caught _ (h := keeps_docker rfl)) (k := fun r => ?_)
  split <;> infer_instance

instance keeps_exec (cmd : String) (timeout : Option Int) (lang : Option String)
    (retry : Bool) : Keeps F (exec cmd timeout lang retry) := by
  have second : Keeps F (execOnce cmd timeout >>= fun r => match r with
      | .ok o => pure o
      | .error e => pure ⟨false, "", e.message⟩) := by
    refine keeps_bind (k := fun r => ?_)
    split <;> infer_instance
  refine keeps_bind (k := fun r => ?_)
  split
  · infer_instance
  · infer_instance

instance keeps_compileProgram (l : Language) : Keeps F (compileProgram l) := by
  unfold compileProgram
  split <;> infer_instance

instance keeps_runProgram (l : Language) : Keeps F (runProgram l) := keeps_exec ..

instance keeps_checkFile (name : String) (l : Language) : Keeps F (checkFile name l) := by
  unfold checkFile
  infer_instance

instance keeps_checkLayered (layer name : String) (mend : Bool) :
    Keeps F (checkLayered layer name mend) := by
  unfold checkLayered
  infer_instance

instance keeps_failures (commands : List String) : Keeps F (failures commands) := by
  unfold failures
  infer_instance

instance keeps_compileProject (files : List String) (l : Language) :
    Keeps F (compileProject files l) := by
  unfold compileProject
  split <;> infer_instance

instance keeps_runProject (l : Language) (main : Option String) :
    Keeps F (runProject l main) := by
  unfold runProject
  infer_instance

end Commands

section Copies
variable [h : F.Handles]

instance keeps_copy (text extension path : String) : Keeps F (copy text extension path) :=
  ⟨fun w => (run_command _ w).2 ▸ h.copy w rfl⟩

instance keeps_copyProgram (code : String) (l : Language) :
    Keeps F (copyProgram code l) := by
  unfold copyProgram
  infer_instance

instance keeps_copyFile (code name : String) : Keeps F (copyFile code name) :=
  keeps_discard

instance keeps_copyLayered (code layer name : String) :
    Keeps F (copyLayered code layer name) := keeps_discard

instance keeps_mendByLint (code : String) (l : Language) (fix : String) :
    Keeps F (mendByLint code l fix) := by
  unfold mendByLint
  infer_instance

instance keeps_checkProgram (code : String) (l : Language) :
    Keeps F (checkProgram code l) := by
  unfold checkProgram
  split <;> infer_instance

end Copies

end Mender.Sandbox
