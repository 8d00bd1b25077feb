import Mender.Proofs.Context
import Mender.Proofs.Extraction
import Mender.Proofs.Replacement
import Mender.Proofs.Survival
import Mender.Review.Objection

/-! Which revisions the workflows go on with: all that change a text. The check of imports takes no
part in it, and a script can lose the end of a module name. -/
namespace Mender.Workflow
open Run

inductive Task where
  | single (input : String) (output lang : Option String)
  | separate (input : String) (output lang : Option String) (deps : Bool)
  | project (input : String) (output lang : Option String) (limit : Option Int)
  | counted (input : String) (output lang : Option String) (scope : Scope)
  | layered (input : String) (output lang : Option String)

namespace Task

def run : Task → Run Unit
  | .single input output lang => discard (Workflow.single input output lang)
  | .separate input output lang deps => discard (Workflow.separate input output lang deps)
  | .project input output lang limit => discard (Workflow.project input output lang limit)
  | .counted input output lang scope => discard (Workflow.counted input output lang scope)
  | .layered input output lang => discard (Workflow.layered input output lang)

def proposed (t : Task) (w : World) : List Revision :=
  (t.run.after w).proposed.drop w.proposed.length

def kept (t : Task) (w : World) : List Revision := (t.run.after w).kept.drop w.kept.length

instance faithful (rs : Talk) (t : Task) : Faithful rs t.run := by
  cases t <;> simp only [run] <;> infer_instance

theorem revisions (t : Task) (w : World) : t.kept w = (t.proposed w).filter Revision.changes ∧
    ∀ p ∈ t.proposed w, ∃ s, Reply.text s ∈ w.replies ∧ p.AskedBy w.reader s := by
  obtain ⟨ps, hp, hk, ha⟩ := ((t.faithful w.talk).ensures w w.within_talk).2.1
  have he : t.proposed w = ps := by rw [proposed, hp, List.drop_left]
  rw [he, kept, hk, List.drop_left]
  exact ⟨rfl, ha⟩

end Task

def Whole (r : Revision) : Prop := Review.importCut? (some .python) r.before r.after = none

section Scene
variable {α β : Type} {code reply : String} {reader : Answer.Reader} {t : Talk}
variable {x : Run α} {new : String} {f : α → Run β} {r : Revision} {a : α}

  {rs rs' : List Response}

def script (rs : List Response) : List CommandRule := rs.map fun r => ⟨"", some 1, r⟩

/-- Surroundings in which the next commands are answered as listed and the replies to come are
known. -/
structure Scene (t : Talk) (rs : List Response) (w : World) : Prop where
  disk : w.disk = { files := [(["a.py"], ⟨"", true⟩)] }
  rules : ∃ used, (∀ u ∈ used, u.uses = some 0) ∧ w.commandRules = used ++ script rs
  talk : w.talk = t
  missingLibraries : w.missingLibraries = []

private theorem respond_script (line : String) (r : Response) {used : List CommandRule}
    (h : ∀ u ∈ used, u.uses = some 0) :
    respond line (used ++ script (r :: rs)) = some (r, used ++ ⟨"", some 0, r⟩ :: script rs) := by
  have hc : Text.contains line "" = true := Text.contains_iff.mpr (List.nil_infix)
  induction used with
  | nil => simp [script, respond, hc]
  | cons u used ih =>
    have hu : u.uses = some 0 := h u List.mem_cons_self
    simp [respond, hu, ih fun v hv => h v (List.mem_cons_of_mem u hv)]

/-- A run gives a value while the surroundings answer its commands. -/
def Gives (t : Talk) (rs rs' : List Response) (x : Run α) (a : α) : Prop :=
  ∀ w, Scene t rs w → x.result w = .ok a ∧ Scene t rs' (x.after w)

theorem Gives.bind {ts : List Response} {b : β}
    (h : Gives t rs rs' x a) (k : Gives t rs' ts (f a) b) :
    Gives t rs ts (x >>= f) b := Leads.bind h k

theorem Gives.get_bind {f : World → Run β} {b : β}
    (h : ∀ v, Scene t rs v → Gives t rs rs' (f v) b) :
    Gives t rs rs' (get >>= f) b := Leads.get_bind h

theorem Gives.pure (a : α) : Gives t rs rs (pure a) a := fun _ hw => ⟨rfl, hw⟩

theorem Gives.caught (h : Gives t rs rs' x a) : Gives t rs rs' (caught x) (.ok a) := Leads.caught h

theorem Gives.discard (h : Gives t rs rs' x a) : Gives t rs rs' (discard x) ⟨⟩ := h.bind (.pure _)

theorem gives_say (line : String) : Gives t rs rs (say line) ⟨⟩ :=
  fun _ hw => ⟨rfl, hw.disk, hw.rules, hw.talk, hw.missingLibraries⟩

theorem gives_command {c : Command} {status : Int} {stdout stderr : String} :
    Gives t (.done status stdout stderr :: rs) rs (command c) (status, stdout, stderr) := by
  intro w hw
  obtain ⟨used, hu, hr⟩ := hw.rules
  have ha : c.answer w.commandRules = (.done status stdout stderr,
      used ++ ⟨"", some 0, .done status stdout stderr⟩ :: script rs) := by
    rw [Command.answer, hr, respond_script _ _ hu]
    rfl
  rw [(run_command c w).1, (run_command c w).2, World.issued, ha]
  refine ⟨rfl, hw.disk, ⟨used ++ [⟨"", some 0, .done status stdout stderr⟩], ?_, ?_⟩, hw.talk,
    hw.missingLibraries⟩
  · intro u h
    obtain h | h := List.mem_append.mp h
    · exact hu u h
    · rw [List.mem_singleton.mp h]
  · simp

abbrev quiet : Response := .done 0 "" ""

abbrev running : Response := .done 0 "true\n" ""

theorem gives_isRunning : Gives t (running :: rs) rs Sandbox.isRunning true :=
  gives_command.caught.bind (.pure _)

theorem gives_exec {cmd stdout stderr : String} {timeout : Option Int} {status : Int} :
    Gives t (.done status stdout stderr :: rs) rs (Sandbox.exec cmd timeout)
      ⟨status == 0, stdout, stderr⟩ := by
  have once : Gives t (.done status stdout stderr :: rs) rs (Sandbox.execOnce cmd timeout)
      (.ok ⟨status == 0, stdout, stderr⟩) := gives_command.caught.bind (.pure _)
  exact once.bind (.pure _)

theorem gives_setUp : Gives t (quiet :: quiet :: quiet :: quiet :: quiet :: running :: rs) rs
    (Sandbox.setUp "python") ⟨⟩ := by
  have available {ts : List Response} : Gives t (quiet :: ts) ts Sandbox.isAvailable true :=
    gives_command.caught.bind (.pure _)
  have installed : Gives t (quiet :: running :: rs) (running :: rs)
      (Sandbox.installLint Language.python.profile) ⟨⟩ := gives_command.caught.bind (.pure _)
  refine available.bind (Gives.bind (a := Language.python) (fun w hw => ⟨rfl, hw⟩) ?_)
  refine gives_command.discard.bind (gives_command.bind ?_)
  exact gives_command.discard.bind (installed.bind (gives_isRunning.bind (gives_say _)))

theorem gives_copyProgram (text : String) :
    Gives t (running :: quiet :: rs) rs (Sandbox.copyProgram text .python) ⟨⟩ := by
  have restart : Gives t (running :: quiet :: rs) (quiet :: rs)
      (Sandbox.restartIfStopped (some Language.python.name)) false :=
    gives_isRunning.bind (.pure _)
  exact restart.discard.bind (gives_command.bind (.pure _))

def mending (code : String) : List Response :=
  [quiet, .done 0 code ""] ++ if code = "" then [] else [running, quiet]

private theorem gives_mendByLint (fix : String) :
    Gives t (mending code ++ rs) rs (Sandbox.mendByLint "" .python fix) code := by
  by_cases hc : code = ""
  · subst hc
    exact gives_exec.discard.bind (gives_exec.bind (.pure _))
  · have hm : mending code ++ rs = quiet :: .done 0 code "" :: running :: quiet :: rs := by
      simp [mending, hc]
    rw [hm]
    refine gives_exec.discard.bind (gives_exec.bind ?_)
    rw [if_pos (by simp [hc])]
    exact (gives_copyProgram code).bind (.pure _)

theorem gives_checkPhase : Gives t (running :: quiet :: (mending code ++ quiet :: rs)) rs
    (checkPhase .python "") code := by
  have checked : Gives t (running :: quiet :: (mending code ++ quiet :: rs)) rs
      (Sandbox.checkProgram "" .python) (⟨true, ""⟩, code) :=
    (gives_copyProgram "").bind ((gives_mendByLint _).bind (gives_exec.bind (.pure _)))
  exact (gives_say _).bind (checked.bind ((gives_say _).bind (.pure _)))

theorem gives_execute : Gives t (running :: quiet :: .done 1 "line 1" "" :: rs) rs
    (execute .python code) (some ⟨false, "line 1", ""⟩) :=
  (gives_copyProgram code).bind (gives_exec.bind (.pure _))

theorem gives_connect : Gives t rs rs (Model.connect "qwen") .openai := by
  have loaded : Gives t rs rs (Model.load "openai" "请安装 openai: pip install openai") ⟨⟩ := by
    refine Gives.get_bind fun v hv => ?_
    rw [hv.missingLibraries]
    exact .pure _
  have cleared : Gives t rs rs Model.clearProxies ⟨⟩ :=
    fun _ hw => ⟨rfl, hw.disk, hw.rules, hw.talk, hw.missingLibraries⟩
  refine cleared.bind ?_
  change Gives t rs rs (Model.setting? "QWEN_API_KEY" >>= fun key => _) _
  unfold Model.setting?
  rw [bind_assoc]
  refine Gives.get_bind fun v _ => ?_
  rw [pure_bind]
  refine loaded.bind (Gives.bind (a := ⟨⟩) (fun _ hw => ?_) (.pure _))
  exact ⟨rfl, hw.disk, hw.rules, hw.talk, hw.missingLibraries⟩

theorem gives_localFix : Gives t rs rs (localFix code "line 1" "python") (code, false) := by
  refine Gives.get_bind fun v _ => ?_
  have fixed (index : ModuleIndex) : Gives t rs rs
      (ofNoted (LocalFix.run index code "line 1" "python")) { code := code } :=
    fun _ hw => ⟨rfl, hw⟩
  exact (fixed _).bind (.pure _)

theorem context_first (code : String) :
    ∃ text, text ≠ "" ∧ Diagnostic.context .python code "line 1" = .ok (some (1, text)) := by
  have h : Diagnostic.Extracted .python "line 1" [1] := .noted (by decide +kernel) (by decide)
  obtain ⟨first, last, hc, hreach⟩ := Diagnostic.context_eq code h
  refine ⟨_, fun he => ?_, hc⟩
  have hempty := List.range'_eq_nil_iff.mp (Diagnostic.unlines_shownRows_eq_empty he)
  obtain ⟨hfirst, hlast⟩ := hreach 1 (by simp) (by decide)
  have hlen := List.length_pos_iff.mpr (Text.lines_ne_nil code)
  omega

theorem result_propose {w : World} (m : Model)
    (h : Revision.AskedBy ⟨code, new⟩ reader reply) (hw : Scene ⟨[.text reply], reader⟩ rs w) :
    (propose m .python code "line 1").result w = .ok (.revised new) := by
  obtain ⟨d, hp, ht, hn⟩ := h
  obtain ⟨text, hne, hc⟩ := context_first code
  have truthy : (Model.replacements d).truthy = true := by
    cases d <;> first | exact ht | rfl
  unfold propose
  have located : (Run.ofExcept (Diagnostic.context .python code "line 1")).result w =
      .ok (some (1, text)) := by rw [hc]; rfl
  have same : (Run.ofExcept (Diagnostic.context .python code "line 1")).after w = w := by
    rw [hc]; rfl
  rw [(bind_ok located).1, same]
  dsimp only
  have heard : Model.heard w.talk = some d := by
    simp [hw.talk, Model.heard, Reply.data?, hp, Option.filter, ht]
  have fixed (n : Option Int) (lang : String) :
      (m.fix "line 1" text n lang).result w = .ok (Model.replacements d) := by
    rw [Model.result_fix, heard]
    rfl
  rw [if_neg hne, (bind_ok (fixed _ _)).1, if_pos truthy]
  rw [(bind_ok ((result_ofNoted _ _).trans hn)).1]
  rfl

def Records (t : Talk) (rs : List Response) (x : Run α) (r : Revision) : Prop :=
  ∀ w, Scene t rs w → r ∈ (x.after w).kept

theorem Gives.records (h : Gives t rs rs' x a) (k : Records t rs' (f a) r) :
    Records t rs (x >>= f) r := by
  intro w hw
  obtain ⟨hr, hs⟩ := h w hw
  rw [(bind_ok hr).2]
  exact k _ hs

private theorem kept_after {w : World} (h : r ∈ w.kept)
    [hx : Faithful w.talk x] : r ∈ (x.after w).kept := by
  obtain ⟨ps, -, hk, -⟩ := (hx.ensures w w.within_talk).2.1
  rw [hk]
  exact List.mem_append_left _ h

theorem Records.bind (h : Records t rs x r)
    [k : ∀ ts a, Faithful ts (f a)] : Records t rs (x >>= f) r := by
  intro w hw
  have hx := h w hw
  cases hr : x.result w with
  | error e => rwa [(bind_error hr).2]
  | ok a =>
    rw [(bind_ok hr).2]
    exact kept_after hx

private theorem records_propose {m : Model} {k : Proposal → Run α} {f : String → Run α}
    (h : Revision.AskedBy ⟨code, new⟩ reader reply) (hk : k (.revised new) = keep code new >>= f)
    [∀ ts text, Faithful ts (f text)] :
    Records ⟨[.text reply], reader⟩ rs (propose m .python code "line 1" >>= k) ⟨code, new⟩ := by
  intro w hw
  rw [(bind_ok (result_propose m h hw)).2, hk]
  generalize (propose m .python code "line 1").after w = v
  have kept : (keep code new).result v = .ok new := rfl
  rw [(bind_ok kept).2]
  exact kept_after (List.mem_append_right _ (List.mem_singleton_self _))

private theorem records_runLoop (m : Model) (left : Nat) (hn : new ≠ code)
    (h : Revision.AskedBy ⟨code, new⟩ reader reply) :
    Records ⟨[.text reply], reader⟩ (running :: quiet :: .done 1 "line 1" "" :: rs)
      (runLoop m .python (left + 1) code) ⟨code, new⟩ := by
  unfold runLoop
  refine (gives_say _).records (gives_execute.records ?_)
  refine (gives_say _).records (gives_localFix.records ?_)
  exact records_propose h (if_neg hn)

private theorem gives_readFile : Gives t rs rs (readFile "a.py" true) "" := by
  intro w hw
  have hd : disk.result w = .ok w.disk := rfl
  have hr : Disk.read { files := [(["a.py"], ⟨"", true⟩)] } "a.py" true = .ok "" := rfl
  rw [readFile, (bind_ok hd).1, (bind_ok hd).2, hw.disk, hr]
  exact ⟨rfl, hw.disk, hw.rules, hw.talk, hw.missingLibraries⟩

def answers (code : String) : List Response :=
  quiet :: quiet :: quiet :: quiet :: quiet :: running :: running :: quiet :: (mending code ++
    [quiet, running, quiet, .done 1 "line 1" ""])

private theorem records_single (hn : new ≠ code) (h : Revision.AskedBy ⟨code, new⟩ reader reply) :
    Records ⟨[.text reply], reader⟩ (answers code) (single "a.py" none none) ⟨code, new⟩ := by
  have he : single "a.py" none none = repairProgram .python "a.py" "a_fixed.py" := by
    have hl : Language.ofName? (Language.ofFile "a.py").name = some .python := by decide
    have ho : fixedName "a.py" = "a_fixed.py" := by decide
    simp only [single, Option.filter_none, Option.getD_none, hl, ho]
  rw [he, repairProgram, answers]
  refine (gives_say _).records ((gives_say _).records ((gives_say _).records ?_))
  refine gives_readFile.records (gives_setUp.records (gives_connect.records ?_))
  refine gives_checkPhase.records (Gives.records (a := code) (.pure code) ?_)
  refine (gives_say _).records (Records.bind (records_runLoop _ 49 hn h) (k := fun ts p => ?_))
  obtain ⟨text, success⟩ := p
  infer_instance

end Scene

def Kept (code new : String) : Prop :=
  ∃ w, ⟨code, new⟩ ∈ (Task.single "a.py" none none).kept w

def scene (code : String) (reader : Answer.Reader) (reply : String) : World where
  disk := { files := [(["a.py"], ⟨"", true⟩)] }
  reader := reader
  commandRules := script (answers code)
  replies := [.text reply]

private theorem kept_of_asked {code new reply : String} {reader : Answer.Reader} (hn : code ≠ new)
    (h : Revision.AskedBy ⟨code, new⟩ reader reply) :
    ⟨code, new⟩ ∈ (Task.single "a.py" none none).kept (scene code reader reply) := by
  have hs : Scene ⟨[.text reply], reader⟩ (answers code) (scene code reader reply) :=
    ⟨rfl, ⟨[], by simp, rfl⟩, rfl, rfl⟩
  have hr : Records ⟨[.text reply], reader⟩ (answers code)
      (single "a.py" none none >>= fun _ => pure PUnit.unit) ⟨code, new⟩ := (records_single hn.symm h).bind
  have he : (Task.single "a.py" none none).run =
      (single "a.py" none none >>= fun _ => pure PUnit.unit) := rfl
  have hk : (scene code reader reply).kept.length = 0 := rfl
  rw [Task.kept, he, hk, List.drop_zero]
  exact hr _ hs

private theorem kept_iff (code new : String) :
    Kept code new ↔ code ≠ new ∧ ∃ reader reply, Revision.AskedBy ⟨code, new⟩ reader reply := by
  constructor
  · rintro ⟨w, h⟩
    obtain ⟨hk, ha⟩ := Task.revisions _ w
    rw [hk, List.mem_filter] at h
    obtain ⟨s, -, hs⟩ := ha _ h.1
    exact ⟨by simpa [Revision.changes] using h.2, w.reader, s, hs⟩
  · rintro ⟨hn, reader, reply, h⟩
    exact ⟨_, kept_of_asked hn h⟩

def cuttingReply : String := "\x7b\"old\": \"step1_parsing\", \"new\": \"step1\"\x7d"

private theorem cut_asked : Revision.AskedBy
    ⟨"from step1_parsing import X", "from step1 import X"⟩ {} cuttingReply := by
  have hp : Answer.payload cuttingReply = String.ofList (Json.frame
      (Json.escaped "step1_parsing".toList) (Json.escaped "step1".toList)) := by decide +kernel
  refine ⟨.replacement "step1_parsing" "step1", ?_, rfl, ?_⟩
  · rw [hp, Answer.parse_frame_eq, String.ofList_toList, String.ofList_toList]
  · have ha : ((⟨"step1_parsing", "step1"⟩ : Replacement).apply
        "from step1_parsing import X").code = "from step1 import X" := by decide +kernel
    exact (Replacement.applyDatum_single ..).trans (congrArg Except.ok ha)

/-- Every workflow goes on with exactly those revisions that change a text, so the imports of a
script are safe in a run just if the model asks for no change that cuts one. Runs on a script can go
on with any change that a reply asks for. -/
theorem imports_safe_iff_uncut_proposals (t : Task) (w : World) (code new : String) :
    t.kept w = (t.proposed w).filter Revision.changes ∧
    ((∀ r ∈ t.kept w, Whole r) ↔ ∀ p ∈ t.proposed w, p.before ≠ p.after → Whole p) ∧
    (Kept code new ↔ code ≠ new ∧ ∃ reader reply, Revision.AskedBy ⟨code, new⟩ reader reply) := by
  have hk := (t.revisions w).1
  refine ⟨hk, ?_, kept_iff code new⟩
  simp only [hk, List.mem_filter, Revision.changes, decide_eq_true_eq, and_imp]

/-- In some run on a script a module name loses its end. -/
theorem cut_import_kept : ∃ w, ¬ ∀ r ∈ (Task.single "a.py" none none).kept w, Whole r := by
  obtain ⟨w, hw⟩ := (imports_safe_iff_uncut_proposals (.single "a.py" none none)
    (scene "from step1_parsing import X" {} cuttingReply) "from step1_parsing import X"
    "from step1 import X").2.2.mpr ⟨by decide, {}, cuttingReply, cut_asked⟩
  have hc : Review.importCut? (some .python) "from step1_parsing import X"
      "from step1 import X" = some ⟨"step1_parsing", "step1"⟩ := by decide +kernel
  exact ⟨w, fun h => by simpa [Whole, hc] using h _ hw⟩

end Mender.Workflow
