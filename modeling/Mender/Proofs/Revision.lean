import Mender.Proofs.Sandbox
import Mender.Workflow.Counted
import Mender.Workflow.Layered
import Mender.Workflow.Single

/-! Every workflow goes on with exactly those revisions that change a text, whatever they do to its
imports. More generally, a workflow keeps each relation between surroundings that its single
accesses keep. -/
namespace Mender
open Run
variable {rs : Talk} {F : World.Frame}

namespace Model

instance keeps_clearProxies : Keeps F clearProxies :=
  .modify fun _ => ⟨rfl, rfl, rfl, rfl, rfl, rfl, rfl, rfl, rfl⟩

instance keeps_setting (name : String) : Keeps F (setting? name) := by
  unfold setting?
  infer_instance

instance keeps_record (e : ClientEvent) : Keeps F (record e) :=
  .modify fun _ => ⟨rfl, rfl, rfl, rfl, rfl, rfl, rfl, rfl, rfl⟩

instance keeps_load (library advice : String) : Keeps F (load library advice) := by
  unfold load
  infer_instance

instance keeps_connect (provider : Option String) : Keeps F (connect provider) := by
  refine keeps_bind (k := fun _ => ?_)
  split <;> infer_instance

instance keeps_query (m : Model) : Keeps F (m.query?.forM record) := by
  cases m.query? with
  | none => exact keeps_pure _
  | some e => exact keeps_record e

theorem run_query (m : Model) (w : World) : ∃ events, (m.query?.forM record).result w = .ok ⟨⟩ ∧
    (m.query?.forM record).after w = { w with clients := w.clients ++ events } := by
  cases m with
  | direct => exact ⟨[], rfl, by rw [List.append_nil]; rfl⟩
  | openai => exact ⟨_, rfl, rfl⟩
  | anthropic => exact ⟨_, rfl, rfl⟩

instance keeps_ask [h : F.Asks] (m : Model) (prompt : String) : Keeps F (m.ask prompt) := by
  refine keeps_bind (k := fun _ => ⟨fun w => ?_⟩)
  have hg : (get : Run World).result w = .ok w := rfl
  rw [(bind_ok hg).2]
  change F.rel w (after _ w)
  cases w.replies with
  | nil => exact h.ask w [] _ w.proposed w.kept
  | cons r rest => cases r <;> exact h.ask w rest _ w.proposed w.kept

instance keeps_request [F.Asks] (m : Model) (prompt : String) : Keeps F (m.request prompt) := by
  refine keeps_bind (k := fun r => ?_)
  cases r with
  | error e => infer_instance
  | ok reply =>
    refine keeps_bind (k := fun w => ?_)
    split <;> infer_instance

instance keeps_fix [F.Asks] (m : Model) (message : String) (context : Option String)
    (n : Option Int) (lang : String) : Keeps F (m.fix message context n lang) := by
  have second (prompt : String) : Keeps F (m.request prompt >>= fun r => match r with
      | .data d => pure (replacements d)
      | .empty => pure (.list [])
      | .failure e => do
        say s!"  [WARN] LLM 解析失败: {e.message}"
        pure (.list [])) := by
    refine keeps_bind (k := fun r => ?_)
    cases r <;> infer_instance
  refine keeps_bind (k := fun r => ?_)
  cases r with
  | data d => exact keeps_pure _
  | empty => exact keeps_say_bind _ _ (h := second _)
  | failure e => exact keeps_say_bind _ _ (h := second _)

private theorem ensures_ask (m : Model) (prompt : String) :
    Ensures rs (m.ask prompt) fun s => Reply.text s ∈ rs.replies := by
  refine (keeps_query m).ensures.bind fun _ _ w hw => ?_
  have hg : (get : Run World).result w = .ok w := rfl
  rw [(bind_ok hg).1, (bind_ok hg).2]
  change (after _ w).Within rs ∧ w.Follows rs (after _ w) ∧ ∀ s, result _ w = .ok s → _
  obtain ⟨hw, hreader⟩ := hw
  cases hr : w.replies with
  | nil =>
    exact ⟨⟨fun _ h => hw (by rwa [hr]), hreader⟩, .of_eq rfl rfl, fun s h => by cases h⟩
  | cons r rest =>
    have hm : ∀ q ∈ r :: rest, q ∈ rs.replies := fun q hq => hw (hr ▸ hq)
    have hrest : rest ⊆ rs.replies := fun q hq => hm q (List.mem_cons_of_mem _ hq)
    cases r with
    | text t =>
      refine ⟨⟨hrest, hreader⟩, .of_eq rfl rfl, fun s h => ?_⟩
      cases h
      exact hm _ List.mem_cons_self
    | failure reason => exact ⟨⟨hrest, hreader⟩, .of_eq rfl rfl, fun s h => by cases h⟩

def Told (rs : Talk) (d : Datum) : Prop :=
  ∃ s, Reply.text s ∈ rs.replies ∧ Answer.parse? (Answer.payload s) rs.reader = some d ∧
    d.truthy = true

private theorem ensures_request (m : Model) (prompt : String) :
    Ensures rs (m.request prompt) fun r => ∀ d, r = .data d → Told rs d := by
  refine (ensures_ask m prompt).caught.bind fun r hr => ?_
  cases r with
  | error e => exact .pure fun d h => by cases h
  | ok s =>
    refine Ensures.get_bind fun w hw => ?_
    rw [hw.2]
    cases hp : Answer.parse? (Answer.payload s) rs.reader with
    | none => exact .pure fun d h => by cases h
    | some d =>
      refine .pure fun e he => ?_
      cases ht : d.truthy with
      | false => simp [ht] at he
      | true =>
        simp only [ht, if_true, Reading.data.injEq] at he
        exact ⟨s, hr s rfl, he ▸ hp, he ▸ ht⟩

theorem ensures_fix (m : Model) (message : String) (context : Option String) (n : Option Int)
    (lang : String) : Ensures rs (m.fix message context n lang) fun d =>
      d.truthy = true → ∃ e, Told rs e ∧ d = replacements e := by
  have empty : (Datum.list []).truthy ≠ true := by decide
  refine (ensures_request m _).bind fun r hr => ?_
  cases r
  case data d => exact .pure fun _ => ⟨d, hr d rfl, rfl⟩
  -- both ways of failing lead to the same second request
  all_goals
    refine (keeps_say _).ensures.bind fun _ _ => (ensures_request m _).bind fun r hr => ?_
    cases r with
    | data d => exact .pure fun _ => ⟨d, hr d rfl, rfl⟩
    | empty => exact .pure fun h => absurd h empty
    | failure e => exact (keeps_say _).ensures.bind fun _ _ => .pure fun h => absurd h empty

end Model

namespace Workflow

instance keeps_localFix (code message lang : String) :
    Keeps F (localFix code message lang) := by
  unfold localFix
  infer_instance

instance keeps_propose [h : F.Asks] (m : Model) (l : Language) (code message : String)
    (line : Option Int) : Keeps F (propose m l code message line) := by
  have recorded (r : Revision) : Keeps F (recordProposed r) :=
    ⟨fun w => h.ask w w.replies w.prompts _ w.kept⟩
  refine keeps_bind (k := fun found => ?_)
  cases found with
  | none => exact keeps_pure _
  | some found => infer_instance

instance keeps_keep [h : F.Asks] (before new : String) : Keeps F (keep before new) :=
  ⟨fun w => h.ask w w.replies w.prompts w.proposed _⟩

/-- The relation holds over asking the model and going on with a changed text, and only with such a
text. -/
class Proposes (F : World.Frame) : Prop where
  through {α : Type} {m : Model} {l : Language} {code message : String} {line : Option Int}
    {k : Proposal → Run α} (stop : ∀ p, p.change? code = none → Keeps F (k p))
    (go : ∀ new, new ≠ code →
      ∃ f : String → Run α, k (.revised new) = keep code new >>= f ∧ Keeps F (f new)) :
    Keeps F (propose m l code message line >>= k)

instance [F.Asks] : Proposes F where
  through {α m l code message line k} stop go := by
    refine keeps_bind (k := fun p => ?_)
    cases hp : p.change? code with
    | none => exact stop p hp
    | some new =>
      cases p with
      | unlocated => cases hp
      | unanswered => cases hp
      | revised text =>
        obtain ⟨hne, -⟩ : text ≠ code ∧ text = new := by
          simpa [Proposal.change?] using hp
        obtain ⟨f, hk, hf⟩ := go text hne
        exact hk ▸ inferInstanceAs (Keeps F (keep code text >>= fun _ => f text))

private theorem faithful_recordProposed {code : String}
    (h : ∃ s, Reply.text s ∈ rs.replies ∧ Revision.AskedBy ⟨code, code⟩ rs.reader s) :
    Faithful rs (recordProposed ⟨code, code⟩) := by
  refine ⟨fun w hw => ⟨hw, [⟨code, code⟩], rfl, ?_, ?_⟩⟩
  · exact (List.append_nil _).symm.trans (by simp [Revision.changes]; rfl)
  · intro p hp
    rw [List.mem_singleton.mp hp]
    exact h

private theorem ensures_settle {code new : String} (hn : new ≠ code)
    (h : ∃ s, Reply.text s ∈ rs.replies ∧ Revision.AskedBy ⟨code, new⟩ rs.reader s) :
    Ensures rs (recordProposed ⟨code, new⟩ >>= fun _ => keep code new) (· = new) := by
  intro w hw
  refine ⟨hw, ⟨[⟨code, new⟩], rfl, ?_, ?_⟩, ?_⟩
  · rw [List.filter_cons_of_pos (by simpa [Revision.changes] using hn.symm)]
    rfl
  · intro p hp
    rw [List.mem_singleton.mp hp]
    exact h
  · intro a ha
    cases ha
    rfl

/-- A run that asks the model keeps the record in order if it goes on with a changed text, and only
with such a text. -/
private theorem faithful_propose {α : Type} {m : Model} {l : Language} {code message : String}
    {line : Option Int} {k : Proposal → Run α}
    (stop : ∀ p, p.change? code = none → Faithful rs (k p))
    (go : ∀ new, new ≠ code →
      ∃ f : String → Run α, k (.revised new) = keep code new >>= f ∧ Faithful rs (f new)) :
    Faithful rs (propose m l code message line >>= k) := by
  unfold propose
  rw [bind_assoc]
  refine keeps_bind (k := fun found => ?_)
  cases found with
  | none => exact (pure_bind Proposal.unlocated k).symm ▸ stop .unlocated rfl
  | some found =>
    dsimp only
    split
    · exact (pure_bind Proposal.unlocated k).symm ▸ stop .unlocated rfl
    rw [bind_assoc]
    refine Ensures.faithful (P := fun _ => True) ((m.ensures_fix _ _ _ _).bind fun d hd => ?_)
    split
    · next ht =>
      obtain ⟨e, ⟨s, hs, hp, he⟩, rfl⟩ := hd ht
      rw [bind_assoc]
      refine (Ensures.ofNoted _).bind fun new hnew => ?_
      have asked : ∃ s, Reply.text s ∈ rs.replies ∧ Revision.AskedBy ⟨code, new⟩ rs.reader s :=
        ⟨s, hs, e, hp, he, hnew⟩
      rw [bind_assoc]
      simp only [pure_bind]
      by_cases hn : new = code
      · subst hn
        have quiet := stop (.revised new) (by simp [Proposal.change?])
        exact (faithful_recordProposed asked).ensures.bind fun _ _ => quiet.ensures
      · obtain ⟨f, hk, hf⟩ := go new hn
        rw [hk, ← bind_assoc]
        refine (ensures_settle hn asked).bind fun text ht => ?_
        subst ht
        exact hf.ensures
    · exact ((pure_bind Proposal.unanswered k).symm ▸ stop .unanswered rfl).ensures

instance : Proposes (World.recorded rs) := ⟨faithful_propose⟩

private theorem change_revised {new code : String} (h : new ≠ code) :
    (Proposal.revised new).change? code = some new := if_neg h

instance keeps_arrange (l : Language) (files : List String) : Keeps F (arrange l files) := by
  unfold arrange
  infer_instance

instance keeps_summarise (results : List FileResult) (total : Nat) :
    Keeps F (summarise results total) := by
  unfold summarise
  infer_instance

instance keeps_findMain (l : Language) (files : List String) :
    Keeps F (findMain l files) := by
  refine keeps_bind (k := fun d => keeps_bind (k := fun main => ?_))
  split <;> infer_instance

instance keeps_compileScope [F.Operates] (l : Language) (scope : Scope) (files : List String)
    (texts : Texts) : Keeps F (compileScope l scope files texts) := by
  cases scope with
  | whole => exact Sandbox.keeps_compileProject files l
  | each =>
    unfold compileScope
    infer_instance

theorem keeps_fileLoop_of [F.Operates] [Proposes F] {m : Model} {l : Language} {name : String}
    (hcopy : ∀ code, Keeps F (Sandbox.copyFile code name)) (left : Nat) (code : String)
    (fixes : Nat) : Keeps F (fileLoop m l name left code fixes) := by
  induction left generalizing code fixes with
  | zero => exact keeps_pure _
  | succ left ih =>
    unfold fileLoop
    refine keeps_bind (k := fun checked => keeps_ite (k := ?_))
    refine keeps_bind (k := fun _ => keeps_bind_pair (k := fun code fixed => ?_))
    refine keeps_ite (k := ?_)
    refine Proposes.through (fun p hp => ?_) fun new hn => ?_
    · simp only [hp]
      infer_instance
    · simp only [change_revised hn]
      exact ⟨_, rfl, inferInstance⟩

section Parts
variable [F.Handles]

section Single

instance keeps_checkPhase (l : Language) (code : String) : Keeps F (checkPhase l code) := by
  unfold checkPhase
  infer_instance

instance keeps_compileFix [Proposes F] (m : Model) (l : Language) (code message : String) :
    Keeps F (compileFix m l code message) := by
  refine keeps_bind_pair (k := fun code fixed => ?_)
  refine keeps_ite (k := ?_)
  refine Proposes.through (fun p hp => ?_) fun new hn => ?_
  · simp only [hp]
    infer_instance
  · simp only [change_revised hn]
    exact ⟨pure, (bind_pure _).symm, inferInstance⟩

instance keeps_compileLoop [Proposes F] (m : Model) (l : Language) (left : Nat) (code : String)
    (o : Sandbox.Outcome) : Keeps F (compileLoop m l left code o) := by
  induction left generalizing code o with
  | zero => exact keeps_pure _
  | succ left ih =>
    unfold compileLoop
    infer_instance

instance keeps_compilePhase [Proposes F] (m : Model) (l : Language) (code : String) :
    Keeps F (compilePhase m l code) := by
  unfold compilePhase
  infer_instance

instance keeps_execute (l : Language) (code : String) : Keeps F (execute l code) := by
  unfold execute
  infer_instance

instance keeps_runLoop [Proposes F] (m : Model) (l : Language) (left : Nat) (code : String) :
    Keeps F (runLoop m l left code) := by
  induction left generalizing code with
  | zero => exact keeps_pure _
  | succ left ih =>
    unfold runLoop
    refine keeps_bind (k := fun _ => keeps_bind (k := fun ran => ?_))
    cases ran with
    | none => exact keeps_pure _
    | some o =>
      refine keeps_ite (k := keeps_bind (k := fun _ => ?_))
      refine keeps_bind_pair (k := fun code fixed => keeps_ite (k := ?_))
      refine Proposes.through (fun p hp => ?_) fun new hn => ?_
      · cases p with
        | unlocated => infer_instance
        | unanswered => infer_instance
        | revised new =>
          have hn : new = code := by simpa [Proposal.change?] using hp
          simp only [if_pos hn]
          infer_instance
      · exact ⟨runLoop m l left, if_neg hn, ih new⟩

end Single

section Files

instance keeps_fileLoop [Proposes F] (m : Model) (l : Language) (name : String) (left : Nat)
    (code : String) (fixes : Nat) : Keeps F (fileLoop m l name left code fixes) :=
  keeps_fileLoop_of (fun _ => inferInstance) left code fixes

instance keeps_repairFile [Proposes F] [F.Stores] (m : Model) (l : Language)
    (output path : String) : Keeps F (repairFile m l output path) := by
  unfold repairFile
  infer_instance

instance keeps_repairFiles [Proposes F] [F.Stores] (m : Model) (l : Language) (output : String)
    (count : Nat) (paths : List String) (done : Nat) :
    Keeps F (repairFiles m l output count paths done) := by
  induction paths generalizing done with
  | nil => exact keeps_pure _
  | cons path rest ih =>
    unfold repairFiles
    infer_instance

instance keeps_recheck [F.Stores] (l : Language) (output : String) (names : List String) :
    Keeps F (recheck l output names) := by
  unfold recheck
  infer_instance

end Files

section Project

instance keeps_adopt (p : Project) (name code note : String) :
    Keeps F (adopt p name code note) := by
  unfold adopt
  infer_instance

instance keeps_reviseByModel [Proposes F] (m : Model) (l : Language) (p : Project)
    (t : Diagnostic.Target) (code message failure : String) :
    Keeps F (reviseByModel m l p t code message failure) := by
  refine Proposes.through (fun q hq => ?_) fun new hn => ?_
  · simp only [hq]
    infer_instance
  · simp only [change_revised hn]
    exact ⟨_, rfl, inferInstance⟩

instance keeps_reviseCompile [Proposes F] (m : Model) (l : Language) (input : String) (p : Project)
    (message : String) : Keeps F (reviseCompile m l input p message) := by
  refine keeps_say_bind _ _ (h := keeps_bind (k := fun targets => ?_))
  split
  · infer_instance
  · refine keeps_say_bind _ _ (h := ?_)
    split <;> infer_instance

instance keeps_reviseRun [Proposes F] (m : Model) (l : Language) (input : String) (p : Project)
    (message : String) : Keeps F (reviseRun m l input p message) := by
  refine keeps_say_bind _ _ (h := keeps_bind (k := fun targets => ?_))
  split
  · infer_instance
  · refine keeps_say_bind _ _ (h := ?_)
    split <;> infer_instance

instance keeps_projectRound [Proposes F] (m : Model) (l : Language) (input : String)
    (main : Option String) (files : List String) (p : Project) :
    Keeps F (projectRound m l input main files p) := by
  unfold projectRound
  infer_instance

instance keeps_projectLoop [Proposes F] (m : Model) (l : Language) (input : String)
    (main : Option String) (files : List String) (limit : Int) (left : Nat) (p : Project) :
    Keeps F (projectLoop m l input main files limit left p) := by
  induction left generalizing p with
  | zero => exact keeps_pure _
  | succ left ih =>
    unfold projectLoop
    refine keeps_say_bind _ _ (h := keeps_bind (k := fun round => ?_))
    cases round with
    | again q => exact ih q
    | stop => exact keeps_pure _

instance keeps_loadFiles [F.Stores] (files : List String) : Keeps F (loadFiles files) := by
  unfold loadFiles
  infer_instance

instance keeps_saveFiles [F.Stores] (output : String) (ts : Texts) :
    Keeps F (saveFiles output ts) := by
  unfold saveFiles
  infer_instance

end Project

section Counted

instance keeps_fileErrors (l : Language) (name code : String) :
    Keeps F (fileErrors l name code) := by
  unfold fileErrors
  infer_instance

instance keeps_countedFix [Proposes F] (m : Model) (l : Language) (c : Counted)
    (t : Diagnostic.Target) (code report : String) : Keeps F (countedFix m l c t code report) := by
  refine keeps_bind_pair (k := fun new fixed => keeps_ite (k := ?_))
  refine Proposes.through (fun p hp => ?_) fun new hn => ?_
  · simp only [hp]
    infer_instance
  · simp only [change_revised hn]
    exact ⟨_, rfl, inferInstance⟩

instance keeps_countedLoop [Proposes F] (m : Model) (l : Language) (scope : Scope) (input : String)
    (files : List String) (left : Nat) (c : Counted) :
    Keeps F (countedLoop m l scope input files left c) := by
  induction left generalizing c with
  | zero => exact keeps_pure _
  | succ left ih =>
    unfold countedLoop
    refine keeps_bind (k := fun compiled => keeps_ite (k := ?_))
    refine keeps_bind (k := fun target => ?_)
    cases target with
    | none => infer_instance
    | some t =>
      refine keeps_say_bind _ _ (h := ?_)
      split
      · exact ih _
      · refine keeps_bind (k := fun next => ?_)
        cases next with
        | some next => exact ih next
        | none => infer_instance

instance keeps_initialErrors [F.Stores] (l : Language) (files : List String) :
    Keeps F (initialErrors l files) := by
  unfold initialErrors
  infer_instance

instance keeps_finalErrors (l : Language) (texts : Texts) :
    Keeps F (finalErrors l texts) := by
  unfold finalErrors
  infer_instance

instance keeps_readTexts [F.Stores] (files : List String) : Keeps F (readTexts files) := by
  unfold readTexts
  infer_instance

instance keeps_publish [F.Stores] (s : Statistics) (path : Option String) :
    Keeps F (s.publish path) := by
  refine keeps_say_bind _ _ (h := ?_)
  split <;> infer_instance

end Counted

section Layered

instance keeps_readBack (f : LayerFile) (code : String) (fixes : Nat) :
    Keeps F (readBack f code fixes) := by
  unfold readBack
  infer_instance

instance keeps_layerLoop [Proposes F] (m : Model) (l : Language) (f : LayerFile) (left : Nat)
    (code : String) (fixes : Nat) : Keeps F (layerLoop m l f left code fixes) := by
  induction left generalizing code fixes with
  | zero => exact keeps_pure _
  | succ left ih =>
    unfold layerLoop
    refine keeps_bind (k := fun checked => ?_)
    refine keeps_ite (h := keeps_bind_pair (k := fun code fixes => keeps_ite (k := ?_)))
      (k := keeps_bind_pair (k := fun code fixes => keeps_ite (k := ?_)))
    all_goals
      refine keeps_say_bind _ _ (h := keeps_bind_pair (k := fun new fixed => ?_))
      refine keeps_ite (k := ?_)
      refine Proposes.through (fun p hp => ?_) fun new hn => ?_
      · simp only [hp]
        infer_instance
      · simp only [change_revised hn]
        exact ⟨_, rfl, inferInstance⟩

instance keeps_repairLayerFile [Proposes F] [F.Stores] (m : Model) (l : Language)
    (project output : String) (f : LayerFile) : Keeps F (repairLayerFile m l project output f) := by
  unfold repairLayerFile
  infer_instance

instance keeps_repairLayerFiles [Proposes F] [F.Stores] (m : Model) (l : Language)
    (project output : String) (count : Nat) (files : List LayerFile) (done : Nat) :
    Keeps F (repairLayerFiles m l project output count files done) := by
  induction files generalizing done with
  | nil => exact keeps_pure _
  | cons f rest ih =>
    unfold repairLayerFiles
    infer_instance

instance keeps_verifyEntries [F.Stores] (output : String) (entries : List String) :
    Keeps F (verifyEntries output entries) := by
  unfold verifyEntries
  infer_instance

instance keeps_summariseLayers (results : List FileResult) (total : Nat) :
    Keeps F (summariseLayers results total) := by
  unfold summariseLayers
  infer_instance

instance keeps_announce (files : List LayerFile) : Keeps F (announce files) := by
  unfold announce
  infer_instance

end Layered

end Parts

/-! A whole workflow also removes the container at its end. -/
section Whole
variable [F.Issues] [F.Stores] [Proposes F]

instance keeps_repairProgram (l : Language) (input output : String) :
    Keeps F (repairProgram l input output) := by
  unfold repairProgram
  iterate 3 refine keeps_say_bind _ _ (h := ?_)
  refine keeps_bind (k := fun code => keeps_bind (k := fun _ => ?_))
  refine keeps_bind (k := fun m => keeps_bind (k := fun checked => ?_))
  infer_instance

instance keeps_single (input : String) (output lang : Option String) :
    Keeps F (single input output lang) := by
  unfold single
  dsimp only
  split <;> infer_instance

instance keeps_repairInOrder (l : Language) (output : String) (deps : Bool)
    (files : List String) (g : Graph) : Keeps F (repairInOrder l output deps files g) := by
  unfold repairInOrder
  refine keeps_say_bind _ _ (h := keeps_bind (k := fun _ => ?_))
  refine keeps_bind (k := fun m => keeps_bind (k := fun done => ?_))
  infer_instance

instance keeps_repairDirectory (l : Language) (input : String) (output : Option String)
    (deps : Bool) (files : List String) :
    Keeps F (repairDirectory l input output deps files) := by
  unfold repairDirectory
  infer_instance

instance keeps_separate (input : String) (output lang : Option String) (deps : Bool) :
    Keeps F (separate input output lang deps) := by
  refine keeps_bind (k := fun d => ?_)
  split
  · infer_instance
  · split <;> infer_instance

instance keeps_repairProject (l : Language) (input : String) (output : Option String)
    (limit : Option Int) (files : List String) :
    Keeps F (repairProject l input output limit files) := by
  unfold repairProject
  refine keeps_bind (k := fun _ => keeps_bind (k := fun main => ?_))
  iterate 6 refine keeps_say_bind _ _ (h := ?_)
  refine keeps_bind (k := fun _ => keeps_bind (k := fun m => ?_))
  refine keeps_bind (k := fun texts => ?_)
  cases limit with
  | none => exact keeps_throw _
  | some limit => infer_instance

instance keeps_project (input : String) (output lang : Option String)
    (limit : Option Int) :
    Keeps F (project input output lang limit) := by
  refine keeps_bind (k := fun d => ?_)
  dsimp only
  split <;> infer_instance

instance keeps_countedPhases (l : Language) (scope : Scope) (input output : String)
    (files : List String) : Keeps F (countedPhases l scope input output files) := by
  unfold countedPhases
  refine keeps_say_bind _ _ (h := keeps_bind (k := fun initial => ?_))
  iterate 2 refine keeps_say_bind _ _ (h := ?_)
  refine keeps_bind (k := fun m => keeps_bind (k := fun texts => ?_))
  infer_instance

instance keeps_counted (input : String) (output lang : Option String) (scope : Scope) :
    Keeps F (counted input output lang scope) := by
  refine keeps_bind (k := fun d => keeps_ite (k := ?_))
  refine keeps_bind (k := fun _ => keeps_say_bind _ _ (h := ?_))
  split
  · exact keeps_throw _
  · iterate 4 refine keeps_say_bind _ _ (h := ?_)
    infer_instance

instance keeps_repairLayers (ls : Layers) (project output : String)
    (lang : Option String) :
    Keeps F (repairLayers ls project output lang) := by
  unfold repairLayers
  iterate 4 refine keeps_bind (k := fun _ => ?_)
  refine keeps_bind (k := fun l => keeps_bind (k := fun _ => ?_))
  refine keeps_bind (k := fun m => keeps_bind (k := fun _ => ?_))
  infer_instance

instance keeps_layered (project : String) (output lang : Option String) :
    Keeps F (layered project output lang) := by
  iterate 3 refine keeps_say_bind _ _ (h := ?_)
  refine keeps_bind (k := fun d => keeps_bind (k := fun found => ?_))
  split <;> infer_instance

end Whole

end Workflow
end Mender
