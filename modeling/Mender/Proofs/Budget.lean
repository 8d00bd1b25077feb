import Mathlib.Data.List.Basic
import Mender.Proofs.Handling
import Mender.Proofs.Protection

/-! How many prompts a run sends. A request for a repair sends at most two, and each round of a
workflow makes at most one request, so that the rounds bound the prompts of a run, however it
ends. Where files are repaired one by one, the bound is for each file that was opened. -/
namespace Mender
open Run

namespace World
variable {u v w : World} {m n : Nat}

def Sent (w : World) (n : Nat) (v : World) : Prop :=
  ∃ sent, v.prompts = w.prompts ++ sent ∧ sent.length ≤ n

theorem Sent.of_eq (h : v.prompts = w.prompts) : w.Sent n v := ⟨[], by simp [h]⟩

theorem Sent.mono (h : w.Sent m v) (hn : m ≤ n) : w.Sent n v := by
  obtain ⟨sent, hs, hl⟩ := h
  exact ⟨sent, hs, hl.trans hn⟩

theorem Sent.trans (h : u.Sent m v) (k : v.Sent n w) : u.Sent (m + n) w := by
  obtain ⟨s, hs, hm⟩ := h
  obtain ⟨t, ht, hn⟩ := k
  refine ⟨s ++ t, by rw [ht, hs, List.append_assoc], ?_⟩
  rw [List.length_append]
  omega

def unasked : Frame where
  rel w v := v.prompts = w.prompts
  trans h k := k.trans h
  quiet h := h.prompts

instance : unasked.Issues := ⟨fun _ _ => rfl⟩

instance : unasked.Stores := ⟨fun _ _ _ => rfl⟩

end World

namespace Run
open World
variable {α β : Type} {x : Run α} {f : α → Run β} {m n : Nat}

/-- A run sends at most so many prompts, whether it gives a value or not. -/
def Sends (n : Nat) (x : Run α) : Prop := ∀ w : World, w.Sent n (x.after w)

theorem Sends.of_keeps [h : Keeps unasked x] : Sends n x := fun w => .of_eq (h.keeps w)

theorem sends_pure (a : α) : Sends n (pure a : Run α) := .of_keeps

theorem Sends.mono (h : Sends m x) (hn : m ≤ n) : Sends n x := fun w => (h w).mono hn

theorem Sends.bind (h : Sends m x) (k : ∀ a, Sends n (f a)) : Sends (m + n) (x >>= f) := by
  intro w
  cases hx : x.result w with
  | error e =>
    rw [(bind_error hx).2]
    exact (h w).mono (Nat.le_add_right m n)
  | ok a =>
    rw [(bind_ok hx).2]
    exact (h w).trans (k a _)

theorem Sends.after [Keeps unasked x] (k : ∀ a, Sends n (f a)) : Sends n (x >>= f) :=
  (Sends.bind (m := 0) .of_keeps k).mono (Nat.zero_add n).le

theorem Sends.before (h : Sends n x) [∀ a, Keeps unasked (f a)] : Sends n (x >>= f) :=
  h.bind (n := 0) fun _ => .of_keeps

instance unasked_keep (before new : String) : Keeps unasked (keep before new) := ⟨fun _ => rfl⟩

instance unasked_recordProposed (r : Revision) : Keeps unasked (recordProposed r) :=
  ⟨fun _ => rfl⟩

end Run

namespace Model
open World
variable (m : Model)

private theorem prompts_ask (prompt : String) (w : World) :
    ((m.ask prompt).after w).prompts = w.prompts ++ [prompt] := by
  obtain ⟨events, hres, haft⟩ := run_query m w
  have hg (v : World) : (get : Run World).result v = .ok v := rfl
  rw [ask, (bind_ok hres).2, haft, (bind_ok (hg _)).2]
  change (after _ { w with clients := _ }).prompts = _
  dsimp only
  cases w.replies with
  | nil => rfl
  | cons r rest => cases r <;> rfl

theorem prompts_request (prompt : String) (w : World) :
    ((m.request prompt).after w).prompts = w.prompts ++ [prompt] := by
  have hcaught : (caught (m.ask prompt)).result w = .ok ((m.ask prompt).result w) := rfl
  rw [request, (bind_ok hcaught).2, ← m.prompts_ask prompt w]
  cases (m.ask prompt).result w with
  | error e => rfl
  | ok reply =>
    have looked (v : World) : (get : Run World).result v = .ok v := rfl
    dsimp only
    rw [(bind_ok (looked _)).2]
    split <;> rfl

private theorem sends_request (prompt : String) : Sends 1 (m.request prompt) :=
  fun w => ⟨[prompt], m.prompts_request prompt w, le_rfl⟩

private theorem sends_fix (message : String) (context : Option String) (n : Option Int)
    (lang : String) : Sends 2 (m.fix message context n lang) := by
  refine (m.sends_request _).bind (n := 1) fun r => ?_
  cases r with
  | data d => exact .of_keeps
  | empty =>
    refine Sends.after fun _ => (m.sends_request _).bind (n := 0) fun r => ?_
    cases r <;> exact .of_keeps
  | failure e =>
    refine Sends.after fun _ => (m.sends_request _).bind (n := 0) fun r => ?_
    cases r <;> exact .of_keeps

end Model

namespace Workflow
open World
variable {m : Model} {l : Language} {code message name input output : String}
variable {files : List String} {p : Project} {scope : Scope}

theorem sends_propose {line : Option Int} : Sends 2 (propose m l code message line) := by
  refine Sends.after fun found => ?_
  cases found with
  | none => exact .of_keeps
  | some found =>
    dsimp only
    split
    · exact .of_keeps
    · refine (m.sends_fix _ _ _ _).bind (n := 0) fun answer => ?_
      split <;> exact .of_keeps

private theorem sends_compileFix : Sends 2 (compileFix m l code message) := by
  refine Sends.after fun p => ?_
  dsimp only
  split
  · exact .of_keeps
  · refine sends_propose.bind (n := 0) fun q => ?_
    split <;> exact .of_keeps

private theorem sends_compileLoop (left : Nat) {o : Sandbox.Outcome} :
    Sends (2 * left) (compileLoop m l left code o) := by
  induction left generalizing code o with
  | zero => exact sends_pure _
  | succ left ih =>
    unfold compileLoop
    split
    · exact .of_keeps
    · refine Sends.after fun _ => ?_
      refine (sends_compileFix.bind fun new => ?_).mono (by omega : 2 + 2 * left ≤ _)
      exact Sends.after fun _ => Sends.after fun o => ih

private theorem sends_compilePhase : Sends 6 (compilePhase m l code) := by
  unfold compilePhase
  split
  · exact .of_keeps
  · iterate 2 refine Sends.after fun _ => ?_
    refine Sends.after fun o => ?_
    exact (sends_compileLoop compileRounds).before

private theorem sends_runLoop (left : Nat) : Sends (2 * left) (runLoop m l left code) := by
  induction left generalizing code with
  | zero => exact sends_pure _
  | succ left ih =>
    unfold runLoop
    refine Sends.after fun _ => Sends.after fun ran => ?_
    cases ran with
    | none => exact .of_keeps
    | some o =>
      dsimp only
      split
      · exact .of_keeps
      · refine Sends.after fun _ => ?_
        refine Sends.after fun p => ?_
        split
        · exact ih.mono (by omega)
        · refine (sends_propose.bind fun q => ?_).mono (by omega : 2 + 2 * left ≤ _)
          cases q with
          | unlocated => exact .of_keeps
          | unanswered => exact .of_keeps
          | revised new =>
            dsimp only
            split
            · exact .of_keeps
            · exact Sends.after fun new => ih

private theorem sends_repairProgram : Sends 106 (repairProgram l input output) := by
  unfold repairProgram
  iterate 5 refine Sends.after fun _ => ?_
  refine Sends.after fun m => Sends.after fun code => ?_
  refine sends_compilePhase.bind (n := 2 * maxRounds) fun code => ?_
  refine Sends.after fun _ => ?_
  exact (sends_runLoop maxRounds).before

theorem sends_single {lang out : Option String} : Sends 106 (single input out lang) := by
  unfold single
  dsimp only
  split
  · exact .of_keeps
  · exact sends_repairProgram

theorem sends_fileLoop (left : Nat) {fixes : Nat} :
    Sends (2 * left) (fileLoop m l name left code fixes) := by
  induction left generalizing code fixes with
  | zero => exact sends_pure _
  | succ left ih =>
    unfold fileLoop
    refine Sends.after fun checked => ?_
    split
    · exact .of_keeps
    · refine Sends.after fun _ => ?_
      refine Sends.after fun p => ?_
      dsimp only
      split
      · refine Sends.after fun _ => ?_
        exact ih.mono (by omega)
      · refine (sends_propose.bind fun q => ?_).mono (by omega : 2 + 2 * left ≤ _)
        split
        · refine Sends.after fun new => ?_
          exact Sends.after fun _ => ih
        · exact .of_keeps

theorem sends_layerLoop (left : Nat) {f : LayerFile} {fixes : Nat} :
    Sends (2 * left) (layerLoop m l f left code fixes) := by
  induction left generalizing code fixes with
  | zero => exact sends_pure _
  | succ left ih =>
    unfold layerLoop
    refine Sends.after fun checked => ?_
    -- the rest of the round is the same whether the checker has mended the file or not
    dsimp only
    split <;> refine Sends.after fun p => ?_
    all_goals
      split
      · exact .of_keeps
      · refine Sends.after fun _ => ?_
        refine Sends.after fun q => ?_
        split
        · refine Sends.after fun _ => ?_
          exact ih.mono (by omega)
        · refine (sends_propose.bind fun r => ?_).mono (by omega : 2 + 2 * left ≤ _)
          split
          · refine Sends.after fun new => ?_
            exact Sends.after fun _ => ih
          · exact .of_keeps

theorem sends_reviseByModel {t : Diagnostic.Target} {failure : String} :
    Sends 2 (reviseByModel m l p t code message failure) := by
  refine sends_propose.bind (n := 0) fun q => ?_
  split <;> exact .of_keeps

private theorem sends_reviseCompile : Sends 2 (reviseCompile m l input p message) := by
  refine Sends.after fun _ => ?_
  refine Sends.after fun targets => ?_
  split
  · exact .of_keeps
  · refine Sends.after fun _ => ?_
    split
    · exact .of_keeps
    · refine Sends.after fun fixed => ?_
      dsimp only
      split
      · exact .of_keeps
      · exact sends_reviseByModel

private theorem sends_reviseRun : Sends 2 (reviseRun m l input p message) := by
  refine Sends.after fun _ => ?_
  refine Sends.after fun targets => ?_
  split
  · exact .of_keeps
  · refine Sends.after fun _ => ?_
    split
    · exact .of_keeps
    · exact sends_reviseByModel

private theorem sends_projectRound {main : Option String} :
    Sends 2 (projectRound m l input main files p) := by
  refine Sends.after fun compiled => ?_
  split
  · exact sends_reviseCompile
  · refine Sends.after fun _ => ?_
    refine Sends.after fun o => ?_
    split
    · exact .of_keeps
    · exact sends_reviseRun

private theorem sends_projectLoop (left : Nat) {main : Option String} {limit : Int}
    : Sends (2 * left) (projectLoop m l input main files limit left p) := by
  induction left generalizing p with
  | zero => exact sends_pure _
  | succ left ih =>
    unfold projectLoop
    refine Sends.after fun _ => ?_
    refine (sends_projectRound.bind fun round => ?_).mono (by omega : 2 + 2 * left ≤ _)
    cases round with
    | again q => exact ih
    | stop => exact .of_keeps

private theorem sends_repairProject {out : Option String} {limit : Option Int} :
    Sends (2 * (limit.getD 0).toNat) (repairProject l input out limit files) := by
  unfold repairProject
  iterate 9 refine Sends.after fun _ => ?_
  refine Sends.after fun m => ?_
  refine Sends.after fun texts => ?_
  cases limit with
  | none => exact .of_keeps
  | some limit => exact (sends_projectLoop limit.toNat).before

theorem sends_project {out lang : Option String} {limit : Option Int} :
    Sends (2 * (limit.getD 0).toNat) (project input out lang limit) := by
  refine Sends.after fun d => ?_
  dsimp only
  split
  · exact .of_keeps
  · split
    · exact .of_keeps
    · exact sends_repairProject.before

private theorem sends_countedFix {c : Counted} {t : Diagnostic.Target} {report : String} :
    Sends 2 (countedFix m l c t code report) := by
  refine Sends.after fun p => ?_
  dsimp only
  split
  · exact .of_keeps
  · refine sends_propose.bind (n := 0) fun q => ?_
    split <;> exact .of_keeps

private theorem sends_countedLoop (left : Nat) {c : Counted} :
    Sends (2 * left) (countedLoop m l scope input files left c) := by
  induction left generalizing c with
  | zero => exact sends_pure _
  | succ left ih =>
    unfold countedLoop
    refine Sends.after fun compiled => ?_
    split
    · exact .of_keeps
    · refine Sends.after fun target => ?_
      cases target with
      | none => exact .of_keeps
      | some t =>
        refine Sends.after fun _ => ?_
        split
        · exact ih.mono (by omega)
        · refine (sends_countedFix.bind fun next => ?_).mono (by omega : 2 + 2 * left ≤ _)
          cases next with
          | some next => exact ih
          | none => exact .of_keeps

private theorem sends_countedPhases : Sends 40 (countedPhases l scope input output files) := by
  unfold countedPhases
  refine Sends.after fun _ => ?_
  refine Sends.after fun initial => ?_
  iterate 2 refine Sends.after fun _ => ?_
  refine Sends.after fun m => ?_
  refine Sends.after fun texts => ?_
  exact (sends_countedLoop countedRounds).before

theorem sends_counted {out lang : Option String} : Sends 40 (counted input out lang scope) := by
  refine Sends.after fun d => ?_
  dsimp only
  split
  · exact .of_keeps
  · iterate 2 refine Sends.after fun _ => ?_
    split
    · exact .of_keeps
    · iterate 5 refine Sends.after fun _ => ?_
      refine Sends.after fun l => ?_
      exact sends_countedPhases.before

end Workflow

namespace World
variable {u v w : World} {n : Nat} {ps qs : List String}

def Opened (w : World) (paths : List String) (v : World) : Prop :=
  ∃ opened, v.accesses = w.accesses ++ opened ∧ ∀ p ∈ paths, .read p ∈ opened

def opened (w v : World) : List Access := v.accesses.drop w.accesses.length

theorem Opened.trans (h : u.Opened ps v) (k : v.Opened qs w) : u.Opened (ps ++ qs) w := by
  obtain ⟨s, hs, hp⟩ := h
  obtain ⟨t, ht, hq⟩ := k
  refine ⟨s ++ t, by rw [ht, hs, List.append_assoc], fun p hm => ?_⟩
  obtain hm | hm := List.mem_append.mp hm
  · exact List.mem_append_left t (hp p hm)
  · exact List.mem_append_right s (hq p hm)

def opening : Frame where
  rel w v := w.Opened [] v
  trans h k := h.trans k
  quiet h := ⟨[], by simp [h.accesses]⟩

instance : opening.Issues := ⟨fun _ _ => ⟨[], by simp [issued]⟩⟩

instance : opening.Stores := ⟨fun _ _ as => ⟨as, by simp⟩⟩

instance : opening.Asks := ⟨fun _ _ _ _ _ => ⟨[], by simp⟩⟩

/-- Between two surroundings some of the given files were read, and at most so many prompts were
sent for each of them. -/
def Spent (w : World) (n : Nat) (files : List String) (v : World) : Prop :=
  ∃ processed, processed.Subperm files ∧ w.Opened processed v ∧ w.Sent (n * processed.length) v

theorem Spent.idle (h : opening.rel w v) (k : unasked.rel w v) : w.Spent n ps v :=
  ⟨[], List.nil_subperm, h, .of_eq k⟩

theorem Spent.mono (h : w.Spent n ps v) (hs : ps.Subperm qs) : w.Spent n qs v := by
  obtain ⟨processed, hp, h⟩ := h
  exact ⟨processed, hp.trans hs, h⟩

theorem Spent.trans (h : u.Spent n ps v) (k : v.Spent n qs w) : u.Spent n (ps ++ qs) w := by
  obtain ⟨s, hs, ho, hn⟩ := h
  obtain ⟨t, ht, ko, kn⟩ := k
  refine ⟨s ++ t, hs.append ht, ho.trans ko, (hn.trans kn).mono ?_⟩
  rw [List.length_append, Nat.mul_add]

theorem Spent.sent (h : w.Spent n ps v) :
    w.Sent (n * (ps.filter fun path => .read path ∈ opened w v).length) v := by
  obtain ⟨processed, hsub, ⟨as, has, hread⟩, hsent⟩ := h
  have hopened : opened w v = as := by rw [opened, has, List.drop_left]
  have hall : processed.filter (fun path => .read path ∈ as) = processed :=
    List.filter_eq_self.mpr fun path hp => decide_eq_true (hread path hp)
  have hle := (hsub.filter fun path => .read path ∈ as).length_le
  rw [hall] at hle
  rw [hopened]
  exact hsent.mono (Nat.mul_le_mul_left n hle)

end World

namespace Run
open World
variable {α β : Type} {x : Run α} {f : α → Run β} {n : Nat} {ps qs : List String}

/-- A run reads some of the given files and sends at most so many prompts for each of them, whether
it gives a value or not. -/
def Spends (n : Nat) (files : List String) (x : Run α) : Prop :=
  ∀ w : World, w.Spent n files (x.after w)

theorem Spends.idle [h : Keeps opening x] [k : Keeps unasked x] : Spends n ps x :=
  fun w => .idle (h.keeps w) (k.keeps w)

theorem Spends.bind (h : Spends n ps x) (k : ∀ a, Spends n qs (f a)) :
    Spends n (ps ++ qs) (x >>= f) := by
  intro w
  cases hx : x.result w with
  | error e =>
    rw [(bind_error hx).2]
    exact (h w).mono (List.sublist_append_left ps qs).subperm
  | ok a =>
    rw [(bind_ok hx).2]
    exact (h w).trans (k a _)

theorem Spends.past [h : Keeps opening x] [h' : Keeps unasked x]
    (k : ∀ w a v, Ends x w a v → Spends n ps (f a)) : Spends n ps (x >>= f) := by
  intro w
  have hidle : w.Spent n [] (x.after w) := .idle (h.keeps w) (h'.keeps w)
  cases hx : x.result w with
  | error e =>
    rw [(bind_error hx).2]
    exact hidle.mono List.nil_subperm
  | ok a =>
    rw [(bind_ok hx).2]
    exact hidle.trans (k w a _ (ends_of_result hx) _)

theorem Spends.after [Keeps opening x] [Keeps unasked x] (k : ∀ a, Spends n ps (f a)) :
    Spends n ps (x >>= f) := .past fun _ a _ _ => k a

theorem Spends.before (h : Spends n ps x) [∀ a, Keeps opening (f a)] [∀ a, Keeps unasked (f a)] :
    Spends n ps (x >>= f) := by
  have hb : Spends n (ps ++ []) (x >>= f) := h.bind fun _ => .idle
  rwa [List.append_nil] at hb

theorem Spends.of_read {path : String} {strict : Bool} {f : String → Run α}
    [hf : ∀ text, Keeps opening (f text)] (h : ∀ text, Sends n (f text)) :
    Spends n [path] (readFile path strict >>= f) := by
  intro w
  cases hx : (readFile path strict).result w with
  | error e =>
    rw [(bind_error hx).2]
    exact .idle ((keeps_readFile path strict).keeps w) ((keeps_readFile path strict).keeps w)
  | ok text =>
    rw [(bind_ok hx).2]
    obtain ⟨-, hread⟩ := (ends_of_result hx).of_readFile
    rw [hread]
    have hopen : w.Opened [path] { w with accesses := w.accesses ++ [.read path] } :=
      ⟨[.read path], rfl, by simp⟩
    refine ⟨[path], .refl _, ?_, (h text _).mono (Nat.mul_one n).ge⟩
    have := hopen.trans ((hf text).keeps _)
    rwa [List.append_nil] at this

def SpendsOn (n : Nat) (s : Disk → List String) (x : Run α) : Prop :=
  ∀ w : World, w.Spent n (s w.disk) (x.after w)

theorem SpendsOn.after {s : Disk → List String} [h : Keeps untouched x] [h' : Keeps unasked x]
    (k : ∀ a, SpendsOn n s (f a)) : SpendsOn n s (x >>= f) := by
  intro w
  obtain ⟨hdisk, haccesses⟩ := h.keeps w
  have hidle : w.Spent n [] (x.after w) := .idle ⟨[], by simp [haccesses]⟩ (h'.keeps w)
  cases hx : x.result w with
  | error e =>
    rw [(bind_error hx).2]
    exact hidle.mono List.nil_subperm
  | ok a =>
    rw [(bind_ok hx).2]
    exact hidle.trans (hdisk ▸ k a (x.after w))

theorem SpendsOn.disk {f : Disk → Run α} {s : Disk → List String}
    (h : ∀ d, Spends n (s d) (f d)) : SpendsOn n s (disk >>= f) := fun w => h w.disk w

end Run

namespace Workflow
open World
variable {m : Model} {l : Language} {input output : String} {deps : Bool}

private theorem spends_repairFile {path : String} : Spends 100 [path]
    (repairFile m l output path) := by
  unfold repairFile
  refine Spends.of_read fun source => ?_
  refine Sends.after fun _ => ?_
  exact (sends_fileLoop maxRounds).before

private theorem spends_repairFiles {count done : Nat} {paths : List String} :
    Spends 100 paths (repairFiles m l output count paths done) := by
  induction paths generalizing done with
  | nil =>
    unfold repairFiles
    exact .idle
  | cons path rest ih =>
    unfold repairFiles
    iterate 2 refine Spends.after fun _ => ?_
    refine spends_repairFile.bind fun r => ?_
    exact ih.before

private theorem spends_repairInOrder {files : List String} {g : Graph} :
    Spends 100 files (repairInOrder l output deps files g) := by
  unfold repairInOrder
  iterate 2 refine Spends.after fun _ => ?_
  refine Spends.after fun m => ?_
  exact spends_repairFiles.before

private theorem spends_repairDirectory {out : Option String} {files : List String} :
    Spends 100 files (repairDirectory l input out deps files) := by
  unfold repairDirectory
  iterate 5 refine Spends.after fun _ => ?_
  dsimp only
  split
  · refine Spends.past fun w p v h => ?_
    obtain ⟨paths, g⟩ := p
    obtain ⟨-, rfl, -⟩ := of_arrange h
    exact fun w => (spends_repairInOrder w).mono (pathsOf_subperm g.order_nodup)
  · exact spends_repairInOrder

def separateFiles (input : String) (lang : Option String) (d : Disk) : List String :=
  (languageOf d input lang).elim [] fun l => Glob.withSuffix d input l.profile.suffix

theorem spends_separate {out lang : Option String} :
    SpendsOn 100 (separateFiles input lang) (separate input out lang deps) := by
  refine SpendsOn.disk fun d => ?_
  unfold separateFiles languageOf
  split
  · exact .idle
  · rename_i name hname
    rw [hname, Option.bind_some]
    split
    · exact .idle
    · rename_i l hl
      rw [hl]
      dsimp only [Option.elim]
      split
      · exact .idle
      · exact spends_repairDirectory.before

private theorem spends_repairLayerFile {f : LayerFile} :
    Spends 100 [f.pathIn input] (repairLayerFile m l input output f) := by
  unfold repairLayerFile
  refine Spends.of_read fun source => ?_
  refine Sends.after fun _ => ?_
  exact (sends_layerLoop maxRounds).before

private theorem spends_repairLayerFiles {count done : Nat} {files : List LayerFile} :
    Spends 100 (files.map (·.pathIn input))
      (repairLayerFiles m l input output count files done) := by
  induction files generalizing done with
  | nil =>
    unfold repairLayerFiles
    exact .idle
  | cons f rest ih =>
    unfold repairLayerFiles
    refine Spends.after fun _ => ?_
    refine spends_repairLayerFile.bind fun r => ?_
    exact ih.before

private theorem spends_repairLayers {ls : Layers} {lang : Option String} :
    Spends 100 ((layerFiles ls).map (·.pathIn input)) (repairLayers ls input output lang) := by
  unfold repairLayers
  iterate 4 refine Spends.after fun _ => ?_
  refine Spends.after fun l => ?_
  refine Spends.after fun _ => ?_
  refine Spends.after fun m => ?_
  refine Spends.after fun _ => ?_
  exact spends_repairLayerFiles.before

def layeredFiles (project : String) (d : Disk) : List String :=
  match Layers.find d project with
  | .ok (some ls) => (layerFiles ls).map (·.pathIn project)
  | _ => []

private theorem spends_layered {out lang : Option String} :
    SpendsOn 100 (layeredFiles input) (layered input out lang) := by
  iterate 3 refine SpendsOn.after fun _ => ?_
  refine SpendsOn.disk fun d => ?_
  refine Spends.past fun w found v h => ?_
  obtain ⟨hfound, -⟩ := h.of_ofExcept
  rw [layeredFiles, hfound]
  cases found with
  | none => exact .idle
  | some ls =>
    iterate 4 refine Spends.after fun _ => ?_
    exact spends_repairLayers.before

namespace Task

def separately : Task → Disk → List String
  | .separate input _ lang _ => separateFiles input lang
  | .layered input _ _ => layeredFiles input
  | _ => fun _ => []

def processed (t : Task) (w : World) : List String :=
  (t.separately w.disk).filter fun path => .read path ∈ opened w (t.run.after w)

def budget (t : Task) (w : World) : Nat :=
  match t with
  | .single .. => 106
  | .separate .. | .layered .. => 100 * (t.processed w).length
  | .project _ _ _ limit => 2 * (limit.getD 0).toNat
  | .counted .. => 40

/-- A run keeps to its budget, whether it gives a value or ends with a fault. -/
theorem prompts_within_budget (t : Task) (w : World) :
    ∃ sent, (t.run.after w).prompts = w.prompts ++ sent ∧ sent.length ≤ t.budget w := by
  cases t with
  | single input output lang =>
    rw [run, after_discard]
    exact sends_single w
  | project input output lang limit =>
    rw [run, after_discard]
    exact sends_project w
  | counted input output lang scope =>
    rw [run, after_discard]
    exact sends_counted w
  | separate input output lang deps =>
    refine World.Spent.sent ?_
    rw [run, after_discard]
    exact spends_separate w
  | layered input output lang =>
    refine World.Spent.sent ?_
    rw [run, after_discard]
    exact spends_layered w

end Task

end Workflow
end Mender
