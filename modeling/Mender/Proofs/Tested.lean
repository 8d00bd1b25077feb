import Mender.Proofs.Disk
import Mender.Proofs.Transcript

/-! A program is reported to run only if it was tested: the text that is written is the last one
copied into the container, and after that copy it was compiled and run there without failure. -/
namespace Mender
open Run World

namespace Sandbox
variable {w v : World} {l : Language} {code cmd : String} {o : Outcome}

def copying (l : Language) (code : String) : Command where
  words := ["docker", "cp", "<tmp>" ++ l.profile.suffix,
    container ++ ":" ++ inWorkspace (programName l)]
  timeout := none
  content := some code

def executing (cmd : String) (timeout : Option Int) : Command where
  words := ["docker", "exec", container, "sh", "-c", cmd]
  timeout := timeout

theorem talk_copyProgram {u : Unit} (h : Ends (copyProgram code l) w u v) :
    ∃ before r, w.Talk (before ++ [(copying l code, r)]) v := by
  obtain ⟨_, _, ⟨t, ht⟩, h⟩ := h.past told
  obtain ⟨⟨status, stdout, stderr⟩, _, hc, h⟩ := h.of_bind
  obtain ⟨r, hr⟩ := hc.talk
  dsimp only at h
  split at h
  · obtain ⟨_, _, ⟨s, hs⟩, h⟩ := h.past told
    obtain ⟨_, _, ⟨s', hs'⟩, h⟩ := h.past told
    obtain ⟨_, _, hc, h⟩ := h.of_bind
    obtain ⟨r', hr'⟩ := hc.talk
    obtain ⟨-, rfl⟩ := h.of_pure
    exact ⟨t ++ [(_, r)] ++ s ++ s', r', (((ht.trans hr).trans hs).trans hs').trans hr'⟩
  · obtain ⟨-, rfl⟩ := h.of_pure
    exact ⟨t, r, ht.trans hr⟩

theorem talk_exec {timeout : Option Int} {retry : Bool}
    (h : Ends (exec cmd timeout none retry) w o v) (ho : o.ok = true) :
    ∃ stdout stderr, w.Talk [(executing cmd timeout, .done 0 stdout stderr)] v := by
  obtain ⟨r, u, hx, h⟩ := h.of_bind
  have hok : r = .ok o ∧ u = v := by
    cases r with
    | ok o' =>
      obtain ⟨rfl, rfl⟩ := h.of_pure
      exact ⟨rfl, rfl⟩
    | error e =>
      dsimp only at h
      rw [if_neg (by simp)] at h
      rw [← h.of_pure.1] at ho
      cases ho
  obtain ⟨rfl, rfl⟩ := hok
  obtain ⟨r, _, hc, hx⟩ := hx.of_bind
  obtain ⟨a, ha, rfl⟩ := hc.of_caught_command
  cases a with
  | done status stdout stderr =>
    obtain ⟨he, rfl⟩ := hx.of_pure
    rw [← Except.ok.inj he, beq_iff_eq] at ho
    exact ⟨stdout, stderr, ho ▸ ha⟩
  | timeout =>
    obtain ⟨_, _, -, hx⟩ := hx.of_bind
    rw [← Except.ok.inj hx.of_pure.1] at ho
    cases ho
  | failure reason => cases hx.of_pure.1

theorem talk_remove {u : Unit} (h : Ends remove w u v) : ∃ r, w.Talk [(removing, r)] v := by
  obtain ⟨_, _, hc, h⟩ := Ends.of_bind h
  obtain ⟨-, rfl⟩ := h.of_pure
  exact hc.talk

def tests (l : Language) : List String :=
  (l.profile.compile.toList ++ [l.profile.run]).map (programCommand l)

def Passed (cmd : String) (e : Command × Response) : Prop :=
  ∃ stdout stderr, e = (executing cmd (some 60), .done 0 stdout stderr)

/-- A text was copied as the program and passed all tests. -/
def Tested (l : Language) (code : String) (t : List (Command × Response)) : Prop :=
  ∃ copied passed, t = (copying l code, copied) :: passed ∧ List.Forall₂ Passed (tests l) passed

end Sandbox

namespace Workflow
open Sandbox
variable {w v : World} {m : Model} {l : Language} {code : String}

private theorem talk_execute {o : Outcome} (h : Ends (execute l code) w (some o) v)
    (ho : o.ok = true) : ∃ before tested, Tested l code tested ∧ w.Talk (before ++ tested) v := by
  obtain ⟨_, _, hc, h⟩ := h.of_bind
  obtain ⟨before, r, hcopy⟩ := talk_copyProgram hc
  -- a language without a compiler goes straight to the run
  have hrun {x y : World} (h : Ends (runProgram l >>= fun o => pure (some o)) x (some o) y) :
      ∃ e, Passed (programCommand l l.profile.run) e ∧ x.Talk [e] y := by
    obtain ⟨o', _, hr, h⟩ := h.of_bind
    obtain ⟨he, rfl⟩ := h.of_pure
    obtain ⟨stdout, stderr, ht⟩ := talk_exec (Option.some.inj he ▸ hr) ho
    exact ⟨_, ⟨stdout, stderr, rfl⟩, ht⟩
  cases hp : l.profile.compile with
  | none =>
    rw [hp] at h
    obtain ⟨e, he, ht⟩ := hrun h
    refine ⟨before, _, ⟨r, [e], rfl, ?_⟩, by simpa using hcopy.trans ht⟩
    simpa [tests, hp] using he
  | some command =>
    rw [hp] at h
    obtain ⟨c, _, hc, h⟩ := h.of_bind
    have hcompile : compileProgram l = exec (programCommand l command) := by
      rw [compileProgram, hp]
    rw [hcompile] at hc
    dsimp only at h
    split at h
    · obtain ⟨_, _, -, h⟩ := h.of_bind
      cases h.of_pure.1
    · rename_i hok
      obtain ⟨stdout, stderr, hcomp⟩ := talk_exec hc (by simpa using hok)
      obtain ⟨e, he, ht⟩ := hrun h
      refine ⟨before, _, ⟨r, [_, e], rfl, ?_⟩, by simpa using (hcopy.trans hcomp).trans ht⟩
      simpa [tests, hp] using ⟨⟨stdout, stderr, rfl⟩, he⟩

theorem talk_runLoop {left : Nat} {new : String}
    (h : Ends (runLoop m l left code) w (new, true) v) :
    ∃ before tested, Tested l new tested ∧ w.Talk (before ++ tested) v := by
  induction left generalizing code w with
  | zero => cases h.of_pure.1
  | succ left ih =>
    -- what comes before the next round goes before its transcript
    have later {code : String} {u : World} (hu : told.rel w u)
        (h : Ends (runLoop m l left code) u (new, true) v) :
        ∃ before tested, Tested l new tested ∧ w.Talk (before ++ tested) v := by
      obtain ⟨t, ht⟩ := hu
      obtain ⟨before, tested, htest, hk⟩ := ih h
      exact ⟨t ++ before, tested, htest, by simpa using ht.trans hk⟩
    obtain ⟨_, _, hs, h⟩ := h.past told
    obtain ⟨ran, u, hx, h⟩ := h.of_bind
    have hu := told.trans hs (hx.keeps told)
    cases ran with
    | none => cases h.of_pure.1
    | some o =>
      dsimp only at h
      split at h
      · rename_i ho
        obtain ⟨t, ht⟩ := hs
        obtain ⟨before, tested, htest, hk⟩ := talk_execute hx ho
        have hrest := h.keeps silent
        obtain ⟨_, _, -, h⟩ := h.of_bind
        obtain rfl : code = new := by
          split at h
          · obtain ⟨_, _, -, h⟩ := h.of_bind
            exact (Prod.mk.inj h.of_pure.1).1
          · exact (Prod.mk.inj h.of_pure.1).1
        exact ⟨t ++ before, tested, htest, by simpa using (ht.trans hk).trans hrest⟩
      · obtain ⟨_, _, hu, h⟩ := h.pass hu
        obtain ⟨⟨fixed, done⟩, _, hu, h⟩ := h.pass hu
        dsimp only at h
        split at h
        · exact later hu h
        · obtain ⟨p, _, hu, h⟩ := h.pass hu
          cases p with
          | unlocated =>
            obtain ⟨_, _, -, h⟩ := h.of_bind
            cases h.of_pure.1
          | unanswered =>
            obtain ⟨_, _, -, h⟩ := h.of_bind
            cases h.of_pure.1
          | revised text =>
            dsimp only at h
            split at h
            · obtain ⟨_, _, -, h⟩ := h.of_bind
              cases h.of_pure.1
            · obtain ⟨_, _, hu, h⟩ := h.pass hu
              exact later hu h

/-- A program is reported to run only if it was tested: the commands of the run end with a copy of
the text that is written, followed by its tests, each with status zero, and the removal of the
container. -/
theorem single_success_tested {input : String} {output lang : Option String}
    (h : Ends (single input output lang) w true v) : ∃ l code before tested removed,
      Language.ofName? ((lang.filter (· ≠ "")).getD (Language.ofFile input).name) = some l ∧
      Tested l code tested ∧ w.Talk (before ++ tested ++ [(removing, removed)]) v ∧
      v.disk.file? ((output.filter (· ≠ "")).getD (fixedName input)) = some ⟨code, true⟩ := by
  unfold single at h
  dsimp only at h
  split at h
  · obtain ⟨_, _, -, h⟩ := h.of_bind
    cases h.of_pure.1
  rename_i l hl
  unfold repairProgram at h
  obtain ⟨_, _, hu, h⟩ := h.past told
  iterate 4 obtain ⟨_, _, hu, h⟩ := h.pass hu
  obtain ⟨m, _, hu, h⟩ := h.pass hu
  iterate 3 obtain ⟨_, _, hu, h⟩ := h.pass hu
  obtain ⟨t, ht⟩ := hu
  obtain ⟨⟨code, success⟩, _, hloop, h⟩ := h.of_bind
  obtain ⟨_, _, hw, h⟩ := h.of_bind
  have hstored := hw.keeps silent
  obtain ⟨d, hwrite, rfl⟩ := hw.of_writeFile
  have hdisk := h.keeps untouched
  iterate 3 obtain ⟨_, _, hstored, h⟩ := h.pass hstored
  obtain ⟨_, _, hr, h⟩ := h.of_bind
  obtain ⟨removed, hrem⟩ := talk_remove hr
  obtain ⟨rfl, rfl⟩ := h.of_pure
  obtain ⟨before, tested, htest, hk⟩ := talk_runLoop hloop
  refine ⟨l, code, t ++ before, tested, removed, hl, htest, ?_, ?_⟩
  · simpa using ht.trans (hk.trans (hstored.trans hrem))
  · rw [Disk.file?, hdisk.1]
    exact Disk.file_write hwrite

/-- A program that compiles and runs, in surroundings where the first copy fails. -/
def compiling : World where
  disk := { files := [(["a.c"], ⟨"int main(void);\n", true⟩)] }
  commandRules := [⟨"docker cp", some 1, .done 1 "" "no space"⟩]

/-- The text of a program that is copied anew, compiled and run is written as it was copied. -/
theorem compiled_and_run : ∃ v before tested removed,
    Ends (single "a.c" none none) compiling true v ∧ Tested .c "int main(void);\n" tested ∧
      compiling.Talk (before ++ tested ++ [(removing, removed)]) v ∧
      v.disk.file? "a_fixed.c" = some ⟨"int main(void);\n", true⟩ := by
  have hrun : (single "a.c" none none).result compiling = .ok true ∧
      ((single "a.c" none none).after compiling).disk.file? "a_fixed.c" =
        some ⟨"int main(void);\n", true⟩ := by
    decide +kernel
  obtain ⟨l, code, before, tested, removed, hl, ht, hk, hf⟩ :=
    single_success_tested (ends_of_result hrun.1)
  obtain rfl : Language.c = l := Option.some.inj ((by decide : _ = some Language.c).symm.trans hl)
  obtain rfl : "int main(void);\n" = code :=
    congrArg FileContent.text (Option.some.inj (hrun.2.symm.trans hf))
  exact ⟨_, before, tested, removed, ends_of_result hrun.1, ht, hk, hrun.2⟩

end Workflow
end Mender
