import Mender.Proofs.Figures

/-! The rounds in which a project is repaired. A run is its opening, round after round, and its
closing. A round that does not end the repairs is led by the first place that the compiler or the
program names: it changes the file of that place and no other one, or it is skipped if the project
has no such file. -/
namespace Mender
open Run World

namespace Run
variable {α β : Type} {x : Run α} {w u v : World} {a b : α}

theorem Ends.run_bind {f : α → Run β} (h : Ends x w a v) :
    (x >>= f).run.run w = (f a).run.run v := by
  have hr : x.result w = .ok a := congrArg Prod.fst h
  have ha : x.after w = v := congrArg Prod.snd h
  obtain ⟨hresult, hafter⟩ := bind_ok (f := f) hr
  rw [ha] at hresult hafter
  exact Prod.ext hresult hafter

theorem Ends.of_said {line : String} (h : Ends (say line >>= fun _ => pure a) w b v) : a = b := by
  obtain ⟨_, _, -, h⟩ := h.of_bind
  exact h.of_pure.1

theorem Ends.unique (h : Ends x w a u) (k : Ends x w b v) : a = b ∧ u = v := by
  obtain ⟨hr, hw⟩ := Prod.mk.inj (Eq.trans (Eq.symm h) k)
  exact ⟨Except.ok.inj hr, hw⟩

end Run

namespace Workflow

structure Job where
  model : Model
  language : Language
  input : String
  main : Option String
  files : List String
  limit : Int
  deriving DecidableEq

/-- What a round is told: by the compiler, or else by the program. -/
inductive Report where
  | compile (message : String)
  | run (message : String)

def Report.message : Report → String
  | .compile message => message
  | .run message => message

namespace Job
variable (j : Job)

def round (left : Nat) (p : Project) : Run Round := do
  say s!"\n[ITER {j.limit - left}/{j.limit}] 编译项目..."
  projectRound j.model j.language j.input j.main j.files p

def rounds (left : Nat) (p : Project) : Run Project :=
  projectLoop j.model j.language j.input j.main j.files j.limit left p

def look (left : Nat) : Run (Option Report) := do
  say s!"\n[ITER {j.limit - left}/{j.limit}] 编译项目..."
  let compiled ← Sandbox.compileProject j.files j.language
  if !compiled.ok then return some (.compile compiled.errors)
  else
    say "  [COMPILE OK] 尝试运行..."
    let o ← Sandbox.runProject j.language j.main
    return if o.ok then none else some (.run o.stderr)

def close (output : Option String) (p : Project) : Run Bool := do
  saveFiles (outputDir j.input output) p.texts
  say ("\n" ++ bar)
  say "[SUMMARY] 项目级修复完成"
  say bar
  say s!"总文件数: {j.files.length}"
  say s!"修复次数: {p.fixes}"
  let fixed := if p.fixed.isEmpty then "无" else Text.join ", " (Text.sorted p.fixed)
  say s!"已修改文件: {fixed}"
  Sandbox.remove
  return true

end Job

/-- What precedes the rounds; nothing is to be repaired if there are no files. -/
def opening (input : String) (output lang : Option String) (limit : Option Int) :
    Run (Option (Job × Texts)) := do
  let d ← Run.disk
  let lang := (lang.filter (· ≠ "")) <|> (languageIn d input projectSuffixes).map Language.name
    <|> lang
  match lang.bind Language.ofName? with
  | none =>
    say s!"[ERROR] 无法检测语言或不支持: {Prompt.shown lang}"
    return none
  | some l =>
    let files := Glob.withSuffix d input l.profile.suffix
    if files.isEmpty then
      say s!"[ERROR] 目录中没有 {l.profile.suffix} 文件"
      return none
    let output := outputDir input output
    makeDirs output
    let main ← findMain l files
    say bar
    say s!"[PROJECT AUTO DEBUG] 语言: {Prompt.upper l.name}"
    say s!"[INPUT] {input} ({files.length} 个文件)"
    say s!"[MAIN] {Prompt.shown main}"
    say s!"[OUTPUT] {output}"
    say bar
    Sandbox.setUp l.name
    let m ← Model.connect "qwen"
    let texts ← loadFiles files
    let some limit := limit | throw (.wrongType)
    return some (⟨m, l, input, main, files, limit⟩, texts)

section Run
variable {input : String} {output lang : Option String} {limit : Option Int}

theorem project_eq : project input output lang limit = opening input output lang limit >>= fun o =>
    o.elim (pure false) fun s =>
      s.1.rounds s.1.limit.toNat { texts := s.2 } >>= s.1.close output := by
  simp only [project, opening, bind_assoc]
  refine bind_congr fun d => ?_
  generalize Option.bind _ Language.ofName? = found
  cases found with
  | none => simp only [bind_assoc, pure_bind, Option.elim_none]
  | some l =>
    dsimp only
    split
    · simp only [bind_assoc, pure_bind, Option.elim_none]
    · cases limit with
      | none =>
        simp only [repairProject, bind_assoc]
        rfl
      | some limit =>
        simp only [repairProject, bind_assoc, pure_bind, Option.elim_some]
        rfl

/-- In a run from given surroundings, repairs have come to where at most `left` rounds follow. -/
inductive Begins (input : String) (output lang : Option String) (limit : Option Int) (w : World) :
    Job → Nat → Project → World → Prop
  | first {j : Job} {ts : Texts} {u : World}
    (h : Ends (opening input output lang limit) w (some (j, ts)) u) :
    Begins input output lang limit w j j.limit.toNat { texts := ts } u
  | next {j : Job} {left : Nat} {p q : Project} {u v : World}
    (h : Begins input output lang limit w j (left + 1) p u)
    (again : Ends (j.round left p) u (.again q) v) : Begins input output lang limit w j left q v

variable {j : Job} {left : Nat} {p q : Project} {u v w : World}

private theorem rounds_of_again {f : Project → Run Bool}
    (h : Ends (j.round left p) u (.again q) v) :
    (j.rounds (left + 1) p >>= f).run.run u = (j.rounds left q >>= f).run.run v := by
  obtain ⟨_, x, hs, hr⟩ := h.of_bind
  simp only [Job.rounds, projectLoop, bind_assoc]
  rw [hs.run_bind, hr.run_bind]

theorem Begins.run (h : Begins input output lang limit w j left p u) :
    (project input output lang limit).run.run w =
      (j.rounds left p >>= j.close output).run.run u := by
  induction h with
  | first h =>
    rw [project_eq, h.run_bind]
    rfl
  | next h again ih => rw [ih, rounds_of_again again]

theorem Begins.le (h : Begins input output lang limit w j left p u) : left ≤ j.limit.toNat := by
  induction h with
  | first h => exact Nat.le_refl _
  | next h again ih => exact Nat.le_of_succ_le ih

private theorem Begins.unique (h : Begins input output lang limit w j left p u)
    (k : Begins input output lang limit w j left q v) : p = q ∧ u = v := by
  induction h generalizing q v with
  | first h =>
    cases k with
    | first k =>
      obtain ⟨he, rfl⟩ := h.unique k
      obtain ⟨-, rfl⟩ := Prod.mk.inj (Option.some.inj he)
      exact ⟨rfl, rfl⟩
    | next k again => exact absurd k.le (Nat.not_succ_le_self _)
  | next h again ih =>
    cases k with
    | first k => exact absurd h.le (Nat.not_succ_le_self _)
    | next k again' =>
      obtain ⟨rfl, rfl⟩ := ih k
      obtain ⟨he, rfl⟩ := again.unique again'
      exact ⟨Round.again.inj he, rfl⟩

theorem Begins.again (h : Begins input output lang limit w j (left + 1) p u)
    (k : Begins input output lang limit w j left q v) : Ends (j.round left p) u (.again q) v := by
  cases k with
  | first k => exact absurd h.le (Nat.not_succ_le_self _)
  | next k again =>
    obtain ⟨rfl, rfl⟩ := h.unique k
    exact again

end Run

section Round
variable {m : Model} {l : Language} {p q : Project} {t : Diagnostic.Target} {w v : World}
  {code message name note new : String} {r : Round}

/-- Repairs without the model are reported for a text though, with the modules of the run, it stays
as it is. -/
def ReportedInVain (w : World) (code message : String) (l : Language) : Prop :=
  ∃ s, (LocalFix.run w.workingModules code message l.name).outcome.1 = .ok s ∧
    s.applied = true ∧ s.code = code

theorem workingModules_said {line : String} {u : Unit} (h : Ends (say line) w u v) :
    v.workingModules = w.workingModules := by
  cases h
  rfl

theorem of_adopt (h : Ends (adopt p name code note) w r v) : r = .again (p.revise name code) := by
  obtain ⟨_, _, -, h⟩ := h.of_bind
  obtain ⟨_, _, -, h⟩ := h.of_bind
  exact h.of_pure.1.symm

theorem changed_localFix (h : Ends (localFix code message l.name) w (new, true) v) :
    new ≠ code ∨ ReportedInVain w code message l := by
  obtain ⟨s, hs, rfl, ha⟩ := outcome_localFix h
  by_cases hc : s.code = code
  · exact .inr ⟨s, hs, ha, hc⟩
  · exact .inl hc

private theorem Proposal.ne_of_change {proposal : Proposal} (h : proposal.change? code = some new) :
    new ≠ code := by
  unfold change? at h
  split at h
  · split at h
    · cases h
    · rename_i hne
      exact Option.some.inj h ▸ hne
  · cases h

theorem of_reviseByModel {failure : String}
    (h : Ends (reviseByModel m l p t code message failure) w (.again q) v) :
    ∃ new, new ≠ code ∧ q = p.revise t.file new := by
  obtain ⟨proposal, _, -, h⟩ := h.of_bind
  split at h
  · rename_i new hnew
    obtain ⟨kept, _, hk, h⟩ := h.of_bind
    obtain ⟨_, _, -, hk⟩ := hk.of_bind
    obtain ⟨rfl, -⟩ := hk.of_pure
    exact ⟨new, Proposal.ne_of_change hnew, Round.again.inj (of_adopt h)⟩
  · cases h.of_said

/-- What a round that goes on makes of a project, led by a place: nothing, if the project has no
file of that name, or else another text of that file. Nothing is said of the text if repairs without
the model were reported for it in vain. -/
structure Led (w : World) (l : Language) (report : Report) (t : Diagnostic.Target) (p q : Project) : Prop where
  skipped : p.texts.lookup t.file = none → q = p
  revised (old : String) : p.texts.lookup t.file = some old → ∃ new, q = p.revise t.file new ∧
    (new ≠ old ∨ ∃ message, report = .compile message ∧ ReportedInVain w old message l)

theorem led_skipped {report : Report} (h : p.texts.lookup t.file = none) :
    Led w l report t p p :=
  ⟨fun _ => rfl, fun old ho => by rw [h] at ho; cases ho⟩

theorem led_revised {report : Report} (h : p.texts.lookup t.file = some code)
    (hne : new ≠ code ∨ ∃ message, report = .compile message ∧ ReportedInVain w code message l) :
    Led w l report t p (p.revise t.file new) where
  skipped hn := by
    rw [h] at hn
    cases hn
  revised old ho := by
    obtain rfl := Option.some.inj (h.symm.trans ho)
    exact ⟨new, rfl, hne⟩

theorem led_reviseCompile {input : String}
    (h : Ends (reviseCompile m l input p message) w (.again q) v) :
    ∃ t ts, Diagnostic.targets (some l) message input = .ok (t :: ts) ∧
      Led w l (.compile message) t p q := by
  obtain ⟨_, _, hsaid, h⟩ := h.of_bind
  obtain ⟨targets, _, hfound, h⟩ := h.of_bind
  obtain ⟨htargets, rfl⟩ := hfound.of_ofExcept
  cases targets with
  | nil => cases h.of_said
  | cons t ts =>
    refine ⟨t, ts, htargets, ?_⟩
    obtain ⟨_, _, hshown, h⟩ := h.of_bind
    have hmodules := (workingModules_said hshown).trans (workingModules_said hsaid)
    cases hl : p.texts.lookup t.file with
    | none =>
      rw [hl] at h
      obtain rfl := Round.again.inj h.of_said
      exact led_skipped hl
    | some code =>
      rw [hl] at h
      obtain ⟨⟨new, fixed⟩, _, hlocal, h⟩ := h.of_bind
      cases fixed with
      | true =>
        obtain rfl := Round.again.inj (of_adopt h)
        refine led_revised hl ((changed_localFix hlocal).imp_right fun hv => ⟨message, rfl, ?_⟩)
        rwa [ReportedInVain, hmodules] at hv
      | false =>
        obtain ⟨new, hne, rfl⟩ := of_reviseByModel h
        exact led_revised hl (.inl hne)

private theorem led_reviseRun {input : String}
    (h : Ends (reviseRun m l input p message) w (.again q) v) :
    ∃ t ts, Diagnostic.targets (some l) message input = .ok (t :: ts) ∧
      Led w l (.run message) t p q := by
  obtain ⟨_, _, -, h⟩ := h.of_bind
  obtain ⟨targets, _, htargets, h⟩ := h.of_bind
  obtain ⟨htargets, -⟩ := htargets.of_ofExcept
  cases targets with
  | nil => cases h.of_said
  | cons t ts =>
    refine ⟨t, ts, htargets, ?_⟩
    obtain ⟨_, _, -, h⟩ := h.of_bind
    cases hl : p.texts.lookup t.file with
    | none =>
      rw [hl] at h
      obtain rfl := Round.again.inj h.of_said
      exact led_skipped hl
    | some code =>
      rw [hl] at h
      obtain ⟨new, hne, rfl⟩ := of_reviseByModel h
      exact led_revised hl (.inl hne)

/-- A round that goes on has a report, and it is led by the first place that the report names. -/
theorem led_round {j : Job} {left : Nat} (h : Ends (j.round left p) w (.again q) v) :
    ∃ report x t ts, Ends (j.look left) w (some report) x ∧
      Diagnostic.targets (some j.language) report.message j.input = .ok (t :: ts) ∧
      Led x j.language report t p q := by
  obtain ⟨_, _, hsaid, h⟩ := h.of_bind
  obtain ⟨compiled, x, hcompiled, h⟩ := h.of_bind
  split at h
  · rename_i hfailed
    obtain ⟨t, ts, htargets, hled⟩ := led_reviseCompile h
    refine ⟨.compile compiled.errors, x, t, ts, hsaid.bind (hcompiled.bind ?_), htargets, hled⟩
    rw [if_pos hfailed]
    rfl
  · rename_i hpassed
    obtain ⟨_, _, hshown, h⟩ := h.of_bind
    obtain ⟨o, x, hran, h⟩ := h.of_bind
    split at h
    · cases h.of_said
    · rename_i hfailed
      obtain ⟨t, ts, htargets, hled⟩ := led_reviseRun h
      refine ⟨.run o.stderr, x, t, ts, hsaid.bind (hcompiled.bind ?_), htargets, hled⟩
      rw [if_neg hpassed]
      refine hshown.bind (hran.bind ?_)
      rw [if_neg hfailed]
      rfl

end Round

/-- A round of repairs that does not end them has a report of the compiler or of the program, and it
is led by the first place that the report names. If the project has a file of that name, the round
changes its text and no other one, so that the next round begins from other texts; only if the rules
of this round report a repair of the text in vain is nothing said of it. If it has none, the round is
skipped and the next one begins from the same texts. The run goes on from there. -/
theorem round_changes_its_target {input : String} {output lang : Option String} {limit : Option Int}
    {w u v : World} {j : Job} {left : Nat} {p q : Project}
    (h : Begins input output lang limit w j (left + 1) p u)
    (k : Begins input output lang limit w j left q v) :
    (project input output lang limit).run.run w =
        (j.rounds left q >>= j.close output).run.run v ∧
      ∃ report x t ts, Ends (j.look left) u (some report) x ∧
        Diagnostic.targets (some j.language) report.message j.input = .ok (t :: ts) ∧
        (∀ other ≠ t.file, q.texts.lookup other = p.texts.lookup other) ∧
        (p.texts.lookup t.file = none → q.texts = p.texts) ∧
        ∀ old, p.texts.lookup t.file = some old → ∃ new, q.texts.lookup t.file = some new ∧
          (new ≠ old ∨
            ∃ message, report = .compile message ∧ ReportedInVain x old message j.language) := by
  obtain ⟨report, x, t, ts, hlook, htargets, hskipped, hrevised⟩ := led_round (h.again k)
  refine ⟨k.run, report, x, t, ts, hlook, htargets, fun other hne => ?_, fun hn => ?_,
    fun old ho => ?_⟩
  · cases hl : p.texts.lookup t.file with
    | none => rw [hskipped hl]
    | some old =>
      obtain ⟨new, rfl, -⟩ := hrevised old hl
      exact (Texts.lookup_put ..).trans (if_neg hne)
  · rw [hskipped hn]
  · obtain ⟨new, rfl, hnew⟩ := hrevised old ho
    exact ⟨new, (Texts.lookup_put ..).trans (if_pos rfl), hnew⟩

/-- A project of one script. The first report names another script; after that the model turns the
text round and back again. -/
def swinging : World where
  disk := { files := [(["p", "main.py"], ⟨"a", true⟩)], dirs := [["p"]] }
  commandRules := [⟨"py_compile", some 1, .done 1 "File \"other.py\", line 1" ""⟩,
    ⟨"py_compile", none, .done 1 "File \"main.py\", line 1" ""⟩]
  replies := [.text "\x7b\"old\": \"a\", \"new\": \"b\"\x7d",
    .text "\x7b\"old\": \"b\", \"new\": \"a\"\x7d"]

def swing : Job := ⟨.openai, .python, "p", some "main.py", ["p/main.py"], 4⟩

private theorem swinging_rounds : ∃ u₁ u₂ u₃ u₄,
    Begins "p" none (some "python") (some 4) swinging swing 4 ⟨[("main.py", "a")], 0, []⟩ u₁ ∧
    Begins "p" none (some "python") (some 4) swinging swing 3 ⟨[("main.py", "a")], 0, []⟩ u₂ ∧
    Begins "p" none (some "python") (some 4) swinging swing 2
      ⟨[("main.py", "b")], 1, ["main.py"]⟩ u₃ ∧
    Begins "p" none (some "python") (some 4) swinging swing 1
      ⟨[("main.py", "a")], 2, ["main.py", "main.py"]⟩ u₄ := by
  have hrounds : (do
      let o ← opening "p" none (some "python") (some 4)
      let skipped ← swing.round 3 ⟨[("main.py", "a")], 0, []⟩
      let turned ← swing.round 2 ⟨[("main.py", "a")], 0, []⟩
      let back ← swing.round 1 ⟨[("main.py", "b")], 1, ["main.py"]⟩
      return (o, skipped, turned, back) : Run _).result swinging =
      .ok (some (swing, [("main.py", "a")]), .again ⟨[("main.py", "a")], 0, []⟩,
        .again ⟨[("main.py", "b")], 1, ["main.py"]⟩,
        .again ⟨[("main.py", "a")], 2, ["main.py", "main.py"]⟩) := by decide +kernel
  obtain ⟨o, u₁, hopened, h⟩ := (ends_of_result hrounds).of_bind
  obtain ⟨skipped, u₂, hskipped, h⟩ := h.of_bind
  obtain ⟨turned, u₃, hturned, h⟩ := h.of_bind
  obtain ⟨back, u₄, hback, h⟩ := h.of_bind
  obtain ⟨he, -⟩ := h.of_pure
  simp only [Prod.mk.injEq] at he
  obtain ⟨rfl, rfl, rfl, rfl⟩ := he
  have h₁ := Begins.first hopened
  have h₂ := h₁.next hskipped
  have h₃ := h₂.next hturned
  exact ⟨u₁, u₂, u₃, u₄, h₁, h₂, h₃, h₃.next hback⟩

/-- Rounds may begin from the same texts: after a round that is skipped, and after rounds in which
the model turned a text round and back again. -/
theorem rounds_begin_alike : ∃ p₁ p₂ p₃ p₄ u₁ u₂ u₃ u₄,
    Begins "p" none (some "python") (some 4) swinging swing 4 p₁ u₁ ∧
    Begins "p" none (some "python") (some 4) swinging swing 3 p₂ u₂ ∧
    Begins "p" none (some "python") (some 4) swinging swing 2 p₃ u₃ ∧
    Begins "p" none (some "python") (some 4) swinging swing 1 p₄ u₄ ∧
    p₁.texts = p₂.texts ∧ p₂.texts ≠ p₃.texts ∧ p₄.texts = p₂.texts := by
  obtain ⟨u₁, u₂, u₃, u₄, h₁, h₂, h₃, h₄⟩ := swinging_rounds
  exact ⟨_, _, _, _, u₁, u₂, u₃, u₄, h₁, h₂, h₃, h₄, rfl, by decide, rfl⟩

/-- A round that changes the script was led by a place in it. -/
theorem script_turned : ∃ p q u v,
    Begins "p" none (some "python") (some 4) swinging swing 3 p u ∧
    Begins "p" none (some "python") (some 4) swinging swing 2 q v ∧
    p.texts = [("main.py", "a")] ∧ q.texts = [("main.py", "b")] ∧
    ∃ report x t ts, Ends (swing.look 2) u (some report) x ∧
      Diagnostic.targets (some .python) report.message "p" = .ok (t :: ts) ∧
      t.file = "main.py" := by
  obtain ⟨u₁, u₂, u₃, u₄, h₁, h₂, h₃, h₄⟩ := swinging_rounds
  obtain ⟨-, report, x, t, ts, hlook, htargets, hothers, -⟩ := round_changes_its_target h₂ h₃
  refine ⟨_, _, u₂, u₃, h₂, h₃, rfl, rfl, report, x, t, ts, hlook, htargets, ?_⟩
  by_contra hne
  exact absurd (hothers "main.py" (Ne.symm hne)) (by decide)

end Workflow
end Mender
