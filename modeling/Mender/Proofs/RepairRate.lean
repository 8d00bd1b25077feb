import Mender.Proofs.Figures
import Mender.Proofs.LocalFix

/-! Repairs against errors. A completed run counts at most one repair in each of its rounds, and
nothing else ties the repairs to the errors that were counted before them: each number of repairs
that the rounds allow occurs with each number of errors. -/
namespace Mender
open Run

namespace Workflow
open Text

def side : Bool → String
  | true => "a"
  | false => "b"

def turning : Bool → String
  | true => "\x7b\"old\": \"a\", \"new\": \"b\"\x7d"
  | false => "\x7b\"old\": \"b\", \"new\": \"a\"\x7d"

def turns : Bool → Nat → List Reply
  | _, 0 => []
  | b, n + 1 => .text (turning b) :: turns (!b) n

def errorReport : Nat → String
  | 0 => "-"
  | i + 1 => "error" ++ "\n" ++ errorReport i

/-- Answers to commands: compiling fails at a line, and the checker lists a number of errors. -/
def failing (i : Nat) : List CommandRule :=
  [⟨"py_compile", none, .done 1 "line 1" ""⟩, ⟨"--select", none, .done 1 (errorReport i) ""⟩]

/-- Surroundings that answer commands with failures. -/
structure Stage (i : Nat) (rs : List Reply) (d : Disk) (w : World) : Prop where
  rules : w.commandRules = failing i
  talk : w.talk = ⟨rs, {}⟩
  disk : w.disk = d
  missingLibraries : w.missingLibraries = []

section Stage
variable {i n : Nat} {b : Bool} {rs : List Reply} {d e : Disk} {code new reply : String}

theorem leads_say (line : String) : Leads (Stage i rs d) (say line) ⟨⟩ (Stage i rs d) :=
  fun _ hw => ⟨rfl, hw.rules, hw.talk, hw.disk, hw.missingLibraries⟩

theorem leads_ofNoted {α : Type} {x : Noted α} {a : α} (h : x.outcome.1 = .ok a) :
    Leads (Stage i rs d) (ofNoted x) a (Stage i rs d) := by
  have said (notes : List String) :
      Leads (Stage i rs d) (notes.forM say) ⟨⟩ (Stage i rs d) := by
    induction notes with
    | nil => exact .pure _
    | cons note notes ih => exact (leads_say note).bind ih
  exact (said x.outcome.2).bind (leads_ofExcept h)

theorem leads_command {c : Command} {status : Int} {stdout stderr : String}
    (h : c.answer (failing i) = (.done status stdout stderr, failing i)) :
    Leads (Stage i rs d) (command c) (status, stdout, stderr) (Stage i rs d) := by
  intro w hw
  rw [← hw.rules] at h
  rw [(run_command c w).1, (run_command c w).2, World.issued, h]
  exact ⟨rfl, hw.rules, hw.talk, hw.disk, hw.missingLibraries⟩

def Other (words : List String) : Prop :=
  contains (join " " words) "py_compile" = false ∧ contains (join " " words) "--select" = false

instance (words : List String) : Decidable (Other words) := inferInstanceAs (Decidable (_ ∧ _))

theorem answer_other {c : Command} (h : Other c.words) :
    c.answer (failing i) = (defaultResponse c.words, failing i) := by
  simp [Command.answer, failing, respond, h.1, h.2]

theorem leads_other {words : List String} {timeout : Option Int} {content : Option String}
    (h : Other words) (hstate : words.take 2 ≠ ["docker", "inspect"]) :
    Leads (Stage i rs d) (command ⟨words, timeout, content⟩) (0, "", "") (Stage i rs d) := by
  refine leads_command ?_
  rw [answer_other (c := ⟨words, timeout, content⟩) h, defaultResponse, if_neg hstate]

theorem leads_setUp : Leads (Stage i rs d) (Sandbox.setUp "python") ⟨⟩ (Stage i rs d) := by
  have available : Leads (Stage i rs d) Sandbox.isAvailable true (Stage i rs d) :=
    (leads_other (by decide) (by decide)).caught.bind (.pure _)
  have asked : Leads (Stage i rs d) (Sandbox.docker ["inspect", "-f",
      "\x7b\x7b.State.Running\x7d\x7d", Sandbox.container] (some 10)) (0, "true\n", "")
      (Stage i rs d) := leads_command (answer_other (by decide))
  have running : Leads (Stage i rs d) Sandbox.isRunning true (Stage i rs d) :=
    asked.caught.bind (.pure _)
  have installed : Leads (Stage i rs d) (Sandbox.installLint Language.python.profile) ⟨⟩
      (Stage i rs d) := (leads_other (by decide) (by decide)).caught.bind (.pure _)
  refine available.bind (Leads.bind (a := Language.python) (leads_ofExcept rfl) ?_)
  refine (leads_other (by decide) (by decide)).discard.bind ?_
  refine (leads_other (by decide) (by decide)).bind ?_
  refine (leads_other (by decide) (by decide)).discard.bind ?_
  exact installed.bind (running.bind (leads_say _))

theorem leads_copyFile (code : String) :
    Leads (Stage i rs d) (Sandbox.copyFile code "line") ⟨⟩ (Stage i rs d) := by
  exact (leads_other (by decide) (by decide)).discard

theorem leads_exec {cmd stdout : String} {timeout : Option Int} {status : Int}
    (h : Command.answer ⟨["docker", "exec", Sandbox.container, "sh", "-c", cmd], timeout, none⟩
      (failing i) = (.done status stdout "", failing i)) :
    Leads (Stage i rs d) (Sandbox.exec cmd timeout) ⟨status == 0, stdout, ""⟩ (Stage i rs d) := by
  have once : Leads (Stage i rs d) (Sandbox.execOnce cmd timeout) (.ok ⟨status == 0, stdout, ""⟩)
      (Stage i rs d) := (leads_command h).caught.bind (.pure _)
  exact once.bind (.pure _)

private theorem lines_errorReport (i : Nat) :
    lines (errorReport i) = List.replicate i "error" ++ ["-"] := by
  induction i with
  | zero => decide
  | succ i ih =>
    rw [errorReport, lines_append, ih, lines_of_not_mem (by decide)]
    rfl

private theorem trim_errorReport (i : Nat) : trim (errorReport i) ≠ "" := by
  have hlast : ∃ t, (errorReport i).toList = t ++ ['-'] := by
    induction i with
    | zero => exact ⟨[], rfl⟩
    | succ i ih =>
      obtain ⟨t, ht⟩ := ih
      exact ⟨"error\n".toList ++ t, by simp [errorReport, ht]⟩
  have hfirst : ∃ c r, (errorReport i).toList = c :: r ∧ isBlank c = false := by
    cases i with
    | zero => exact ⟨'-', [], rfl, by decide⟩
    | succ i => exact ⟨'e', "rror\n".toList ++ (errorReport i).toList, by simp [errorReport], by decide⟩
  obtain ⟨t, ht⟩ := hlast
  obtain ⟨c, r, hr, hc⟩ := hfirst
  rw [Answer.trim_eq_self hr ht hc (by decide), ← String.toList_inj.ne, hr]
  exact List.cons_ne_nil c r

def listed : FoundError := ⟨(Diagnostic.kind "error").name, "line", 0, "error"⟩

private theorem listedErrors_errorReport (i : Nat) :
    listedErrors "line" (errorReport i) = .ok (List.replicate i listed) := by
  have hother : contains (lower "-") "error" = false := by decide
  have hnamed : contains (lower "error") "error" = true := by decide
  have hnumber : Diagnostic.lineNumber "error" = .ok none := by decide
  have hrows : (lines (errorReport i)).filter (fun line => contains (lower line) "error") =
      List.replicate i "error" := by
    rw [lines_errorReport, List.filter_append, List.filter_replicate, if_pos hnamed,
      List.filter_cons_of_neg (by rw [hother]; decide), List.filter_nil, List.append_nil]
  rw [listedErrors, hrows, ← List.map_replicate (f := fun _ => listed)]
  refine mapM_eq_ok_map fun row hrow => ?_
  rw [List.eq_of_mem_replicate hrow, hnumber]
  rfl

theorem leads_fileErrors (code : String) : Leads (Stage i rs d) (fileErrors .python "line" code)
    (List.replicate i listed) (Stage i rs d) := by
  have hanswer (timeout : Option Int) : Command.answer ⟨["docker", "exec", Sandbox.container, "sh",
      "-c", Sandbox.checkCommand .python (Sandbox.inWorkspace "line")], timeout, none⟩
      (failing i) = (.done 1 (errorReport i) "", failing i) := by
    have hcompile : contains (join " " ["docker", "exec", Sandbox.container, "sh", "-c",
        Sandbox.checkCommand .python (Sandbox.inWorkspace "line")]) "py_compile" = false := by
      decide
    have hcheck : contains (join " " ["docker", "exec", Sandbox.container, "sh", "-c",
        Sandbox.checkCommand .python (Sandbox.inWorkspace "line")]) "--select" = true := by
      decide
    simp [Command.answer, failing, respond, hcompile, hcheck]
  have checked : Leads (Stage i rs d) (Sandbox.checkFile "line" .python)
      ⟨false, errorReport i⟩ (Stage i rs d) := by
    have hfound : Sandbox.Outcome.checked ⟨false, errorReport i, ""⟩ = ⟨false, errorReport i⟩ := by
      simp [Sandbox.Outcome.checked, Sandbox.Outcome.report, trim_errorReport]
    refine (leads_exec (hanswer _)).bind ?_
    rw [show ((1 : Int) == 0) = false from rfl, hfound]
    exact .pure _
  refine (leads_copyFile code).bind (checked.bind ?_)
  exact leads_ofExcept (listedErrors_errorReport i)

theorem leads_connect :
    Leads (Stage i rs d) (Model.connect "qwen") .openai (Stage i rs d) := by
  have loaded : Leads (Stage i rs d) (Model.load "openai" "请安装 openai: pip install openai") ⟨⟩
      (Stage i rs d) := by
    refine Leads.get_bind fun w hw => ?_
    rw [hw.missingLibraries]
    exact .pure _
  have cleared : Leads (Stage i rs d) Model.clearProxies ⟨⟩ (Stage i rs d) :=
    fun _ hw => ⟨rfl, hw.rules, hw.talk, hw.disk, hw.missingLibraries⟩
  refine cleared.bind ?_
  change Leads (Stage i rs d) (Model.setting? "QWEN_API_KEY" >>= fun key => _) _ _
  unfold Model.setting?
  rw [bind_assoc]
  refine Leads.get_bind fun w _ => ?_
  rw [pure_bind]
  refine loaded.bind (Leads.bind (a := ⟨⟩) (fun _ hw => ?_) (.pure _))
  exact ⟨rfl, hw.rules, hw.talk, hw.disk, hw.missingLibraries⟩

theorem leads_readFile (h : d.read "line" false = .ok code) :
    Leads (Stage i rs d) (readFile "line" false) code (Stage i rs d) := by
  intro w hw
  have hd : disk.result w = .ok w.disk := rfl
  rw [readFile, (bind_ok hd).1, (bind_ok hd).2, hw.disk, h]
  exact ⟨rfl, hw.rules, hw.talk, hw.disk, hw.missingLibraries⟩

theorem leads_writeFile {path : String} (h : d.write path code = .ok e) :
    Leads (Stage i rs d) (writeFile path code) ⟨⟩ (Stage i rs e) := by
  intro w hw
  have hd : disk.result w = .ok w.disk := rfl
  rw [writeFile, (bind_ok hd).1, (bind_ok hd).2, hw.disk, h]
  exact ⟨rfl, hw.rules, hw.talk, rfl, hw.missingLibraries⟩

theorem leads_makeDirs {path : String} (h : d.makeDirs path = .ok e) :
    Leads (Stage i rs d) (makeDirs path) ⟨⟩ (Stage i rs e) := by
  intro w hw
  have hd : disk.result w = .ok w.disk := rfl
  rw [makeDirs, (bind_ok hd).1, (bind_ok hd).2, hw.disk, h]
  exact ⟨rfl, hw.rules, hw.talk, rfl, hw.missingLibraries⟩

theorem leads_compileScope (texts : Texts) :
    Leads (Stage i rs d) (compileScope .python .whole ["line"] texts) ⟨false, "line 1"⟩
      (Stage i rs d) := by
  have hanswer : Command.answer ⟨["docker", "exec", Sandbox.container, "sh", "-c",
      "python -m py_compile /workspace/line 2>&1"], some 30, none⟩ (failing i) =
        (.done 1 "line 1" "", failing i) := by
    have hcompile : contains (join " " ["docker", "exec", Sandbox.container, "sh", "-c",
        "python -m py_compile /workspace/line 2>&1"]) "py_compile" = true := by decide
    simp [Command.answer, failing, respond, hcompile]
  have failed : Leads (Stage i rs d)
      (Sandbox.failures ["python -m py_compile /workspace/line 2>&1"]) [some "line 1"]
      (Stage i rs d) := by
    rw [Sandbox.failures, List.mapM_cons, List.mapM_nil]
    refine Leads.bind (a := some "line 1") ((leads_exec hanswer).bind (.pure _)) ?_
    exact (Leads.pure _).bind (.pure _)
  exact failed.bind (.pure _)

theorem firstTarget_line (code : String) :
    firstTarget .python "" "line 1" [("line", code)] = .ok (some ⟨"line", 1, "line 1"⟩) := by
  have htargets : Diagnostic.targets (some .python) "line 1" "" = .ok [] := by decide
  have hnamed : contains "line 1" "line" = true := by decide
  have hnumber : Diagnostic.lineNumber "line 1" = .ok (some 1) := by decide
  simp only [firstTarget, htargets, hnumber, List.find?_cons, hnamed]
  rfl

theorem leads_localFix :
    Leads (Stage i rs d) (localFix code "line 1" "python") (code, false) (Stage i rs d) := by
  refine Leads.get_bind fun w _ => ?_
  have fixed (index : ModuleIndex) :
      (LocalFix.run index code "line 1" "python").outcome.1 = .ok { code := code } := rfl
  exact (leads_ofNoted (fixed _)).bind (.pure _)

private theorem leads_ask {reply : String} (prompt : String) :
    Leads (Stage i (.text reply :: rs) d) (Model.openai.ask prompt) reply (Stage i rs d) := by
  intro w hw
  obtain ⟨disk, rules, replies⟩ := w
  obtain ⟨hr, ht, hd, hm⟩ := hw
  obtain ⟨rfl, rfl⟩ := Talk.mk.inj ht
  exact ⟨rfl, hr, rfl, hd, hm⟩

theorem leads_unheard (prompt : String) :
    Leads (Stage i [] d) (caught (Model.openai.ask prompt)) (.error (.failed "no more replies"))
      (Stage i [] d) := by
  intro w hw
  obtain ⟨disk, rules, replies⟩ := w
  obtain ⟨hr, ht, hd, hm⟩ := hw
  obtain ⟨rfl, rfl⟩ := Talk.mk.inj ht
  exact ⟨rfl, hr, rfl, hd, hm⟩

theorem asked_turning (b : Bool) : Revision.AskedBy ⟨side b, side !b⟩ {} (turning b) := by
  have asked (old new : String) {reply : String}
      (hpayload : Answer.payload reply = String.ofList (Json.frame
        (Json.escaped old.toList) (Json.escaped new.toList)))
      (hchange : ((⟨old, new⟩ : Replacement).apply old).code = new) :
      Revision.AskedBy ⟨old, new⟩ {} reply := by
    refine ⟨.replacement old new, ?_, rfl, ?_⟩
    · rw [hpayload, Answer.parse_frame_eq, String.ofList_toList, String.ofList_toList]
    · exact (Replacement.applyDatum_single ..).trans (congrArg Except.ok hchange)
  cases b with
  | true => exact asked "a" "b" (by decide) (by decide)
  | false => exact asked "b" "a" (by decide) (by decide)

theorem leads_propose (hreply : Revision.AskedBy ⟨code, new⟩ {} reply) (line : Int) :
    Leads (Stage i (.text reply :: rs) d) (propose .openai .python code "line 1" (some line))
      (.revised new) (Stage i rs d) := by
  obtain ⟨x, hparse, htruthy, hnew⟩ := hreply
  obtain ⟨text, hne, hcontext⟩ := context_first code
  have requested (prompt : String) : Leads (Stage i (.text reply :: rs) d)
      (Model.openai.request prompt) (.data x) (Stage i rs d) := by
    refine (leads_ask prompt).caught.bind (Leads.get_bind fun v hv => ?_)
    have hreader : v.reader = {} := congrArg Talk.reader hv.talk
    rw [hreader, hparse]
    dsimp only
    rw [if_pos htruthy]
    exact .pure _
  have fixed (n : Option Int) : Leads (Stage i (.text reply :: rs) d)
      (Model.openai.fix "line 1" (some text) n "python") (Model.replacements x) (Stage i rs d) :=
    (requested _).bind (.pure _)
  have truthy : (Model.replacements x).truthy = true := by
    cases x <;> first | exact htruthy | rfl
  refine (leads_ofExcept hcontext).bind ?_
  dsimp only
  rw [if_neg hne]
  refine (fixed _).bind ?_
  rw [if_pos truthy]
  refine (leads_ofNoted hnew).bind (Leads.bind (a := ⟨⟩) (fun _ hw => ?_) (.pure _))
  exact ⟨rfl, hw.rules, hw.talk, hw.disk, hw.missingLibraries⟩

private theorem leads_propose_nil (line : Int) :
    Leads (Stage i [] d) (propose .openai .python code "line 1" (some line)) .unanswered
      (Stage i [] d) := by
  obtain ⟨text, hne, hcontext⟩ := context_first code
  have requested (prompt : String) : Leads (Stage i [] d) (Model.openai.request prompt)
      (.failure (.failed "no more replies")) (Stage i [] d) :=
    (leads_unheard prompt).bind (.pure _)
  have fixed (n : Option Int) : Leads (Stage i [] d)
      (Model.openai.fix "line 1" (some text) n "python") (.list []) (Stage i [] d) :=
    (requested _).bind ((leads_say _).bind ((requested _).bind ((leads_say _).bind (.pure _))))
  refine (leads_ofExcept hcontext).bind ?_
  dsimp only
  rw [if_neg hne]
  exact (fixed _).bind (.pure _)

def place : Diagnostic.Target := ⟨"line", 1, "line 1"⟩

def Counted.turned (c : Counted) (code : String) : Counted :=
  { c with stats := { c.stats with modelFixes := c.stats.modelFixes + 1 } }.revise place
    (Diagnostic.kind "line 1") "llm" code

private theorem leads_keep : Leads (Stage i rs d) (keep code new) new (Stage i rs d) :=
  fun _ hw => ⟨rfl, hw.rules, hw.talk, hw.disk, hw.missingLibraries⟩

private theorem leads_countedFix (c : Counted) :
    Leads (Stage i (.text (turning b) :: rs) d)
      (countedFix .openai .python c place (side b) "line 1") (some (c.turned (side !b)))
      (Stage i rs d) := by
  have hchange : (Proposal.revised (side !b)).change? (side b) = some (side !b) := by
    cases b <;> decide
  refine leads_localFix.bind ?_
  refine (leads_propose (asked_turning b) _).bind ?_
  rw [hchange]
  exact leads_keep.bind ((leads_copyFile _).bind (.pure _))

private theorem leads_countedFix_nil (c : Counted) :
    Leads (Stage i [] d) (countedFix .openai .python c place code "line 1") none (Stage i [] d) :=
  leads_localFix.bind ((leads_propose_nil _).bind (.pure _))

/-- With replies for no more repairs than rounds are left, the loop makes just these repairs. -/
private theorem leads_countedLoop {left : Nat} {c : Counted} (h : n ≤ left)
    (hc : c.texts = [("line", side b)]) :
    ∃ (c' : Counted) (b' : Bool), c'.texts = [("line", side b')] ∧
      c'.stats.initial = c.stats.initial ∧ c'.stats.fixed.length = c.stats.fixed.length + n ∧
      Leads (Stage i (turns b n) d) (countedLoop .openai .python .whole "" ["line"] left c) c'
        (Stage i [] d) := by
  induction left generalizing n b c with
  | zero =>
    obtain rfl := Nat.le_zero.mp h
    exact ⟨c, b, hc, rfl, rfl, .pure c⟩
  | succ left ih =>
    obtain ⟨texts, stats, names⟩ := c
    obtain rfl : texts = [("line", side b)] := hc
    let c : Counted :=
      ⟨[("line", side b)], { stats with rounds := ↑(countedRounds - left) }, names⟩
    have located := leads_ofExcept (P := Stage i (turns b n) d) (firstTarget_line (side b))
    cases n with
    | zero =>
      refine ⟨c, b, rfl, rfl, rfl, ?_⟩
      refine (leads_compileScope _).bind (located.bind ((leads_say _).bind ?_))
      exact (leads_countedFix_nil c).bind ((leads_say _).bind (.pure c))
    | succ n =>
      have hturned : (c.turned (side !b)).texts = [("line", side !b)] := rfl
      obtain ⟨c', b', htexts, hinitial, hfixed, rest⟩ := ih (Nat.le_of_succ_le_succ h) hturned
      refine ⟨c', b', htexts, hinitial, ?_, ?_⟩
      · have hcount : (c.turned (side !b)).stats.fixed.length = stats.fixed.length + 1 :=
          List.length_append
        rw [hfixed, hcount, Nat.add_assoc, Nat.add_comm 1]
      · refine (leads_compileScope _).bind (located.bind ((leads_say _).bind ?_))
        exact (leads_countedFix c).bind rest

private theorem leads_countedPhases {saved : String → Disk} (hn : n ≤ countedRounds)
    (hread : d.read "line" false = .ok (side true))
    (hsave : ∀ code, d.write (Path.join "_fixed" "line") code = .ok (saved code)) :
    ∃ (s : Statistics) (code : String), s.initial.length = i ∧ s.fixed.length = n ∧
      Leads (Stage i (turns true n) d) (countedPhases .python .whole "" "_fixed" ["line"]) s
        (Stage i [] (saved code)) := by
  let start : Statistics := { initial := List.replicate i listed, filesProcessed := 1 }
  obtain ⟨c, b, htexts, hinitial, hfixed, loop⟩ :=
    leads_countedLoop (i := i) (d := d) (c := ⟨[("line", side true)], start, []⟩) hn rfl
  have initial : Leads (Stage i (turns true n) d) (initialErrors .python ["line"])
      (List.replicate i listed) (Stage i (turns true n) d) := by
    rw [initialErrors, List.foldlM_cons]
    refine Leads.bind ((leads_readFile hread).bind ?_) (.pure _)
    exact (leads_fileErrors _).bind (.pure _)
  have texts : Leads (Stage i (turns true n) d) (readTexts ["line"]) [("line", side true)]
      (Stage i (turns true n) d) := by
    rw [readTexts, List.foldlM_cons]
    exact Leads.bind ((leads_readFile hread).bind (.pure _)) (.pure _)
  have final : Leads (Stage i [] d) (finalErrors .python c.texts) (List.replicate i listed)
      (Stage i [] d) := by
    rw [htexts, finalErrors, List.foldlM_cons]
    exact Leads.bind ((leads_fileErrors _).bind (.pure _)) (.pure _)
  have written : Leads (Stage i [] d) (saveFiles "_fixed" c.texts) ⟨⟩
      (Stage i [] (saved (side b))) := by
    rw [htexts]
    exact (leads_writeFile (hsave _)).bind (.pure _)
  refine ⟨{ c.stats with final := List.replicate i listed, filesFixed := (sorted c.fixed).length },
    side b, ?_, ?_, ?_⟩
  · rw [hinitial, List.length_replicate]
  · rw [hfixed]
    exact Nat.zero_add n
  · refine (leads_say _).bind (initial.bind ((leads_say _).bind ((leads_say _).bind ?_)))
    refine leads_connect.bind (texts.bind (loop.bind ((leads_say _).bind ?_)))
    refine final.bind (written.bind ?_)
    exact (leads_other (by decide) (by decide)).discard.bind (.pure _)

def unrepaired : Disk := { files := [(["line"], ⟨side true, true⟩)] }

def prepared : Disk := { unrepaired with dirs := [["_fixed"]] }

def repaired (code : String) : Disk :=
  { prepared with files := prepared.files ++ [(["_fixed", "line"], ⟨code, true⟩)] }

private theorem leads_counted (i : Nat) (hn : n ≤ countedRounds) :
    ∃ (s : Statistics) (e : Disk), s.initial.length = i ∧ s.fixed.length = n ∧
      Leads (Stage i (turns true n) unrepaired) (counted "line" none (some "python"))
        (some s.summary) (Stage i [] e) := by
  have hfiles : countedFiles unrepaired "line" (some "python") = (["line"], "", some "python") := by
    decide
  have hout : outputDir "" none = "_fixed" := by decide
  have hmake : unrepaired.makeDirs "_fixed" = .ok prepared := by rfl
  have hread : prepared.read "line" false = .ok (side true) := by rfl
  have hsave (code : String) :
      prepared.write (Path.join "_fixed" "line") code = .ok (repaired code) := by rfl
  have hreport (code text : String) : ∃ e,
      (repaired code).write (Path.join "_fixed" "fix_report.txt") text = .ok e := ⟨_, rfl⟩
  obtain ⟨s, code, hinitial, hfixed, phases⟩ := leads_countedPhases (i := i) hn hread hsave
  obtain ⟨e, he⟩ := hreport code s.report
  have published : Leads (Stage i [] (repaired code))
      (s.publish (some (Path.join "_fixed" "fix_report.txt"))) s.summary (Stage i [] e) :=
    (leads_say _).bind ((leads_writeFile he).bind ((leads_say _).bind (.pure _)))
  have found : Leads (Stage i (turns true n) unrepaired) disk unrepaired
      (Stage i (turns true n) unrepaired) :=
    Leads.get_bind fun w hw => hw.disk ▸ .pure _
  refine ⟨s, e, hinitial, hfixed, found.bind ?_⟩
  rw [hfiles]
  dsimp only
  rw [if_neg (by decide), hout]
  refine (leads_makeDirs hmake).bind ((leads_say _).bind ?_)
  refine (leads_say _).bind ((leads_say _).bind ((leads_say _).bind ((leads_say _).bind ?_)))
  refine leads_setUp.bind (Leads.bind (a := Language.python) (leads_ofExcept rfl) ?_)
  exact phases.bind (published.bind (.pure _))

end Stage

/-- A completed run that counted a number of errors at first and a number of repairs. -/
def Reports (i n : Nat) : Prop :=
  ∃ (input : String) (out lang : Option String) (scope : Scope) (w v : World)
    (summary : Statistics.Summary), Ends (counted input out lang scope) w (some summary) v ∧
      summary.initial = i ∧ summary.fixed = n

/-- Repairs and errors are independent: any number of repairs up to the number of rounds can come
with any number of errors. -/
private theorem reports_iff (i n : Nat) : Reports i n ↔ n ≤ countedRounds := by
  constructor
  · rintro ⟨input, out, lang, scope, w, v, summary, h, -, rfl⟩
    obtain ⟨s, dir, u, hc, -, rfl⟩ := of_counted h
    obtain ⟨d, l, x, -, -, -, -, -, hphases⟩ := of_counting hc
    obtain ⟨hbalanced, hlimit⟩ := balanced_countedPhases hphases
    have hrounds := hbalanced.rounds
    change s.fixed.length ≤ countedRounds
    omega
  · intro hn
    obtain ⟨s, e, hinitial, hfixed, run⟩ := leads_counted i hn
    have hstage : Stage i (turns true n) unrepaired
        { disk := unrepaired, commandRules := failing i, replies := turns true n } :=
      ⟨rfl, rfl, rfl, rfl⟩
    exact ⟨"line", none, some "python", .whole, _, _, s.summary,
      ends_of_result (run _ hstage).1, hinitial, hfixed⟩

/-- The repairs of all runs with a number of errors stay within that number just if it is at least
the number of rounds. -/
theorem repairs_within_errors_iff (i : Nat) : (∀ (input : String) (out lang : Option String)
      (scope : Scope) (w v : World) (summary : Statistics.Summary),
      Ends (counted input out lang scope) w (some summary) v → summary.initial = i →
        summary.fixed ≤ i) ↔ 20 ≤ i := by
  constructor
  · intro h
    obtain ⟨input, out, lang, scope, w, v, summary, hrun, hi, hn⟩ :=
      (reports_iff i countedRounds).mpr (le_refl _)
    have := h input out lang scope w v summary hrun hi
    rwa [hn] at this
  · intro hi input out lang scope w v summary hrun hinitial
    have := (reports_iff i summary.fixed).mp
      ⟨input, out, lang, scope, w, v, summary, hrun, hinitial, rfl⟩
    exact this.trans hi

end Workflow
end Mender
