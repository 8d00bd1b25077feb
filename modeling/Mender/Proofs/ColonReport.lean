import Mender.Proofs.LocalFix
import Mender.Proofs.Trim

/-! What the rules for scripts make of the report that a colon is missing. The report tells the line
in its first row, shows it in the second and says what is wrong in the last. Only rows with a
lowercase `error:` are given to the rules, one at a time, and the last row has none. Main statement:
the colon is put just if the source line itself passes for an error that asks for it. -/
namespace Mender
open Text

namespace Repair

def withColon (code : String) (n : Nat) (line : String) : String :=
  unlines ((lines code).set (n - 1) (trimEnd line ++ ":"))

section Line
variable {code line : String} {n : Nat}

theorem lineAt_of_getElem? {ls : List String} (hn : 1 ≤ n) (h : ls[n - 1]? = some line) :
    lineAt? ls (some (n : Int)) = some (n - 1, line) := by
  have hlen : n - 1 < ls.length := (List.getElem?_eq_some_iff.mp h).1
  have hi : lineIndex? ls.length (some (n : Int)) = some (n - 1) := by
    rw [lineIndex?, if_pos (by omega), Int.toNat_natCast]
  simp only [lineAt?, hi, h, Option.map_some]

private theorem beginsBlock_of_startsWith {body k : String} (hk : k ∈ blockWords)
    (h : startsWith body (k ++ " ") = true) : beginsBlock (trimStart body) = true := by
  have hword : ∀ k ∈ blockWords, k.toList.head?.map isBlank = some false := by decide
  obtain ⟨r, hr⟩ := List.isPrefixOf_iff_prefix.mp h
  obtain ⟨c, cs, hc⟩ : ∃ c cs, k.toList = c :: cs :=
    List.exists_cons_of_ne_nil fun he => by simpa [he] using hword k hk
  have hblank : isBlank c = false := by simpa [hc] using hword k hk
  have htrim : trimStart body = body := by
    rw [trimStart, ← hr, String.toList_append, hc, List.cons_append, List.cons_append,
      List.dropWhile_cons_of_neg (by simp [hblank]), ← List.cons_append, ← List.cons_append, ← hc,
      ← String.toList_append, hr, String.ofList_toList]
  rw [htrim, beginsBlock, List.any_eq_true]
  exact ⟨k, hk, by rw [h]; rfl⟩

theorem missingColon_of_block (hn : 1 ≤ n) (hline : (lines code)[n - 1]? = some line)
    (hblock : ∃ k ∈ blockWords, startsWith (trimEnd line) (k ++ " ") = true)
    (hcolon : endsWith (trimEnd line) ":" = false) :
    (missingColon code (some (n : Int))).code = withColon code n line := by
  obtain ⟨k, hk, hs⟩ := hblock
  have hbegins := beginsBlock_of_startsWith hk hs
  simp only [missingColon, repairLine, changeLine, lineAt_of_getElem? hn hline, hcolon, hbegins,
    Bool.true_or, Bool.false_eq_true, if_false, if_true]
  rfl

theorem withColon_ne (hline : (lines code)[n - 1]? = some line)
    (hcolon : endsWith (trimEnd line) ":" = false) : withColon code n line ≠ code := by
  have hne : trimEnd line ++ ":" ≠ line := by
    intro he
    have hbody : trimEnd (trimEnd line ++ ":") = trimEnd line ++ ":" :=
      trimEnd_append_mark _ (by decide)
    rw [he] at hbody
    rw [hbody, ← he, endsWith_append (trimEnd line) (by decide)] at hcolon
    cases hcolon
  exact unlines_set_lines_ne hline hne

end Line

end Repair

namespace LocalFix
open Noted
variable {H : Prop} {modules : ModuleIndex} {code path shown caret line : String} {n : Nat}

def colonMessage : String := "SyntaxError: expected ':'"

def placeRow (path : String) (n : Nat) : String :=
  "  File \"" ++ path ++ "\", line " ++ toString n

def colonReport (path : String) (n : Nat) (shown caret : String) : String :=
  unlines [placeRow path n, shown, caret, colonMessage]

def IsCaret (row : String) : Prop := ∀ c ∈ row.toList, c = ' ' ∨ c = '^'

instance (row : String) : Decidable (IsCaret row) :=
  List.decidableBAll (fun c => c = ' ' ∨ c = '^') row.toList

private theorem not_contains_placeRow (h : contains path "error:" = false) :
    ∀ row ∈ lines (placeRow path n), contains row "error:" = false := by
  have hpath : ¬ "error:".toList <:+: path.toList := by
    rwa [Bool.eq_false_iff, ne_eq, contains_iff] at h
  have hquote : '"' ∉ "error:".toList := by decide
  have hdigits : 'r' ∉ ", line ".toList ++ Nat.toDigits 10 n := by
    rw [List.mem_append, not_or]
    exact ⟨by decide, fun hr => absurd (isDecimal_toDigits n 'r' hr) (by decide)⟩
  have hplace : (placeRow path n).toList = "  File ".toList ++
      '"' :: (path.toList ++ '"' :: (", line ".toList ++ Nat.toDigits 10 n)) := by
    simp [placeRow]
  intro row hrow
  rw [Bool.eq_false_iff, ne_eq, contains_iff]
  intro hin
  have hwhole := hin.trans (infix_of_mem_lines hrow)
  rw [hplace] at hwhole
  rcases infix_or_infix hquote hwhole with hopen | hwhole
  · exact absurd hopen (by decide)
  · rcases infix_or_infix hquote hwhole with hin | hin
    · exact hpath hin
    · exact hdigits (hin.subset (by decide))

private theorem lines_colonReport (hs : '\n' ∉ shown.toList) (hc : IsCaret caret) :
    lines (colonReport path n shown caret) =
      lines (placeRow path n) ++ [shown, caret, colonMessage] := by
  have hnl : '\n' ∉ caret.toList := fun h => by simpa using hc _ h
  rw [colonReport, unlines_cons _ (by simp), lines_append, unlines_cons _ (by simp), lines_append,
    unlines_cons _ (by simp), lines_append, lines_of_not_mem hs, lines_of_not_mem hnl]
  rfl

private theorem applyRules_append {rules : List Rule} {ls : List String} {s : LocalFix}
    (h : ∀ row ∈ ls, contains row "error:" = false) (rest : List String) :
    applyRules modules rules (ls ++ rest) s = applyRules modules rules rest s := by
  induction ls with
  | nil => rfl
  | cons row ls ih =>
    obtain ⟨hrow, hls⟩ := List.forall_mem_cons.mp h
    rw [List.cons_append, applyRules, if_neg (by simp [hrow]), ih hls]

private theorem run_script (modules : ModuleIndex) (code message : String) :
    run modules code message "python" =
      applyRules modules Rule.scriptRules (lines message) { code := code } := rfl

private theorem run_colonReport (hpath : contains path "error:" = false) (hs : '\n' ∉ shown.toList)
    (hc : IsCaret caret) (n : Nat) (modules : ModuleIndex) (code : String) :
    ∃ t, (run modules code (colonReport path n shown caret) "python").outcome.1 = .ok t ∧
      t.code = (if contains shown "error:" = true then
        (Rule.firstEdit? Rule.scriptRules modules shown code).getD code else code) ∧
      t.applied = (contains shown "error:" &&
        (Rule.firstEdit? Rule.scriptRules modules shown code).isSome) := by
  have hcaret : contains caret "error:" = false :=
    not_contains_of_not_mem (c := 'e') (by decide) fun h => by simpa using hc _ h
  have hlast : ∀ row ∈ [caret, colonMessage], contains row "error:" = false := by
    intro row hrow
    rcases List.mem_pair.mp hrow with rfl | rfl
    · exact hcaret
    · decide
  have hend (s : LocalFix) :
      applyRules modules Rule.scriptRules [caret, colonMessage] s = pure s :=
    applyRules_append hlast []
  rw [run_script, lines_colonReport hs hc, applyRules_append (not_contains_placeRow hpath),
    applyRules]
  cases hshown : contains shown "error:" with
  | true =>
    rw [if_pos rfl]
    refine Gives.exists (H := True) (Gives.bind (gives_applyFirst shown Rule.scriptRules _)
      fun t ht => ?_) trivial
    rw [hend]
    exact .pure ht
  | false =>
    rw [if_neg (by decide), hend]
    exact ⟨_, rfl, rfl, rfl⟩

private theorem edit?_colonMessage {r : Rule} (h : r.remedy = some (.atLine Repair.missingColon)) :
    r.edit? modules colonMessage code = none := by
  have hn : Diagnostic.lineNumber colonMessage = .ok none := by decide +kernel
  have happly (found : Pattern.Found) :
      (Remedy.atLine Repair.missingColon).apply ⟨found, colonMessage, code, modules⟩ =
        .ok (.keep code) := by
    simp only [Remedy.atLine, Remedy.atLineOrFail, hn]
    rfl
  rw [Rule.edit?, h]
  cases r.pattern.search colonMessage with
  | none => rfl
  | some found =>
    simp only [Option.bind_eq_bind, Option.bind_some, happly]
    exact if_pos rfl

/-- At a line that opens a block and lacks its colon, the report leads to the colon just if the row
that shows the line passes for an error and the first rule to act on that row puts the colon there;
with no `error:` in that row nothing is repaired. The repair itself would put the colon, but the row
that asks for it tells no line. -/
theorem colon_put_iff (hn : 1 ≤ n) (hline : (lines code)[n - 1]? = some line)
    (hblock : ∃ k ∈ Repair.blockWords, startsWith (trimEnd line) (k ++ " ") = true)
    (hcolon : endsWith (trimEnd line) ":" = false) (hpath : contains path "error:" = false)
    (hshown : '\n' ∉ shown.toList) (hcaret : IsCaret caret) (modules : ModuleIndex) :
    ∃ t, (run modules code (colonReport path n shown caret) "python").outcome.1 = .ok t ∧
      (t.code = Repair.withColon code n line ∧ t.applied = true ↔
        contains shown "error:" = true ∧
          Rule.firstEdit? Rule.scriptRules modules shown code =
            some (Repair.withColon code n line)) ∧
      (contains shown "error:" = false → t.code = code ∧ t.applied = false) ∧
      (Repair.missingColon code (some (n : Int))).code = Repair.withColon code n line ∧
      Repair.withColon code n line ≠ code ∧
      ∀ r : Rule, r.remedy = some (.atLine Repair.missingColon) →
        r.edit? modules colonMessage code = none := by
  obtain ⟨t, ht, hc, ha⟩ := run_colonReport hpath hshown hcaret n modules code
  have hput := Repair.missingColon_of_block hn hline hblock hcolon
  have hne := Repair.withColon_ne hline hcolon
  refine ⟨t, ht, ?_, fun hs => ?_, hput, hne, fun r hr => edit?_colonMessage hr⟩
  · cases hs : contains shown "error:" with
    | false => simp [ha, hs]
    | true =>
      rw [hs, Bool.true_and] at ha
      rw [if_pos hs] at hc
      cases hf : Rule.firstEdit? Rule.scriptRules modules shown code with
      | none => simp [ha, hf]
      | some new => simp [ha, hc, hf]
  · rw [hs] at hc ha
    exact ⟨hc, ha⟩

/-- A block head is left without its colon. -/
theorem colon_not_put :
    colonReport "/workspace/a.py" 1 "    if x" "        ^" =
        "  File \"/workspace/a.py\", line 1\n    if x\n        ^\nSyntaxError: expected ':'" ∧
      Repair.withColon "if x\n    pass" 1 "if x" = "if x:\n    pass" ∧
      ∃ t, (run [] "if x\n    pass" (colonReport "/workspace/a.py" 1 "    if x" "        ^")
          "python").outcome.1 = .ok t ∧
        t.code = "if x\n    pass" ∧ t.applied = false := by
  have hline : (lines "if x\n    pass")[1 - 1]? = some "if x" := by decide
  have hpath : contains "/workspace/a.py" "error:" = false := by decide
  have hshown : '\n' ∉ "    if x".toList := by decide
  have hcaret : IsCaret "        ^" := by decide
  obtain ⟨t, ht, -, hs, -⟩ := colon_put_iff le_rfl hline ⟨"if", by decide⟩ (by decide) hpath hshown
    hcaret []
  exact ⟨by decide, by decide, t, ht, hs (by decide)⟩

end LocalFix

end Mender
