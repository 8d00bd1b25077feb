import Mender.Proofs.Agreement
import Mender.Proofs.ColonReport
import Mender.Proofs.FixItText
import Mender.Proofs.Parenthesis

/-! What the rules for Java make of the report that a parenthesis is expected. The compiler writes
the parenthesis in quotes, and the rule for it asks for a parenthesis right before the blank. Main
statement: no rule fits the report and the line is left open, though the repair would close it, and
the report without the quotes leads to that repair. -/
namespace Mender
open Text

namespace Pattern

def single? : Pattern → Option Char
  | .char (.literal c) => some c
  | _ => none

/-- The runs of single characters in the sequence of a pattern; the first one goes on from `run`. -/
def runs (run : List Char) : Pattern → List (List Char)
  | .seq a b =>
    match a.single? with
    | some c => runs (run ++ [c]) b
    | none => run :: runs [] b
  | p => [run ++ p.single?.toList]

section Runs
variable {p : Pattern} {s t : Cursor} {run w : List Char}

private theorem Matches.rest_of_single {c : Char} (h : p.Matches s t) (hp : p.single? = some c) :
    s.rest = c :: t.rest := by
  unfold single? at hp
  split at hp
  · obtain rfl := Option.some.inj hp
    obtain ⟨x, hx, hr⟩ := matches_char.mp h
    obtain rfl : x = _ := by simpa [CharClass.holds] using hx
    exact hr.rest
  · cases hp

private theorem Matches.infix_of_mem_runs (h : p.Matches s t) (hw : w ∈ p.runs run) :
    w <:+: run ++ s.rest := by
  have hlast {s : Cursor} {run : List Char} {q : Pattern} (hq : q.Matches s t)
      (hw : w ∈ [run ++ q.single?.toList]) : w <:+: run ++ s.rest := by
    rw [List.mem_singleton.mp hw]
    cases hc : q.single? with
    | none => exact List.IsPrefix.isInfix ⟨s.rest, by simp⟩
    | some c => exact List.IsPrefix.isInfix ⟨t.rest, by simp [hq.rest_of_single hc]⟩
  induction p generalizing s run with
  | seq a b _ hb =>
    obtain ⟨u, hu, ht⟩ := h
    unfold runs at hw
    cases hc : a.single? with
    | some c =>
      rw [hc] at hw
      have hlater := hb ht hw
      rwa [List.append_assoc, List.singleton_append, ← hu.rest_of_single hc] at hlater
    | none =>
      rw [hc] at hw
      rcases List.mem_cons.mp hw with rfl | hw
      · exact (List.prefix_append ..).isInfix
      · obtain ⟨v, hv⟩ := hu.passes
        rw [hv.rest]
        exact (hb ht hw).trans ((List.suffix_append ..).trans (List.suffix_append ..)).isInfix
  | _ => exact hlast h hw

theorem search_eq_none_of_run {text : String} (hw : w ∈ p.runs []) (h : ¬ w <:+: text.toList) :
    p.search text = none := by
  cases hs : p.search text with
  | none => rfl
  | some m =>
    obtain ⟨pre, u, t, htext, -, ht, -⟩ := search_eq_some hs
    exact absurd ((ht.infix_of_mem_runs hw).trans (htext ▸ (List.suffix_append ..).isInfix)) h

theorem search_text_ne_none {text : String} {pre post : List Char}
    (h : text.toList = pre ++ (w ++ post)) :
    (Pattern.text (String.ofList w)).search text ≠ none := by
  intro hnone
  have hat := matchAt_of_search_eq_none hnone h
  rw [matchAt_eq, run_text, run_spelled rfl] at hat
  cases hat

end Runs

end Pattern

namespace LocalFix
open Pattern
variable {file what code line : String} {n : Nat} {modules : ModuleIndex} {u v a b : List Char}

def expects (file : String) (n : Nat) (what : String) : String :=
  s!"{file}:{n}: error: {what} expected"

def IsPlainFile (file : String) : Prop := ∀ c ∈ file.toList, c ≠ ':' ∧ isBlank c = false

def placeOf (file : String) (n : Nat) : List Char :=
  file.toList ++ ':' :: (Nat.toDigits 10 n ++ [':'])

theorem expects_toList (file : String) (n : Nat) (what : String) : (expects file n what).toList =
    placeOf file n ++
      ' ' :: ("error:".toList ++ ' ' :: (what.toList ++ ' ' :: "expected".toList)) := by
  change (file ++ ":" ++ toString n ++ ": error: " ++ what ++ " expected").toList = _
  simp [placeOf]

private theorem mark_cases {c : Char} {r : List Char} (ha : c ∉ a) (h : a ++ c :: r = u ++ c :: v) :
    u = a ∨ ∃ w, u = a ++ c :: w ∧ r = w ++ c :: v := by
  rcases List.append_eq_append_iff.mp h with ⟨w, rfl, hw⟩ | ⟨w, rfl, hw⟩
  · cases w with
    | nil => exact .inl (List.append_nil a)
    | cons d w =>
      obtain ⟨rfl, rfl⟩ := List.cons.inj hw
      exact .inr ⟨w, rfl, rfl⟩
  · cases w with
    | nil => exact .inl (List.append_nil u).symm
    | cons d w =>
      obtain ⟨rfl, -⟩ := List.cons.inj hw
      simp at ha

private theorem behind_of_blank (hf : IsPlainFile file) (hw : ' ' ∉ what.toList)
    (h : (expects file n what).toList = u ++ ' ' :: v) :
    [':'] <:+ u ∨ ' ' :: what.toList <:+ u := by
  have hplace : ' ' ∉ placeOf file n := by
    simp only [placeOf, List.mem_append, List.mem_cons, List.not_mem_nil, or_false]
    rintro (hm | hm | hm | hm)
    · exact absurd (hf _ hm).2 (by decide)
    · exact absurd hm (by decide)
    · exact absurd (isDecimal_toDigits n _ hm) (by decide)
    · exact absurd hm (by decide)
  have herror : ' ' ∉ "error:".toList := by decide
  rw [expects_toList] at h
  rcases mark_cases hplace h with rfl | ⟨x, rfl, hx⟩
  · exact .inl ⟨file.toList ++ ':' :: Nat.toDigits 10 n, by simp [placeOf]⟩
  rcases mark_cases herror hx with rfl | ⟨y, rfl, hy⟩
  · exact .inl ⟨placeOf file n ++ ' ' :: "error".toList, by simp⟩
  rcases mark_cases hw hy with rfl | ⟨z, rfl, hz⟩
  · exact .inr ⟨placeOf file n ++ ' ' :: "error:".toList, by simp⟩
  · have hlast : ' ' ∈ "expected".toList := hz ▸ List.mem_append_right z List.mem_cons_self
    exact absurd hlast (by decide)

def isForeign (what a : List Char) : Bool :=
  !([':'].isSuffixOf a || a.isSuffixOf (' ' :: what) || (' ' :: what).isSuffixOf a)

theorem not_infix_of_foreign (hf : IsPlainFile file) (hw : ' ' ∉ what.toList)
    (ha : isForeign what.toList a = true) : ¬ a ++ ' ' :: b <:+: (expects file n what).toList := by
  simp only [isForeign, Bool.not_eq_true', ← Bool.not_eq_true, Bool.or_eq_true, not_or,
    List.isSuffixOf_iff_suffix] at ha
  obtain ⟨⟨hcolon, hshort⟩, hlong⟩ := ha
  rintro ⟨x, y, hxy⟩
  have hblank : (expects file n what).toList = (x ++ a) ++ ' ' :: (b ++ y) := by simp [← hxy]
  have hend : a <:+ x ++ a := List.suffix_append x a
  rcases behind_of_blank hf hw hblank with h | h
  · rcases List.suffix_or_suffix_of_suffix h hend with h | h
    · exact hcolon h
    · -- less than the colon is nothing, and every text ends with that
      rcases List.suffix_cons_iff.mp h with rfl | h
      · exact hcolon (List.suffix_refl _)
      · exact hshort (List.suffix_nil.mp h ▸ List.nil_suffix)
  · exact (List.suffix_or_suffix_of_suffix h hend).elim hlong hshort

def isUnfit (what : List Char) (p : Pattern) : Bool :=
  (p.runs []).any fun run => run.contains ' ' && isForeign what (run.takeWhile (· != ' '))

theorem search_of_unfit {p : Pattern} (hf : IsPlainFile file) (hw : ' ' ∉ what.toList)
    (hp : isUnfit what.toList p = true) : p.search (expects file n what) = none := by
  obtain ⟨run, hrun, hfirst⟩ := List.any_eq_true.mp hp
  obtain ⟨hblank, hforeign⟩ := Bool.and_eq_true_iff.mp hfirst
  obtain ⟨x, y, rfl, hx⟩ := List.eq_append_cons_of_mem (List.contains_iff_mem.mp hblank)
  have htake : (x ++ ' ' :: y).takeWhile (· != ' ') = x := by
    have hbefore : ∀ c ∈ x, (c != ' ') = true := fun c hc => bne_iff_ne.mpr fun he => hx (he ▸ hc)
    rw [List.takeWhile_append_of_pos hbefore]
    simp
  rw [htake] at hforeign
  exact search_eq_none_of_run hrun (not_infix_of_foreign hf hw hforeign)

theorem run_expects (hf : IsPlainFile file) (hw : ' ' ∉ what.toList) (hl : Unbroken what)
    (hb : isForeign what.toList "before".toList = true) (n : Nat) (modules : ModuleIndex)
    (code : String) : run modules code (expects file n what) "java" =
      applyFirst modules (expects file n what) Rule.javaRules { code := code } >>= pure := by
  have hbefore : contains (expects file n what) "before '" = false := by
    rw [Bool.eq_false_iff, ne_eq, contains_iff]
    exact not_infix_of_foreign hf hw hb (b := ['\''])
  have herror : contains (expects file n what) "error:" = true := by
    rw [contains_iff, expects_toList]
    exact ⟨placeOf file n ++ [' '], ' ' :: (what.toList ++ ' ' :: "expected".toList), by simp⟩
  have hfeed : '\n' ∉ (expects file n what).toList := by
    simp only [expects_toList, placeOf, List.mem_append, List.mem_cons, List.not_mem_nil, or_false,
      not_or]
    refine ⟨⟨fun hm => ?_, by decide, fun hm => ?_, by decide⟩, by decide, by decide, by decide,
      hl, by decide, by decide⟩
    · exact absurd (hf _ hm).2 (by decide)
    · exact absurd (isDecimal_toDigits n _ hm) (by decide)
  have hrules : run modules code (expects file n what) "java" =
      applyRules modules Rule.javaRules (lines (expects file n what)) { code := code } :=
    if_neg (by simp [hbefore])
  rw [hrules, lines_of_not_mem hfeed, applyRules, if_pos herror]
  rfl

theorem applyFirst_of_not_found {message : String} {rules : List Rule}
    (h : ∀ r ∈ rules, r.pattern.search message = none) (s : LocalFix) :
    applyFirst modules message rules s = pure s := by
  induction rules with
  | nil => rfl
  | cons r rules ih =>
    obtain ⟨hr, hrs⟩ := List.forall_mem_cons.mp h
    unfold applyFirst
    rw [hr]
    cases r.remedy <;> exact ih hrs

private theorem unfit_javaRules : (Rule.javaRules.map (·.pattern)).all
    (isUnfit "')'".toList) = true := by
  decide +kernel

theorem search_javaRules (hf : IsPlainFile file) (n : Nat) :
    ∀ r ∈ Rule.javaRules, r.pattern.search (expects file n "')'") = none := by
  intro r hr
  exact search_of_unfit hf (by decide)
    (List.all_eq_true.mp unfit_javaRules _ (List.mem_map_of_mem hr))

def parenRule : Rule := .fix "\\) expected" (.atLine (Repair.missingParen · · ")"))

def closedAt (code : String) (n : Nat) (line : String) : String :=
  unlines ((lines code).set (n - 1) (trimEnd line ++ ")"))

theorem closedAt_ne (hline : (lines code)[n - 1]? = some line) : closedAt code n line ≠ code := by
  refine unlines_set_lines_ne hline fun he => ?_
  have hbody : trimEnd (trimEnd line ++ ")") = trimEnd line ++ ")" :=
    trimEnd_append_mark _ (by decide)
  rw [he] at hbody
  have hlen := congrArg length (hbody.trans he.symm)
  simp [length] at hlen

theorem missingParen_of_open (hn : 1 ≤ n) (hline : (lines code)[n - 1]? = some line)
    (hbrace : '\x7b' ∉ (trimEnd line).toList) (hopen : ¬ Repair.Ended (trimEnd line).toList) :
    (Repair.missingParen code (some (n : Int)) ")").code = closedAt code n line := by
  have hparen : Repair.withParen ")" line = some (trimEnd line ++ ")") :=
    (Repair.withParen_orderly (Repair.orderly_of_not_mem hbrace)).mpr ⟨hopen, rfl⟩
  simp only [Repair.missingParen, changeLine, Repair.lineAt_of_getElem? hn hline, hparen]
  rfl

private theorem lineNumber_expects (hf : IsPlainFile file) (hn : Diagnostic.Legible n)
    (what : String) : Diagnostic.lineNumber (expects file n what) = .ok (some (n : Int)) := by
  have htext : (expects file n what).toList = file.toList ++ (':' :: [] ++ (Nat.toDigits 10 n ++
      ':' :: (' ' :: ("error:".toList ++ ' ' :: (what.toList ++ ' ' :: "expected".toList))))) := by
    rw [expects_toList]
    simp [placeOf]
  have hfirst := firstEnclosed_of_not_mem (c := .digit) htext (fun hm => (hf _ hm).1 rfl)
    ⟨Nat.toDigits_ne_nil, isDecimal_toDigits n⟩
  rw [Repair.lineNumber_of_enclosed hfirst, Diagnostic.readNumber_toDigits.mpr ⟨hn, rfl⟩]
  rfl

private theorem firstEdit_unquoted (hf : IsPlainFile file) (hlegible : Diagnostic.Legible n)
    (hn : 1 ≤ n)
    (hline : (lines code)[n - 1]? = some line) (hbrace : '\x7b' ∉ (trimEnd line).toList)
    (hopen : ¬ Repair.Ended (trimEnd line).toList) (modules : ModuleIndex) :
    Rule.firstEdit? Rule.javaRules modules (expects file n ")") code =
      some (closedAt code n line) := by
  have hedit : parenRule.edit? modules (expects file n ")") code = some (closedAt code n line) := by
    have hform : parenRule.pattern = Pattern.text (String.ofList ") expected".toList) := by decide
    have htext : (expects file n ")").toList =
        (placeOf file n ++ " error: ".toList) ++ (") expected".toList ++ []) := by
      rw [expects_toList]
      simp
    obtain ⟨found, hfound⟩ := Option.ne_none_iff_exists'.mp (search_text_ne_none htext)
    rw [← hform] at hfound
    rw [Rule.edit?_eq_some_iff]
    refine ⟨_, found, Repair.missingParen code (some (n : Int)) ")", rfl, hfound, ?_,
      missingParen_of_open hn hline hbrace hopen, closedAt_ne hline⟩
    simp only [Remedy.atLine, Remedy.atLineOrFail, lineNumber_expects hf hlegible]
    rfl
  have htable : Rule.javaRules = Rule.javaRules.take 3 ++ parenRule :: Rule.javaRules.drop 4 := rfl
  have hfirst : ((Rule.javaRules.take 3).map (·.pattern)).all (isUnfit ")".toList) = true := by
    decide +kernel
  have hnone : (Rule.javaRules.take 3).findSome? (·.edit? modules (expects file n ")") code) =
      none := by
    rw [List.findSome?_eq_none_iff]
    intro r hr
    rw [Rule.edit?_eq_none_iff]
    rintro new ⟨remedy, found, e, -, hfound, -⟩
    have hunfit := List.all_eq_true.mp hfirst _ (List.mem_map_of_mem hr)
    rw [search_of_unfit hf (by decide) hunfit] at hfound
    cases hfound
  rw [Rule.firstEdit?, htable, List.findSome?_append, hnone, Option.none_or, List.findSome?_cons,
    hedit]

/-- A line without a brace that ends with neither a parenthesis nor a semicolon is left open by the
report that a parenthesis is expected there. No rule fits the report, so nothing is changed or
noted. The repair for it would close the line, and the report without the quotes leads to that. -/
theorem quoted_parenthesis_left_open (hf : IsPlainFile file) (hn : 1 ≤ n)
    (hline : (lines code)[n - 1]? = some line) (hbrace : '\x7b' ∉ (trimEnd line).toList)
    (hopen : ¬ Repair.Ended (trimEnd line).toList) (modules : ModuleIndex) :
    (run modules code (expects file n "')'") "java").outcome = (.ok { code := code }, []) ∧
      (∀ r ∈ Rule.javaRules, r.pattern.search (expects file n "')'") = none) ∧
      closedAt code n line ≠ code ∧
      (Repair.missingParen code (some (n : Int)) ")").code = closedAt code n line ∧
      (Diagnostic.Legible n → ∃ t,
        (run modules code (expects file n ")") "java").outcome.1 = .ok t ∧
          t.code = closedAt code n line ∧ t.applied = true) := by
  have hnone := search_javaRules hf n
  refine ⟨?_, hnone, closedAt_ne hline, missingParen_of_open hn hline hbrace hopen,
    fun hlegible => ?_⟩
  · rw [run_expects hf (by decide) (by decide) (by decide), applyFirst_of_not_found hnone]
    rfl
  · rw [run_expects hf (by decide) (by decide) (by decide)]
    refine Noted.Gives.exists (H := True) (Noted.Gives.bind (gives_applyFirst _ _ _)
      fun t ht => ?_) trivial
    rw [firstEdit_unquoted hf hlegible hn hline hbrace hopen] at ht
    exact .pure ht

/-- A call stays open after the compiler's report, and is closed after the one without quotes. -/
theorem call_left_open :
    expects "F.java" 1 "')'" = "F.java:1: error: ')' expected" ∧
      closedAt "int x = f(1" 1 "int x = f(1" = "int x = f(1)" ∧
      (run [] "int x = f(1" (expects "F.java" 1 "')'") "java").outcome =
        (.ok { code := "int x = f(1" }, []) ∧
      ∃ t, (run [] "int x = f(1" (expects "F.java" 1 ")") "java").outcome.1 = .ok t ∧
        t.code = "int x = f(1)" ∧ t.applied = true := by
  have hf : IsPlainFile "F.java" := forall_mem_of_all (by decide)
  have hline : (lines "int x = f(1")[1 - 1]? = some "int x = f(1" := by decide
  have hopen : ¬ Repair.Ended (trimEnd "int x = f(1").toList := by
    rintro (h | h) <;> exact absurd h (by decide)
  obtain ⟨hkept, -, -, -, hclosed⟩ :=
    quoted_parenthesis_left_open hf le_rfl hline (by decide) hopen []
  exact ⟨by decide, by decide, hkept, hclosed (by decide)⟩

end LocalFix

end Mender
