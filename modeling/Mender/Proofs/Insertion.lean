import Mender.Proofs.Agreement
import Mender.Proofs.Suggestion
import Mathlib.Data.List.InsertIdx

/-! Repairs that put a line of their own into a text: inclusions of headers, imports, declarations
of classes and results of functions. Each looks for its place in its own way. Main statement: all
lines of the text stay in their order, at most one line comes in, and the guard of the repair finds
it there the next time. -/
namespace Mender.Repair
open Text

def GainsLine (code new : String) : Prop :=
  ∃ i l, i ≤ (lines code).length ∧ lines new = (lines code).insertIdx i l

/-- A repair puts at most one line into a text, and none into what it has made. -/
structure InsertsOnce (repair : String → Edit) : Prop where
  inserts : ∀ code, (repair code).code = code ∨ GainsLine code (repair code).code
  settles : ∀ code, (repair (repair code).code).code = (repair code).code

theorem lines_insertIdx (code : String) (i : Nat) {l : String} (hl : Unbroken l) :
    lines (unlines ((lines code).insertIdx i l)) = (lines code).insertIdx i l := by
  apply lines_unlines
  · intro h
    have hrows := List.sublist_insertIdx (lines code) i l
    rw [h] at hrows
    exact lines_ne_nil code (List.sublist_nil.mp hrows)
  · intro row hr
    rcases List.eq_or_mem_of_mem_insertIdx hr with rfl | hr
    · exact hl
    · exact not_mem_of_mem_lines hr

theorem afterLast_le (p : String → Bool) (ls : List String) : afterLast p ls ≤ ls.length :=
  Nat.sub_le _ _

section Guarded
variable {statement : String} {position : List String → Nat} {notes : List String}

theorem insertsOnce_keep : InsertsOnce .keep := ⟨fun _ => .inl rfl, fun _ => rfl⟩

theorem insertsOnce_unless {guard : String → Bool} (hs : Unbroken statement)
    (hp : ∀ ls, position ls ≤ ls.length)
    (hguard : ∀ code, statement.toList <:+: code.toList → guard code = true) :
    InsertsOnce fun code => if guard code then .keep code
      else .ofLines ((lines code).insertIdx (position (lines code)) statement) notes := by
  constructor
  · intro code
    cases hg : guard code with
    | true => exact .inl rfl
    | false => exact .inr ⟨_, statement, hp _, lines_insertIdx code _ hs⟩
  · intro code
    cases hg : guard code with
    | true => simp only [hg, if_true, Edit.keep]
    | false =>
      have hnew : guard (unlines ((lines code).insertIdx (position (lines code)) statement)) =
          true := by
        apply hguard
        apply infix_of_mem_lines
        rw [lines_insertIdx code _ hs]
        exact (List.mem_insertIdx (hp _)).mpr (.inl rfl)
      simp only [Bool.false_eq_true, if_false, Edit.ofLines, hnew, if_true, Edit.keep]

theorem insertsOnce_statement (hs : Unbroken statement) (hp : ∀ ls, position ls ≤ ls.length) :
    InsertsOnce fun code => if contains code statement then .keep code
      else .ofLines ((lines code).insertIdx (position (lines code)) statement) notes :=
  insertsOnce_unless hs hp fun _ => contains_iff.mpr

end Guarded

section Message
variable {message : String}

theorem unbroken_of_lookup {table : List (String × String)} (h : ∀ e ∈ table, Unbroken e.2)
    {name entry : String} (hentry : table.lookup name = some entry) : Unbroken entry := by
  obtain ⟨front, rest, rfl, -⟩ := List.lookup_eq_some_iff.mp hentry
  exact h (name, entry) (List.mem_append_right front List.mem_cons_self)

theorem insertsOnce_includeNamed (named : Pattern) {headers : List (String × String)}
    {position : List String → Nat} (hh : headers.all (fun e => '\n' ∉ e.2.toList) = true)
    (hp : ∀ ls, position ls ≤ ls.length) (message : String) :
    InsertsOnce (includeNamed named headers position · message) := by
  unfold includeNamed
  cases named.search message with
  | none => exact insertsOnce_keep
  | some m =>
    cases hheader : headers.lookup (m.group 1) with
    | none => simpa only [hheader] using insertsOnce_keep
    | some header =>
      have hline := unbroken_of_lookup (forall_mem_of_all hh) hheader
      simp only [hheader]
      exact insertsOnce_statement (Unbroken.append (by decide) hline) hp

private theorem unbroken_className {m : Pattern.Found}
    (h : undeclaredClassName.search message = some m) : Unbroken (m.group 1) := by
  have hform : undeclaredClassName = Pattern.framed .word 1 "'" "' has not been declared" := by
    decide +kernel
  obtain ⟨pre, u, t, -, -, ht, hg⟩ := Pattern.search_eq_some h
  rw [hform] at ht
  obtain ⟨w, -, hw, -, hgroups⟩ := Pattern.matches_framed ht
  have hname : m.group 1 = String.ofList w := by
    simp [Pattern.Found.group, Pattern.Found.group?, hg, hgroups]
  rw [hname, Unbroken, String.toList_ofList]
  intro hfeed
  exact absurd (hw _ hfeed) (by decide)

theorem insertsOnce_declareClass (message : String) : InsertsOnce (declareClass · message) := by
  unfold declareClass
  cases hm : undeclaredClassName.search message with
  | none => exact insertsOnce_keep
  | some m =>
    have hs : Unbroken ("class " ++ m.group 1 ++ " \x7b\x7d;") :=
      (Unbroken.append (by decide) (unbroken_className hm)).append (by decide)
    refine insertsOnce_unless hs (afterLast_le _) fun code hin => ?_
    rw [Bool.or_eq_true]
    left
    apply contains_iff.mpr
    refine List.IsInfix.trans ?_ hin
    change ("class " ++ m.group 1).toList <:+: ("class " ++ m.group 1 ++ " \x7b\x7d;").toList
    rw [String.toList_append (t := " \x7b\x7d;")]
    exact (List.prefix_append _ _).isInfix

theorem insertsOnce_importSymbol {n : Option Int} (hn : Diagnostic.lineNumber message = .ok n) :
    ∃ repair, (∀ code, importSymbol code message = .ok (repair code)) ∧ InsertsOnce repair := by
  cases hgiven : Diagnostic.given n with
  | none =>
    refine ⟨.keep, fun code => ?_, insertsOnce_keep⟩
    simp only [importSymbol, hn, hgiven, bind, Except.bind, pure, Except.pure]
  | some k =>
    cases hm : symbolName.search message with
    | none =>
      refine ⟨.keep, fun code => ?_, insertsOnce_keep⟩
      simp only [importSymbol, hn, hgiven, hm, bind, Except.bind, pure, Except.pure]
    | some m =>
      cases hstatement : commonImports.lookup (m.group 1) with
      | none =>
        refine ⟨.keep, fun code => ?_, insertsOnce_keep⟩
        simp only [importSymbol, hn, hgiven, hm, hstatement, bind, Except.bind, pure, Except.pure]
      | some statement =>
        have hs := unbroken_of_lookup (forall_mem_of_all (by decide)) hstatement
        have hmade (code : String) : importSymbol code message =
            .ok (if contains code statement then .keep code
              else .ofLines ((lines code).insertIdx (afterLast (fun l =>
                startsWith (trim l) "package " || startsWith (trim l) "import ") (lines code))
                statement)
                [repairNote s!"添加 {statement}"]) := by
          simp only [importSymbol, hn, hgiven, hm, hstatement, bind, Except.bind, pure, Except.pure]
          cases contains code statement <;> rfl
        exact ⟨_, hmade, insertsOnce_statement hs (afterLast_le _)⟩

end Message

section Result
variable {value : String}

private theorem mem_trim {s : String} {c : Char} (h : c ∈ s.toList) (hc : isBlank c = false) :
    c ∈ (trim s).toList := by
  obtain ⟨as, bs, ha, hb, hs⟩ := exists_trim s
  rw [hs, List.mem_append, List.mem_append] at h
  rcases h with (h | h) | h
  · rw [ha c h] at hc
    cases hc
  · exact h
  · rw [hb c h] at hc
    cases hc

theorem trim_return_ne (width : Nat) (value : String) :
    trim (indented width s!"    return {value};") ≠ "\x7d" := by
  intro h
  have hmem : 'r' ∈ (trim (indented width s!"    return {value};")).toList := by
    apply mem_trim
    · rw [indented, String.toList_append]
      apply List.mem_append_right
      change 'r' ∈ ("    return " ++ value ++ ";").toList
      rw [String.toList_append, String.toList_append, List.append_assoc]
      exact List.mem_append_left _ (by decide)
    · decide
  rw [h] at hmem
  exact absurd hmem (by decide)

private theorem insertReturn_cases (code : String) (n : Option Int) (value : String) :
    insertReturn code n value = .keep code ∨
      ∃ i line, lineAt? (lines code) n = some (i, line) ∧ (insertReturn code n value).code =
        unlines ((lines code).insertIdx i
          (indented (indentWidth line) s!"    return {value};")) := by
  cases hat : lineAt? (lines code) n with
  | none =>
    left
    simp only [insertReturn, hat]
  | some found =>
    obtain ⟨i, line⟩ := found
    by_cases hbrace : trim line = "\x7d"
    · refine .inr ⟨i, line, rfl, ?_⟩
      simp only [insertReturn, hat, hbrace, if_true, Edit.ofLines]
    · left
      simp only [insertReturn, hat, hbrace, if_false]

theorem insertsOnce_insertReturn (n : Option Int) (hv : Unbroken value) :
    InsertsOnce (insertReturn · n value) := by
  have hline (width : Nat) : Unbroken (indented width s!"    return {value};") :=
    unbroken_indented width ((Unbroken.append (by decide) hv).append (by decide))
  constructor
  · intro code
    rcases insertReturn_cases code n value with h | ⟨i, line, hat, h⟩
    · exact .inl (congrArg Edit.code h)
    · have hi := (List.getElem?_eq_some_iff.mp (lineAt_eq_some.mp hat).2).1
      exact .inr ⟨i, _, hi.le, h ▸ lines_insertIdx code i (hline _)⟩
  · intro code
    rcases insertReturn_cases code n value with h | ⟨i, line, hat, h⟩
    · rw [h]
      exact congrArg Edit.code h
    · -- the line with the number is now the one that came in
      obtain ⟨rfl, hi⟩ := lineAt_eq_some.mp hat
      have hlen := (List.getElem?_eq_some_iff.mp hi).1
      have hagain : lineAt? (lines (insertReturn code (some (i + 1)) value).code) (some (i + 1)) =
          some (i, indented (indentWidth line) s!"    return {value};") := by
        rw [h, lines_insertIdx code i (hline _)]
        refine lineAt_eq_some.mpr ⟨rfl, ?_⟩
        rw [List.getElem?_insertIdx_self, if_pos hlen.le]
      generalize (insertReturn code (some (i + 1)) value).code = made at hagain ⊢
      simp only [insertReturn, hagain, trim_return_ne, if_false, Edit.keep]

end Result

section Number
variable {message digits : String}

private theorem lineNumber_of_legible
    (h : ∀ digits, Diagnostic.placeDigits? (lines message) = some digits → length digits ≤ 4300) :
    ∃ n, Diagnostic.lineNumber message = .ok n := by
  rw [Diagnostic.lineNumber_eq]
  cases hd : Diagnostic.placeDigits? (lines message) with
  | none => exact ⟨none, rfl⟩
  | some digits =>
    refine ⟨some (digitsValue digits.toList), ?_⟩
    rw [Option.elim_some, readNumber, if_pos (h digits hd)]
    rfl

theorem importSymbol_of_error {fault : Fault} (h : Diagnostic.lineNumber message = .error fault)
    (code : String) : importSymbol code message = .error fault := by
  simp only [importSymbol, h, bind, Except.bind]

end Number

/-- Each of the repairs puts at most one line into a text and none into what it has made, whatever
the message and the line number. The import of a symbol does so too if the line that the message
points to is written with digits that can be read, and otherwise it gives no text at all. -/
theorem insertions_put_one_line (message : String) (n : Option Int) :
    (∀ repair ∈ [includeForFunction, includeForType, declareClass],
      InsertsOnce (repair · message)) ∧
    (∀ repair ∈ [returnNull, returnZero], InsertsOnce (repair · n)) ∧
    ((∀ digits, Diagnostic.placeDigits? (lines message) = some digits → length digits ≤ 4300) →
      ∃ repair, (∀ code, importSymbol code message = .ok (repair code)) ∧ InsertsOnce repair) ∧
    ∀ digits, Diagnostic.placeDigits? (lines message) = some digits → 4300 < length digits →
      ∀ code, importSymbol code message = .error (.tooManyDigits (length digits)) := by
  refine ⟨?_, ?_, fun h => ?_, fun digits hd hlt code => ?_⟩
  · simp only [List.forall_mem_cons]
    have hpreamble (ls : List String) : afterLast isInclude (preamble ls) ≤ ls.length :=
      (afterLast_le _ _).trans (List.takeWhile_sublist _).length_le
    exact ⟨insertsOnce_includeNamed _ (by decide) hpreamble message,
      insertsOnce_includeNamed _ (by decide) (afterLast_le _) message,
      insertsOnce_declareClass message, List.forall_mem_nil _⟩
  · simp only [List.forall_mem_cons]
    exact ⟨insertsOnce_insertReturn n (by decide), insertsOnce_insertReturn n (by decide),
      List.forall_mem_nil _⟩
  · obtain ⟨k, hk⟩ := lineNumber_of_legible h
    exact insertsOnce_importSymbol hk
  · apply importSymbol_of_error
    rw [Diagnostic.lineNumber_eq, hd, Option.elim_some, readNumber, if_neg (Nat.not_le.mpr hlt)]
    rfl

/-- A message that cannot find a list, with `k` zeros before the number of its line. -/
def listMessage (k : Nat) : List Char :=
  "A.java".toList ++ ([':'] ++ (List.replicate k '0' ++ ['1'] ++
    ':' :: " error: cannot find symbol\n  symbol: class List".toList))

private theorem lineNumber_listMessage (k : Nat) :
    Diagnostic.lineNumber (String.ofList (listMessage k)) =
      (readNumber (String.ofList (List.replicate k '0' ++ ['1']))).map some := by
  apply lineNumber_of_enclosed
  rw [String.toList_ofList]
  refine Pattern.firstEnclosed_of_not_mem rfl (by decide) ⟨by simp, fun x hx => ?_⟩
  rcases List.mem_append.mp hx with hx | hx
  · rw [List.eq_of_mem_replicate hx]
    decide
  · rw [List.mem_singleton.mp hx]
    decide

/-- The import of the list comes in, and does not come in again. -/
theorem list_imported_once : ∃ repair : String → Edit,
    (∀ code, importSymbol code (String.ofList (listMessage 0)) = .ok (repair code)) ∧
    (repair "package a;\nclass A").code = "package a;\nimport java.util.List;\nclass A" ∧
    (repair "package a;\nimport java.util.List;\nclass A").code =
      "package a;\nimport java.util.List;\nclass A" := by
  have hdigits : Diagnostic.placeDigits? (lines (String.ofList (listMessage 0))) = some "1" := by
    decide +kernel
  obtain ⟨repair, hrepair, honce⟩ :=
    (insertions_put_one_line (String.ofList (listMessage 0)) none).2.2.1 fun digits hd => by
      rw [hdigits] at hd
      cases hd
      decide
  have hmade : importSymbol "package a;\nclass A" (String.ofList (listMessage 0)) =
      .ok ⟨"package a;\nimport java.util.List;\nclass A",
        ["  [LOCAL FIX] 添加 import java.util.List;"]⟩ := by
    decide +kernel
  have hcode := congrArg Edit.code (Except.ok.inj ((hrepair _).symm.trans hmade))
  have hagain := honce.settles "package a;\nclass A"
  rw [hcode] at hagain
  exact ⟨repair, hrepair, hcode, hagain⟩

/-- A number with too many digits keeps the import out, though the same number with one digit brings
it in. -/
theorem crowded_number_refused :
    importSymbol "class A" (String.ofList (listMessage 4300)) = .error (.tooManyDigits 4301) ∧
    importSymbol "class A" (String.ofList (listMessage 0)) =
      .ok ⟨"import java.util.List;\nclass A", ["  [LOCAL FIX] 添加 import java.util.List;"]⟩ := by
  refine ⟨importSymbol_of_error ?_ _, by decide +kernel⟩
  have hlength : length (String.ofList (List.replicate 4300 '0' ++ ['1'])) = 4301 := by
    rw [length, String.toList_ofList, List.length_append, List.length_replicate]
    rfl
  rw [lineNumber_listMessage, readNumber, hlength]
  rfl

end Mender.Repair
