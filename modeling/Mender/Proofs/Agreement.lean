import Mender.Proofs.LineRepair
import Mender.Proofs.PatternRun

/-! The three ways to a missing semicolon. A line is told by its number, by a brace that follows it,
or by a message that names the line after it and the word there; the semicolon goes to the same
place each time. Main statement: on a line without a hash sign the three repairs give the same text,
unless the message writes its number with more digits than are read. -/
namespace Mender

namespace Pattern

def enclosed (w : List Char) (c : CharClass) (mark : Char) : Pattern :=
  spelled w (.seq (.group 1 (plus c)) (.char (.literal mark)))

def Run (c : CharClass) (run : List Char) : Prop := run ≠ [] ∧ ∀ x ∈ run, c.holds x = true

/-- The first run of a class that stands between a text and a mark. -/
def FirstEnclosed (w : List Char) (c : CharClass) (mark : Char) (cs run : List Char) : Prop :=
  ∃ pre post, cs = pre ++ (w ++ (run ++ mark :: post)) ∧ Run c run ∧
    ∀ x other y, cs = x ++ (w ++ (other ++ mark :: y)) → Run c other → pre.length ≤ x.length

section Enclosed
variable {w run post : List Char} {c : CharClass} {mark : Char} {s : Cursor}

private theorem matchAt_enclosed (hs : s.rest = w ++ (run ++ mark :: post)) (hr : Run c run)
    (hmark : c.holds mark = false) :
    ∃ m, (enclosed w c mark).matchAt false s = some m ∧ m.group 1 = String.ofList run := by
  have hrun : (group 1 (plus c)).Goes (s.past w (run ++ mark :: post)) _ :=
    (goes_plus rfl hr.1 hr.2 (by simpa using hmark)).group rfl 1
  have hclose : (char (.literal mark)).Goes
      ((s.past w (run ++ mark :: post)).noting 1 run (mark :: post)) _ :=
    goes_char rfl (by simp [CharClass.holds])
  exact ⟨_, (goes_spelled hs (hrun.seq hclose)).matchAt, rfl⟩

private theorem enclosed_of_matches {t : Cursor} (h : (enclosed w c mark).Matches s t) :
    ∃ run post, s.rest = w ++ (run ++ mark :: post) ∧ Run c run := by
  obtain ⟨u, hu, v, ⟨v', hv, rfl⟩, ht⟩ := matches_spelled h
  obtain ⟨run, hrun, hc, hne⟩ := matches_plus hv
  obtain ⟨x, hx, hmark⟩ := matches_char.mp ht
  obtain rfl : x = mark := by simpa [CharClass.holds] using hx
  refine ⟨run, t.rest, ?_, hne, hc⟩
  have hrest : v'.rest = x :: t.rest := hmark.rest
  rw [hu.rest, hrun.rest, hrest]

theorem search_enclosed {text : String} (h : FirstEnclosed w c mark text.toList run)
    (hmark : c.holds mark = false) :
    ∃ m, (enclosed w c mark).search text = some m ∧ m.group 1 = String.ofList run := by
  obtain ⟨pre, post, htext, hr, hfirst⟩ := h
  obtain ⟨m, hm, hgroup⟩ := matchAt_enclosed (s := .between pre (w ++ (run ++ mark :: post)))
    rfl hr hmark
  refine ⟨m, search_eq_some_of_first htext hm fun x y t hxy ht => ?_, hgroup⟩
  obtain ⟨other, rest, hy, hother⟩ := enclosed_of_matches ht
  exact hfirst x other rest (by rw [hxy, ← hy]; rfl) hother

theorem firstEnclosed_of_not_mem {a : Char} {pre cs : List Char}
    (hcs : cs = pre ++ (a :: w ++ (run ++ mark :: post))) (ha : a ∉ pre) (hr : Run c run) :
    FirstEnclosed (a :: w) c mark cs run := by
  refine ⟨pre, post, hcs, hr, fun x other y he _ => ?_⟩
  by_contra hlt
  rcases List.append_eq_append_iff.mp (hcs.symm.trans he) with ⟨u, rfl, -⟩ | ⟨u, rfl, hu⟩
  · exact hlt (by simp)
  · cases u with
    | nil => exact hlt (by simp)
    | cons b u =>
      obtain rfl : a = b := (List.cons.inj hu).1
      exact ha (List.mem_append_right x List.mem_cons_self)

end Enclosed

end Pattern

namespace Repair
open Text Pattern

theorem colonNumber_eq : Diagnostic.colonNumber = enclosed [':'] .digit ':' := by decide +kernel

theorem lineNumber_of_enclosed {message : String} {digits : List Char}
    (h : FirstEnclosed [':'] .digit ':' message.toList digits) :
    Diagnostic.lineNumber message = (readNumber (String.ofList digits)).map some := by
  obtain ⟨m, hm, hnumber⟩ := search_enclosed h (by decide)
  rw [← colonNumber_eq] at hm
  simp only [Diagnostic.lineNumber, hm, hnumber]

theorem beforeWord_eq : beforeWord = enclosed "before '".toList .word '\'' := by decide +kernel

theorem withSemicolon_of_not_mem {line : String} (h : '#' ∉ line.toList) :
    withSemicolon commentMarkers line = withSemicolon slashMarkers line := by
  have hbody : '#' ∉ (trimEnd line).toList := fun hm => h ((trimEnd_isInfix line).subset hm)
  have hfind : find? (trimEnd line) "#" = none := by
    rw [find_eq_none]
    exact fun hi => hbody (hi.subset (by decide))
  have hearliest :
      earliest commentMarkers (trimEnd line) = earliest slashMarkers (trimEnd line) := by
    simp only [earliest, commentMarkers, slashMarkers, List.filterMap_cons, hfind]
  simp only [withSemicolon, hearliest]

section Padded
variable (k : Nat)

def paddedMessage : List Char :=
  ':' :: (List.replicate k '0' ++ "2: expected ';' before 'y'".toList)

def paddedTwo : List Char := List.replicate k '0' ++ ['2']

theorem digitsValue_paddedTwo : digitsValue (paddedTwo k) = 2 := by
  have hzeros :
      (List.replicate k '0').foldl (fun n c => 10 * n + (digitValue? c).getD 0) 0 = 0 := by
    induction k with
    | zero => rfl
    | succ k ih => exact ih
  rw [digitsValue, paddedTwo, List.foldl_append, hzeros]
  decide

theorem unbroken_paddedMessage : Unbroken (String.ofList (paddedMessage k)) := by
  rw [Unbroken, String.toList_ofList, paddedMessage, List.mem_cons, List.mem_append,
    List.mem_replicate]
  simp

theorem paddedMessage_digits :
    FirstEnclosed [':'] .digit ':' (paddedMessage k) (paddedTwo k) := by
  have hmessage : paddedMessage k = [] ++ ([':'] ++ (paddedTwo k ++
      ':' :: " expected ';' before 'y'".toList)) := by
    simp [paddedMessage, paddedTwo]
  refine firstEnclosed_of_not_mem hmessage List.not_mem_nil ⟨by simp [paddedTwo], fun x hx => ?_⟩
  rcases List.mem_append.mp hx with hx | hx
  · rw [List.eq_of_mem_replicate hx]
    decide
  · rw [List.mem_singleton.mp hx]
    decide

theorem paddedMessage_word :
    FirstEnclosed "before '".toList .word '\'' (paddedMessage k) ['y'] := by
  have hmessage : paddedMessage k = ':' :: (List.replicate k '0' ++ "2: expected ';' ".toList) ++
      ('b' :: "efore '".toList ++ (['y'] ++ '\'' :: [])) := by
    simp [paddedMessage]
  have hbefore : 'b' ∉ ':' :: (List.replicate k '0' ++ "2: expected ';' ".toList) := by
    simp
  exact firstEnclosed_of_not_mem hmessage hbefore
    ⟨by simp, List.forall_mem_singleton.mpr (by decide)⟩

end Padded

section Agreement
variable {code message : String} {n : Nat} {digits word : List Char}

theorem addSemicolon_code
    (h : ∀ i line, lineAt? (lines code) (some n) = some (i, line) → '#' ∉ line.toList) :
    (addSemicolon code (some n)).code = (changeLine code (some n) (fun _ => []) fun line =>
      (withSemicolon slashMarkers line).map (·.1)).code := by
  cases hat : lineAt? (lines code) (some (n : Int)) with
  | none => simp only [addSemicolon, changeLine, hat]
  | some found =>
    obtain ⟨i, line⟩ := found
    simp only [addSemicolon, changeLine, hat, withSemicolon_of_not_mem (h i line hat)]

section Message
variable (code) (hd : FirstEnclosed [':'] .digit ':' message.toList digits)
  (hw : FirstEnclosed "before '".toList .word '\'' message.toList word)
  (hstart : word.head?.any (fun c => isLetter c || c == '_') = true)
include hd hw hstart

/-- What one line of a message leads to: the number is read, and the line before it gets its
semicolon. -/
theorem semicolonForMessageLine_eq : semicolonForMessageLine code message =
    (readNumber (String.ofList digits)).map fun k =>
      (lineAt? (lines code) (some (k - 1))).bind fun found =>
        (withSemicolon slashMarkers found.2).map fun new =>
          .ofLines ((lines code).set found.1 new.1)
            [semicolonNote (found.1 + 1) new.2 (String.ofList word)] := by
  obtain ⟨m, hword, htoken⟩ := search_enclosed hw (by decide)
  obtain ⟨l, hcolon, hnumber⟩ := search_enclosed hd (by decide)
  rw [← beforeWord_eq] at hword
  rw [← colonNumber_eq] at hcolon
  have hhead : (head? (m.group 1)).any (fun c => isLetter c || c == '_') = true := by
    rw [htoken, head?, String.toList_ofList]
    exact hstart
  simp only [semicolonForMessageLine, hword, hhead, hcolon, hnumber, Bool.not_true,
    Bool.false_eq_true, if_false]
  cases readNumber (String.ofList digits) with
  | error e => rfl
  | ok k =>
    dsimp only
    cases hat : lineAt? (lines code) (some (k - 1)) with
    | none => simp only [Except.map, hat, Option.bind_none]
    | some found => simp only [Except.map, hat, Option.bind_some, htoken]

variable (hm : Unbroken message)
include hm

theorem semicolonBeforeWord_of_error {fault : Fault}
    (hr : readNumber (String.ofList digits) = .error fault) :
    semicolonBeforeWord code message = .error fault := by
  have hline := semicolonForMessageLine_eq code hd hw hstart
  rw [hr] at hline
  simp only [semicolonBeforeWord, lines_of_not_mem hm, semicolonBeforeWord.go, hline, Except.map]

private theorem semicolonBeforeWord_of_ok {k : Int}
    (hr : readNumber (String.ofList digits) = .ok k) :
    ∃ e, semicolonBeforeWord code message = .ok e ∧
      e.code = (changeLine code (some (k - 1)) (fun _ => []) fun line =>
        (withSemicolon slashMarkers line).map (·.1)).code := by
  have hline := semicolonForMessageLine_eq code hd hw hstart
  rw [hr] at hline
  simp only [semicolonBeforeWord, lines_of_not_mem hm, semicolonBeforeWord.go, hline, Except.map]
  cases hat : lineAt? (lines code) (some (k - 1)) with
  | none => exact ⟨_, rfl, by simp only [changeLine, hat]⟩
  | some found =>
    cases hs : withSemicolon slashMarkers found.2 with
    | none =>
      simp only [Option.bind_some, hs, changeLine, hat, Option.map_none]
      exact ⟨_, rfl, rfl⟩
    | some new =>
      simp only [Option.bind_some, hs, changeLine, hat, Option.map_some]
      exact ⟨_, rfl, rfl⟩

end Message

/-- The three repairs agree on the text, unless the number of the message has too many digits. -/
theorem semicolon_repairs_agree
    (hline : ∀ i line, lineAt? (lines code) (some n) = some (i, line) → '#' ∉ line.toList)
    (hm : Unbroken message)
    (hd : FirstEnclosed [':'] .digit ':' message.toList digits)
    (hn : digitsValue digits = n + 1)
    (hw : FirstEnclosed "before '".toList .word '\'' message.toList word)
    (hstart : word.head?.any (fun c => isLetter c || c == '_') = true) :
    (semicolonBeforeBrace code (some n)).code = (addSemicolon code (some n)).code ∧
    (digits.length ≤ 4300 → ∃ e, semicolonBeforeWord code message = .ok e ∧
      e.code = (addSemicolon code (some n)).code) ∧
    (4300 < digits.length →
      semicolonBeforeWord code message = .error (.tooManyDigits digits.length)) := by
  have hlength : length (String.ofList digits) = digits.length := by
    rw [length, String.toList_ofList]
  rw [addSemicolon_code hline]
  refine ⟨semicolonBeforeBrace_code code _, fun hle => ?_, fun hlt => ?_⟩
  · have hread : readNumber (String.ofList digits) = .ok (n + 1 : Int) := by
      rw [readNumber, hlength, if_pos hle, String.toList_ofList, hn]
      rfl
    obtain ⟨e, he, hcode⟩ := semicolonBeforeWord_of_ok code hd hw hstart hm hread
    rw [Int.add_sub_cancel] at hcode
    exact ⟨e, he, hcode⟩
  · apply semicolonBeforeWord_of_error code hd hw hstart hm
    rw [readNumber, hlength, if_neg (Nat.not_le.mpr hlt)]

/-- With few digits all three repairs put the semicolon before the comment. -/
theorem semicolon_repairs_agree_comment :
    (semicolonBeforeBrace "x // y" (some 1)).code = (addSemicolon "x // y" (some 1)).code ∧
    (∃ e, semicolonBeforeWord "x // y" (String.ofList (paddedMessage 1)) = .ok e ∧
      e.code = (addSemicolon "x // y" (some 1)).code) ∧
    (addSemicolon "x // y" (some 1)).code = "x;  // y" := by
  have hline : ∀ i line, lineAt? (lines "x // y") (some (1 : Nat)) = some (i, line) →
      '#' ∉ line.toList := by
    intro i line h
    obtain ⟨-, hi⟩ := lineAt_eq_some.mp h
    obtain rfl := List.mem_singleton.mp (List.mem_of_getElem? hi)
    decide
  have hmessage := @String.toList_ofList (paddedMessage 1)
  have h := semicolon_repairs_agree hline (unbroken_paddedMessage 1)
    (hmessage.symm ▸ paddedMessage_digits 1) (digitsValue_paddedTwo 1)
    (hmessage.symm ▸ paddedMessage_word 1) (by decide)
  exact ⟨h.1, h.2.1 (by decide), by decide +kernel⟩

/-- A number that is written with too many digits is not read, though it is small. -/
theorem padded_number_refused :
    digitsValue (paddedTwo 4300) = 2 ∧
    FirstEnclosed [':'] .digit ':' (paddedMessage 4300) (paddedTwo 4300) ∧
    FirstEnclosed "before '".toList .word '\'' (paddedMessage 4300) ['y'] ∧
    semicolonBeforeWord "x" (String.ofList (paddedMessage 4300)) = .error (.tooManyDigits 4301) ∧
    (addSemicolon "x" (some 1)).code = "x;" := by
  have hmessage := @String.toList_ofList (paddedMessage 4300)
  refine ⟨digitsValue_paddedTwo _, paddedMessage_digits _, paddedMessage_word _, ?_,
    by decide +kernel⟩
  apply semicolonBeforeWord_of_error "x" (hmessage.symm ▸ paddedMessage_digits 4300)
    (hmessage.symm ▸ paddedMessage_word 4300) (by decide) (unbroken_paddedMessage 4300)
  have hlength : length (String.ofList (paddedTwo 4300)) = 4301 := by
    rw [length, String.toList_ofList, paddedTwo, List.length_append, List.length_replicate]
    rfl
  rw [readNumber, hlength]
  rfl

end Agreement

end Repair

end Mender
