import Mender.Diagnostic.Context
import Mender.Proofs.Text

/-! What the model is shown of a text with errors. The lines around the errors stand in rows with
their numbers, and the window is wide enough for every error that lies in the text. Main statement:
the first number is the least one, the rows are those of consecutive lines, just the lines with
errors are marked, and none of these is missing. -/
namespace Mender.Diagnostic
open Text

section Numbers
variable {l : Language} {message : String} {ns : List Int}

/-- The line numbers that a message gives: those in the notation of a language or, where it has
none, the first number behind the word `line`. -/
inductive Extracted (l : Language) (message : String) : List Int → Prop
  | noted {ns : List Int} (h : errorLines l message = .ok ns) (hne : ns ≠ []) :
    Extracted l message ns
  | worded {m : Pattern.Found} {n : Int} (h : errorLines l message = .ok [])
    (hm : anyCaseNumber.search message = some m) (hn : readNumber (m.group 1) = .ok n) :
    Extracted l message [n]

theorem allLines_eq_ok_iff (hne : ns ≠ []) :
    allLines l message = .ok ns ↔ Extracted l message ns := by
  constructor
  · intro h
    unfold allLines at h
    cases hl : errorLines l message with
    | error e =>
      rw [hl] at h
      cases h
    | ok found =>
      rw [hl] at h
      change (if found.isEmpty then _ else _) = _ at h
      split at h
      · rename_i hempty
        obtain rfl := List.isEmpty_iff.mp hempty
        split at h
        · rename_i m hm
          cases hr : readNumber (m.group 1) with
          | error e =>
            rw [hr] at h
            cases h
          | ok n =>
            rw [hr] at h
            obtain rfl := Except.ok.inj h
            exact .worded hl hm hr
        · exact absurd (Except.ok.inj h).symm hne
      · obtain rfl := Except.ok.inj h
        exact .noted hl hne
  · intro h
    unfold allLines
    cases h with
    | noted h hne =>
      rw [h]
      exact if_neg (by simpa using hne)
    | worded h hm hn =>
      rw [h, hm]
      dsimp only
      rw [hn]
      rfl

theorem Extracted.ascending (h : Extracted l message ns) : ns.Pairwise (· < ·) := by
  cases h with
  | noted h hne =>
    unfold errorLines at h
    cases hr : ((l.errorPattern.findAll message).filterMap foundDigits).mapM readNumber with
    | error e =>
      rw [hr] at h
      cases h
    | ok found =>
      rw [hr] at h
      obtain rfl := Except.ok.inj h
      exact pairwise_sort found
  | worded h hm hn => exact List.pairwise_singleton ..

theorem Extracted.least {p : Int} (h : Extracted l message (p :: ns)) : ∀ n ∈ p :: ns, p ≤ n := by
  intro n hn
  rcases List.mem_cons.mp hn with rfl | hn
  · exact Int.le_refl n
  · exact Int.le_of_lt ((List.pairwise_cons.mp h.ascending).1 n hn)

theorem le_getLastD (h : ns.Pairwise (· < ·)) {n d : Int} (hn : n ∈ ns) : n ≤ ns.getLastD d := by
  rcases List.eq_nil_or_concat ns with rfl | ⟨init, last, rfl⟩
  · cases hn
  · rw [List.concat_eq_append] at *
    rw [List.getLastD_concat]
    rcases List.mem_append.mp hn with hn | hn
    · exact Int.le_of_lt ((List.pairwise_append.mp h).2.2 n hn last (by simp))
    · exact Int.le_of_eq (List.mem_singleton.mp hn)

end Numbers

section Rows
variable {ls : List String} {first last : Nat}

theorem numbered_eq (ls : List String) (first last : Nat) : numbered ls first last =
    (List.range' (max 1 first) (min last ls.length + 1 - max 1 first)).map
      fun n => (n, ls.getD (n - 1) "") := by
  apply List.ext_getElem?
  intro i
  have hstart : max 1 first = first - 1 + 1 := by omega
  simp only [numbered, List.getElem?_map, List.getElem?_drop, List.getElem?_take,
    List.getElem?_zipIdx, hstart]
  by_cases hi : first - 1 + i < min last ls.length
  · obtain ⟨line, hline⟩ : ∃ line, ls[first - 1 + i]? = some line :=
      ⟨_, List.getElem?_eq_getElem (by omega)⟩
    rw [if_pos (by omega), List.getElem?_range' (by omega), hline]
    have hindex : first - 1 + 1 + 1 * i - 1 = first - 1 + i := by omega
    simp only [Option.map_some, hindex, List.getD_eq_getElem?_getD, hline, Option.getD_some]
    congr 2
    omega
  · have hrange : (List.range' (first - 1 + 1) (min last ls.length + 1 - (first - 1 + 1)))[i]? =
        none := List.getElem?_eq_none (by simp only [List.length_range']; omega)
    rw [hrange]
    split
    · rw [List.getElem?_eq_none (by omega)]
      rfl
    · rfl

theorem contextRow_eq (ns : List Int) (n : Nat) (line : String) : contextRow ns n line =
    (if (n : Int) ∈ ns then ">>> " else "    ") ++ toString n ++ ": " ++ line := by
  have hcolon (front : String) : front ++ ":" ++ " " = front ++ ": " := String.append_assoc
  unfold contextRow
  by_cases hn : (n : Int) ∈ ns
  · rw [if_pos (List.contains_iff_mem.mpr hn), if_pos hn]
    exact congrArg (· ++ line) (hcolon _)
  · rw [if_neg (mt List.contains_iff_mem.mp hn), if_neg hn]
    exact congrArg (· ++ line) (hcolon _)

private theorem contextRow_ne_empty (ns : List Int) (n : Nat) (line : String) :
    contextRow ns n line ≠ "" := by
  intro h
  rw [contextRow_eq, String.append_eq_empty_iff, String.append_eq_empty_iff] at h
  exact absurd h.1.2 (by decide)

def shownRow (ns : List Int) (code : String) (k : Nat) : String :=
  contextRow ns k ((lines code).getD (k - 1) "")

private theorem unbroken_shownRow (ns : List Int) (code : String) (k : Nat) :
    '\n' ∉ (shownRow ns code k).toList := by
  have hmark (c : Prop) [Decidable c] : '\n' ∉ (if c then ">>> " else "    ").toList := by
    split <;> decide
  have hcolon : '\n' ∉ (": " : String).toList := by decide
  have hline : '\n' ∉ ((lines code).getD (k - 1) "").toList := by
    rw [List.getD_eq_getElem?_getD]
    cases hl : (lines code)[k - 1]? with
    | none => exact List.not_mem_nil
    | some line => exact not_mem_of_mem_lines (List.mem_of_getElem? hl)
  simp only [shownRow, contextRow_eq, String.toList_append, List.mem_append, not_or]
  exact ⟨⟨⟨hmark _, unbroken_toString k⟩, hcolon⟩, hline⟩

theorem lines_shownRows (ns : List Int) (code : String) {ks : List Nat} (hne : ks ≠ []) :
    lines (unlines (ks.map (shownRow ns code))) = ks.map (shownRow ns code) := by
  refine lines_unlines (by simpa using hne) fun row hr => ?_
  obtain ⟨k, -, rfl⟩ := List.mem_map.mp hr
  exact unbroken_shownRow ns code k

theorem unlines_shownRows_eq_empty {ns : List Int} {code : String} {ks : List Nat}
    (h : unlines (ks.map (shownRow ns code)) = "") : ks = [] := by
  by_contra hne
  have hrows := lines_shownRows ns code hne
  rw [h] at hrows
  have hrow : "" ∈ ks.map (shownRow ns code) := by
    rw [← hrows]
    exact List.mem_singleton_self ""
  obtain ⟨k, -, hk⟩ := List.mem_map.mp hrow
  exact contextRow_ne_empty _ _ _ hk

end Rows

section Window
variable {l : Language} {message : String} {p : Int} {ns : List Int}

theorem context_eq (code : String) (h : Extracted l message (p :: ns)) : ∃ first last : Nat,
    context l code message = .ok (some (p, unlines
      ((List.range' (max 1 first) (min last (lines code).length + 1 - max 1 first)).map
        (shownRow (p :: ns) code)))) ∧
    ∀ n ∈ p :: ns, 1 ≤ n → (first : Int) ≤ n ∧ n ≤ last := by
  have hall := (allLines_eq_ok_iff (List.cons_ne_nil p ns)).mpr h
  have hrows (first last : Nat) : (numbered (lines code) first last).map
      (fun row => contextRow (p :: ns) row.1 row.2) =
        (List.range' (max 1 first) (min last (lines code).length + 1 - max 1 first)).map
          (shownRow (p :: ns) code) := by
    rw [numbered_eq, List.map_map]
    rfl
  refine ⟨_, _, by rw [← hrows, context, hall]; rfl, fun n hn hpos => ?_⟩
  have hleast : p ≤ n := h.least n hn
  have hmost : n ≤ (p :: ns).getLastD p := le_getLastD h.ascending hn
  simp only [contextLines]
  split
  · rename_i hone
    obtain rfl := List.isEmpty_iff.mp hone
    obtain rfl := List.mem_singleton.mp hn
    omega
  · omega

theorem extracted_of_context {code shown : String}
    (h : context l code message = .ok (some (p, shown))) : ∃ ns, Extracted l message (p :: ns) := by
  unfold context at h
  cases hall : allLines l message with
  | error e =>
    rw [hall] at h
    cases h
  | ok found =>
    rw [hall] at h
    cases found with
    | nil => cases Except.ok.inj h
    | cons main others =>
      obtain ⟨rfl, -⟩ := Prod.mk.inj (Option.some.inj (Except.ok.inj h))
      exact ⟨others, (allLines_eq_ok_iff (List.cons_ne_nil main others)).mp hall⟩

/-- What a context that was given shows: rows of consecutive lines, and those of all errors that lie
in the text among them. -/
theorem rows_of_context {code shown : String} (h : context l code message = .ok (some (p, shown))) :
    ∃ (ns : List Int) (ks : List Nat), Extracted l message (p :: ns) ∧
      shown = unlines (ks.map (shownRow (p :: ns) code)) ∧
      (∀ k ∈ ks, 1 ≤ k ∧ k ≤ (lines code).length) ∧
      ∀ k : Nat, (k : Int) ∈ p :: ns → 1 ≤ k → k ≤ (lines code).length → k ∈ ks := by
  obtain ⟨ns, hns⟩ := extracted_of_context h
  obtain ⟨first, last, hc, hreach⟩ := context_eq code hns
  obtain ⟨-, rfl⟩ := Prod.mk.inj (Option.some.inj (Except.ok.inj (hc.symm.trans h)))
  refine ⟨ns, _, hns, rfl, fun k hk => ?_, fun k hk hpos hlen => ?_⟩
  · rw [List.mem_range'_1] at hk
    omega
  · have hwindow := hreach k hk (by omega)
    rw [List.mem_range'_1]
    omega

end Window

/-- The context of errors is complete and faithful. It is given just if the message gives numbers,
and then the first of its two parts is the least of them. Its rows are those of consecutive lines of
the text, each with its number, and marked just if the number is one of those given; a context
without text has no rows. Every number that is one of a line has a row. -/
theorem context_complete_and_faithful (l : Language) (code message : String) :
    (∀ ns, Extracted l message ns → ∃ p shown, context l code message = .ok (some (p, shown))) ∧
    ∀ p shown, context l code message = .ok (some (p, shown)) → ∃ ns first count,
      Extracted l message ns ∧ p ∈ ns ∧ (∀ n ∈ ns, p ≤ n) ∧
      (∀ k ∈ List.range' first count, 1 ≤ k ∧ k ≤ (lines code).length) ∧
      (shown = "" → count = 0) ∧
      (shown ≠ "" → lines shown = (List.range' first count).map fun k : Nat =>
        (if (k : Int) ∈ ns then ">>> " else "    ") ++ toString k ++ ": " ++
          (lines code).getD (k - 1) "") ∧
      ∀ n ∈ ns, 1 ≤ n → n ≤ (lines code).length → ∃ k ∈ List.range' first count, (k : Int) = n := by
  refine ⟨fun ns h => ?_, fun p shown h => ?_⟩
  · cases ns with
    | nil => cases h with | noted h hne => exact absurd rfl hne
    | cons p ns =>
      obtain ⟨first, last, hc, -⟩ := context_eq code h
      exact ⟨p, _, hc⟩
  · obtain ⟨ns, hns⟩ := extracted_of_context h
    obtain ⟨first, last, hc, hreach⟩ := context_eq code hns
    obtain ⟨-, rfl⟩ := Prod.mk.inj (Option.some.inj (Except.ok.inj (hc.symm.trans h)))
    refine ⟨p :: ns, max 1 first, min last (lines code).length + 1 - max 1 first, hns,
      List.mem_cons_self, hns.least, fun k hk => ?_, fun he => ?_, fun hne => ?_,
      fun n hn hpos hlen => ?_⟩
    · rw [List.mem_range'_1] at hk
      omega
    · exact List.range'_eq_nil_iff.mp (unlines_shownRows_eq_empty he)
    · refine (lines_shownRows _ code fun he => hne (by rw [he]; rfl)).trans ?_
      exact List.map_congr_left fun k _ => contextRow_eq ..
    · obtain ⟨hfirst, hlast⟩ := hreach n hn hpos
      refine ⟨n.toNat, ?_, by omega⟩
      rw [List.mem_range'_1]
      omega

/-- Of two errors the one past the end has no row, and the other one is marked. -/
theorem error_past_the_end : Extracted .python "line 2, line 9" [2, 9] ∧
    context .python "a\nb\nc" "line 2, line 9" =
      .ok (some (2, "    1: a\n>>> 2: b\n    3: c")) ∧
    ∃ (ns : List Int) (first count : Nat), (∀ n ∈ ns, 2 ≤ n) ∧
      lines "    1: a\n>>> 2: b\n    3: c" = (List.range' first count).map fun k : Nat =>
        (if (k : Int) ∈ ns then ">>> " else "    ") ++ toString k ++ ": " ++
          (lines "a\nb\nc").getD (k - 1) "" := by
  have hread : ((Language.python.errorPattern.findAll "line 2, line 9").filterMap
      foundDigits).mapM readNumber = .ok [2, 9] := by decide +kernel
  have hsorted : ascending [2, 9] = [2, 9] := by
    rw [ascending, List.mergeSort_of_pairwise (by decide)]
    rfl
  have hnumbers : Extracted .python "line 2, line 9" [2, 9] := by
    refine .noted ?_ (by decide)
    rw [errorLines, hread]
    exact congrArg Except.ok hsorted
  have hshown : context .python "a\nb\nc" "line 2, line 9" =
      .ok (some (2, "    1: a\n>>> 2: b\n    3: c")) := by
    rw [context, (allLines_eq_ok_iff (by decide)).mpr hnumbers]
    decide +kernel
  obtain ⟨-, hfaithful⟩ := context_complete_and_faithful .python "a\nb\nc" "line 2, line 9"
  obtain ⟨ns, first, count, -, -, hleast, -, -, hrows, -⟩ := hfaithful _ _ hshown
  exact ⟨hnumbers, hshown, ns, first, count, hleast, hrows (by decide)⟩

theorem extracted_first_line : Extracted .python "line 1" [1] := by
  have hread : ((Language.python.errorPattern.findAll "line 1").filterMap
      foundDigits).mapM readNumber = .ok [1] := by decide +kernel
  refine .noted ?_ (by decide)
  rw [errorLines, hread]
  change Except.ok (ascending [1]) = .ok [1]
  rw [ascending, List.mergeSort_singleton]
  rfl

end Mender.Diagnostic
