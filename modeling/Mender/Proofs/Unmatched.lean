import Mender.Proofs.Quotation

/-! Replacements whose old text does not occur. Such a replacement writes none of its new text: at
most one line of the code gets one mark, blanks apart. What was done is announced by one note, unless
the old text without its comment occurs in a line that has more on it: then the replacement is
dropped and nothing says so. -/
namespace Mender

namespace Pattern
variable {p : Pattern} (hp : p.Moves) {c : Char}
  (hc : ∀ s t w, p.Matches s t → s.Passes w t → c ∉ w)

include hp hc in
theorem mem_replaceAll_empty (s : String) : c ∈ (p.replaceAll "" s).toList ↔ c ∈ s.toList := by
  rw [replaceAll, replaceBy_eq, String.toList_ofList]
  refine replaced_induct hp (motive := fun cs out => c ∈ out ↔ c ∈ cs) Iff.rfl ?_ ?_ s.toList
  · intro before pos d cs out _ ih
    rw [List.mem_cons, List.mem_cons, ih]
  · intro before pos cs m t out _ ht hcs ih
    obtain ⟨w, hw⟩ := ht.passes
    have htext : w = m.text.toList := List.append_cancel_right (hw.rest.symm.trans hcs)
    have hout : c ∉ m.text.toList := htext ▸ hc _ t w ht hw
    rw [hcs, List.mem_append, List.mem_append, ih]
    simp [hout]

end Pattern

namespace Replacement
open Text Pattern

def marks : List Char := [';', ')']

section Marks
variable {c : Char}

theorem not_mem_number (hc : c ∈ marks) {s t : Cursor} {w : List Char}
    (hm : anyNumber.Matches s t) (hw : s.Passes w t) : c ∉ w := by
  have hmarks : ∀ c ∈ marks, isDecimal c = false ∧ c ≠ ':' ∧ isBlank c = false :=
    forall_mem_of_all (by decide +kernel)
  obtain ⟨hdecimal, hcolon, hblank⟩ := hmarks c hc
  obtain ⟨ds, bs, -, hds, hbs, hr⟩ := matches_anyNumber.mp hm
  have hsplit : w = ds ++ ':' :: bs := List.append_cancel_right (hw.rest.symm.trans hr.rest)
  rw [hsplit, List.mem_append, List.mem_cons]
  rintro (hin | hin | hin)
  · rw [hds c hin] at hdecimal
    cases hdecimal
  · exact hcolon hin
  · rw [hbs c hin] at hblank
    cases hblank

theorem mem_unnumbered_new (hc : c ∈ marks) (r : Replacement) :
    c ∈ r.unnumbered.new.toList ↔ c ∈ r.new.toList :=
  mem_replaceAll_empty anyNumber_moves (fun _ _ _ => not_mem_number hc) r.new

theorem mem_unnumbered_old (hc : c ∈ marks) (r : Replacement) :
    c ∈ r.unnumbered.old.toList ↔ c ∈ r.old.toList := by
  refine mem_replaceAll_empty rowNumber_moves (fun s t w hm => ?_) r.old
  rw [rowNumber_eq] at hm
  obtain ⟨u, ⟨-, rfl⟩, hm⟩ := hm
  exact not_mem_number hc hm

theorem missingMark_eq_some {r : Replacement} {line mark : String}
    (h : r.missingMark? line = some mark) :
    ∃ c ∈ marks, mark.toList = [c] ∧ c ∈ r.new.toList ∧ c ∉ r.old.toList := by
  have hmem {s : String} (c : Char) : contains s (String.singleton c) = true ↔ c ∈ s.toList := by
    rw [contains_iff, String.toList_singleton, List.singleton_infix_iff]
  have hlacks {c : Char} (hm : (contains r.new (String.singleton c) &&
      !contains r.old (String.singleton c)) = true) : c ∈ r.new.toList ∧ c ∉ r.old.toList := by
    rw [Bool.and_eq_true, Bool.not_eq_true', ← Bool.not_eq_true, hmem, hmem] at hm
    exact hm
  unfold missingMark? at h
  split at h
  · rename_i hsemicolon
    split at h
    · cases h
    · exact ⟨';', by decide, Option.some.inj h ▸ rfl, hlacks hsemicolon⟩
  · split at h
    · rename_i hparen
      exact ⟨')', by decide, Option.some.inj h ▸ rfl, hlacks hparen⟩
    · cases h

end Marks

def solid (s : String) : List Char := s.toList.filter (!isBlank ·)

/-- One text is the other with a character put in, blanks apart. -/
def PutIn (c : Char) (line row : String) : Prop :=
  ∃ x y, solid line = x ++ y ∧ solid row = x ++ c :: y

private theorem solid_append (s t : String) : solid (s ++ t) = solid s ++ solid t := by
  rw [solid, String.toList_append, List.filter_append]
  rfl

private theorem solid_trimEnd (s : String) : solid (trimEnd s) = solid s := by
  obtain ⟨bs, hb, hs⟩ := exists_trimEnd s
  have hnone : bs.filter (!isBlank ·) = [] := by
    rw [List.filter_eq_nil_iff]
    intro b hm
    simp [hb b hm]
  rw [solid, solid, hs, List.filter_append, hnone, List.append_nil]

private theorem putIn_withMark {c : Char} {mark : String} (hc : isBlank c = false)
    (hm : mark.toList = [c]) (line : String) : PutIn c line (withMark mark (trimEnd line)) := by
  have hmark : solid mark = [c] := by simp [solid, hm, hc]
  have hend : PutIn c line (trimEnd line ++ mark) :=
    ⟨solid line, [], (List.append_nil _).symm, by rw [solid_append, solid_trimEnd, hmark]⟩
  unfold withMark
  split
  · rename_i pos _
    split
    · -- the comment moves behind the mark
      have hsplit : trimEnd line = take pos (trimEnd line) ++ drop pos (trimEnd line) := by
        rw [← String.toList_inj, String.toList_append, take, drop, String.toList_ofList,
          String.toList_ofList, List.take_append_drop]
      refine ⟨solid (take pos (trimEnd line)), solid (drop pos (trimEnd line)), ?_, ?_⟩
      · rw [← solid_append, ← hsplit, solid_trimEnd]
      · have hspaces : solid "  " = [] := by decide
        rw [solid_append, solid_append, solid_append, solid_trimEnd, hmark, hspaces, List.append_nil,
          List.append_assoc]
        rfl
    · exact hend
  · exact hend

/-- One line of a text gets a character, blanks apart; the others stay. -/
def LinePutIn (c : Char) (code text : String) : Prop :=
  ∃ i line row, (lines code)[i]? = some line ∧ lines text = (lines code).set i row ∧
    PutIn c line row

section Applied
variable {code : String} {d : Datum} {r : Replacement}

theorem outcome_of_ofDatum (hd : ofDatum d = .ok r) (code : String) :
    (applyDatum code (.list [d])).outcome = (.ok (r.apply code).code, (r.apply code).notes) := by
  simp only [applyDatum, Datum.members?, applyAll, hd]
  rfl

private theorem applyFuzzy_code (r : Replacement) (plain code : String) :
    (r.applyFuzzy plain code).code = code ∨ ∃ c ∈ marks, c ∈ r.new.toList ∧ c ∉ r.old.toList ∧
      LinePutIn c code (r.applyFuzzy plain code).code := by
  unfold applyFuzzy
  dsimp only
  split
  · rename_i i mark text hfound
    obtain ⟨line, hline, -, hmark, rfl⟩ := fuzzy_eq_some hfound
    obtain ⟨c, hc, hchar, hnew, hold⟩ := missingMark_eq_some hmark
    have hsolid : ∀ c ∈ marks, isBlank c = false := forall_mem_of_all (by decide)
    have hrow : Unbroken (withMark mark (trimEnd line)) := unbroken_withMark
      (unbroken_missingMark hmark) (Unbroken.of_mem_lines (List.mem_of_getElem? hline)).trimEnd
    exact .inr ⟨c, hc, hnew, hold, i, line, _, hline, lines_set code i hrow,
      putIn_withMark (hsolid c hc) hchar line⟩
  · exact .inl rfl

/-- A replacement whose old text does not occur, with its comment or without, gives a text with as
many lines: the same text, or one with a semicolon or a parenthesis put into one line, a mark that
the new text has and the old one lacks. -/
theorem unmatched_replacement_puts_mark (code : String) {d : Datum} {r : Replacement}
    (hd : ofDatum d = .ok r) (h0 : r.unnumbered.old ≠ "")
    (hold : contains code r.unnumbered.old = false)
    (hbare : bare r.unnumbered.old = "" ∨ contains code (bare r.unnumbered.old) = false) :
    ∃ text, (applyDatum code (.list [d])).outcome.1 = .ok text ∧
      (lines text).length = (lines code).length ∧
      (text = code ∨ ∃ c ∈ marks, c ∈ r.new.toList ∧ c ∉ r.old.toList ∧ LinePutIn c code text) := by
  have happly : r.apply code = r.unnumbered.applyFuzzy (bare r.unnumbered.old) code := by
    rw [apply, applyPlain, if_neg h0, if_neg (by rw [hold]; decide)]
    refine if_neg fun h => ?_
    rw [Bool.and_eq_true, decide_eq_true_eq] at h
    rcases hbare with hbare | hbare
    · exact h.1 hbare
    · rw [h.2] at hbare
      cases hbare
  refine ⟨_, congrArg Prod.fst (outcome_of_ofDatum hd code), ?_⟩
  rw [happly]
  rcases applyFuzzy_code r.unnumbered (bare r.unnumbered.old) code with he | ⟨c, hc, hn, ho, hput⟩
  · exact ⟨by rw [he], .inl he⟩
  · refine ⟨?_, .inr ⟨c, hc, ?_, ?_, hput⟩⟩
    · obtain ⟨i, line, row, -, hlines, -⟩ := hput
      rw [hlines, List.length_set]
    · exact (mem_unnumbered_new hc r).mp hn
    · exact mt (mem_unnumbered_old hc r).mpr ho

/-- A semicolon goes before the comment of a line whose blanks are not those of the old text. -/
theorem semicolon_put_before_comment :
    let code := "int  x = 1 // one\nint y;"
    let text := "int  x = 1;  // one\nint y;"
    let r : Replacement := ⟨"7: int x = 1", "int x = 1; // 1"⟩
    r.unnumbered.old ≠ "" ∧ contains code r.unnumbered.old = false ∧
      contains code (bare r.unnumbered.old) = false ∧
      (applyDatum code (.list [.replacement r.old r.new])).outcome.1 = .ok text ∧
      ∃ c ∈ marks, c ∈ r.new.toList ∧ c ∉ r.old.toList ∧ LinePutIn c code text := by
  intro code text r
  have heval : (r.unnumbered.old ≠ "" ∧ contains code r.unnumbered.old = false ∧
      contains code (bare r.unnumbered.old) = false) ∧ (r.apply code).code = text := by
    decide +kernel
  obtain ⟨⟨h0, hold, hbare⟩, htext⟩ := heval
  obtain ⟨t, ht, -, hput⟩ := unmatched_replacement_puts_mark code
    (ofDatum_replacement r.old r.new) h0 hold (.inr hbare)
  rw [applyDatum_single] at ht
  obtain rfl : text = t := htext.symm.trans (Except.ok.inj ht)
  refine ⟨h0, hold, hbare, (applyDatum_single code r.old r.new).trans (congrArg _ htext), ?_⟩
  exact hput.resolve_left (by decide)

def announcements : List String :=
  ["  [APPLIED] ", "  [APPLIED NO-COMMENT] line ", "  [FUZZY APPLIED] line ", "  [NOT FOUND] '"]

def Announces (note : String) : Prop := ∃ start ∈ announcements, startsWith note start = true

/-- The old text occurs only without its comment, and only in lines that have more on them. -/
def Overlooked (code old : String) : Prop :=
  contains code old = false ∧ bare old ≠ "" ∧ contains code (bare old) = true ∧
    ∀ line ∈ lines code, bare line ≠ bare old

theorem announces_start {start : String} (h : start ∈ announcements) : Announces start :=
  ⟨start, h, by rw [startsWith, List.isPrefixOf_iff_prefix]⟩

theorem Announces.append {note : String} (h : Announces note) (s : String) : Announces (note ++ s) := by
  obtain ⟨start, hm, hs⟩ := h
  refine ⟨start, hm, ?_⟩
  rw [startsWith, List.isPrefixOf_iff_prefix] at hs ⊢
  rw [String.toList_append]
  exact hs.trans (List.prefix_append ..)

private theorem applyBare_announced (r : Replacement) (plain code : String) :
    (∀ line ∈ lines code, bare line ≠ plain) ∧ r.applyBare plain code = .keep code ∨
      (¬ ∀ line ∈ lines code, bare line ≠ plain) ∧
        ∃ note, (r.applyBare plain code).notes = [note] ∧ Announces note := by
  unfold applyBare
  dsimp only
  split
  · rename_i hnone
    refine .inl ⟨fun line hline he => ?_, rfl⟩
    simpa [he] using List.findIdx?_eq_none_iff.mp hnone line hline
  · rename_i i hi
    obtain ⟨hlt, hbare, -⟩ := List.findIdx?_eq_some_iff_getElem.mp hi
    refine .inr ⟨fun hall => hall _ (List.getElem_mem hlt) (of_decide_eq_true hbare), _, rfl, ?_⟩
    exact ((((announces_start (by decide)).append _).append _).append _).append _

private theorem applyFuzzy_announced (r : Replacement) (plain code : String) :
    ∃ note, (r.applyFuzzy plain code).notes = [note] ∧ Announces note := by
  unfold applyFuzzy
  dsimp only
  split
  · exact ⟨_, rfl, ((((announces_start (by decide)).append _).append _).append _).append _⟩
  · exact ⟨_, rfl, ((announces_start (by decide)).append _).append _⟩

/-- A replacement with an old text is announced by one note, or it is overlooked and nothing
happens. -/
private theorem applyPlain_announced (r : Replacement) (code : String) (h0 : r.old ≠ "") :
    Overlooked code r.old ∧ r.applyPlain code = .keep code ∨
      ¬ Overlooked code r.old ∧ ∃ note, (r.applyPlain code).notes = [note] ∧ Announces note := by
  unfold applyPlain
  dsimp only
  rw [if_neg h0]
  split
  · rename_i hold
    refine .inr ⟨fun h => ?_, _, rfl, ((announces_start (by decide)).append _).append _⟩
    rw [h.1] at hold
    cases hold
  · rename_i hold
    have hold := Bool.eq_false_iff.mpr hold
    split
    · rename_i hbare
      rw [Bool.and_eq_true, decide_eq_true_eq] at hbare
      rcases applyBare_announced r (bare r.old) code with ⟨hall, hkeep⟩ | ⟨hsome, hnote⟩
      · exact .inl ⟨⟨hold, hbare.1, hbare.2, hall⟩, hkeep⟩
      · exact .inr ⟨fun h => hsome h.2.2.2, hnote⟩
    · rename_i hbare
      refine .inr ⟨fun h => hbare ?_, applyFuzzy_announced r _ code⟩
      rw [Bool.and_eq_true, decide_eq_true_eq]
      exact ⟨h.2.1, h.2.2.1⟩

/-- A replacement with an old text is announced by exactly one note just if it is not overlooked. An
overlooked one changes nothing, and nothing says so. -/
theorem replacement_announced_iff (code : String) {d : Datum} {r : Replacement}
    (hd : ofDatum d = .ok r) (h0 : r.unnumbered.old ≠ "") :
    ((∃ note, (applyDatum code (.list [d])).outcome.2 = [note] ∧ Announces note) ↔
        ¬ Overlooked code r.unnumbered.old) ∧
      (Overlooked code r.unnumbered.old →
        (applyDatum code (.list [d])).outcome = (.ok code, [])) := by
  rw [outcome_of_ofDatum hd, apply]
  rcases applyPlain_announced r.unnumbered code h0 with ⟨hover, hkeep⟩ | ⟨hover, hnote⟩
  · rw [hkeep]
    refine ⟨iff_of_false ?_ (not_not_intro hover), fun _ => rfl⟩
    rintro ⟨note, hnote, -⟩
    cases hnote
  · exact ⟨iff_of_true hnote hover, fun h => absurd h hover⟩

/-- A call that is looked for with a comment of its own, in a line that does more than the call. -/
theorem commented_call_overlooked :
    let code := "return f(a) + 1;"
    let r : Replacement := ⟨"f(a) // call", "g(a)"⟩
    r.unnumbered.old ≠ "" ∧ Overlooked code r.unnumbered.old ∧
      (applyDatum code (.list [.replacement r.old r.new])).outcome = (.ok code, []) ∧
      ¬ ∃ note, (applyDatum code (.list [.replacement r.old r.new])).outcome.2 = [note] ∧
        Announces note := by
  intro code r
  have heval : r.unnumbered.old ≠ "" ∧ contains code r.unnumbered.old = false ∧
      bare r.unnumbered.old ≠ "" ∧ contains code (bare r.unnumbered.old) = true ∧
      bare code ≠ bare r.unnumbered.old := by decide +kernel
  obtain ⟨h0, hold, hbare, hin, hline⟩ := heval
  have hover : Overlooked code r.unnumbered.old := by
    refine ⟨hold, hbare, hin, ?_⟩
    rw [lines_of_not_mem (by decide), List.forall_mem_singleton]
    exact hline
  obtain ⟨hiff, hkeep⟩ := replacement_announced_iff code (ofDatum_replacement r.old r.new) h0
  exact ⟨h0, hover, hkeep hover, fun h => hiff.mp h hover⟩

end Applied

end Replacement

end Mender
