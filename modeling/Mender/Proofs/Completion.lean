import Mender.Proofs.LineRepair

/-! Repairs that complete a text settle it. Each puts a missing mark where it belongs, and the guard
that keeps it from a second one recognises its own work: behind a comment, after blanks, and for an
indentation beside all the lines before it. -/
namespace Mender.Repair
open Text

def Settles (f : String → Option String) : Prop :=
  ∀ line new, f line = some new → f new = none

section Change
variable {code : String} {n : Option Int} {note : Int → List String} {f : String → Option String}
  {i : Nat} {line new : String}

private theorem lineAt_changed (ht : Tame f) (hat : lineAt? (lines code) n = some (i, line))
    (hnew : f line = some new) :
    lineAt? (lines (changeLine code n note f).code) n = some (i, new) := by
  obtain ⟨rfl, hi⟩ := lineAt_eq_some.mp hat
  have hline := Unbroken.of_mem_lines (List.mem_of_getElem? hi)
  have hlines : lines (Edit.ofLines ((lines code).set i new) (note (i + 1))).code =
    (lines code).set i new := lines_set code i (ht line new hline hnew)
  rw [changeLine_of_some hat hnew, hlines]
  exact lineAt_eq_some.mpr ⟨rfl, List.getElem?_set_self (List.getElem?_eq_some_iff.mp hi).1⟩

private theorem changeLine_code_eq (hat : lineAt? (lines code) n = some (i, line)) :
    (changeLine code n note f).code = code ↔ ∀ new, f line = some new → new = line := by
  obtain ⟨rfl, hi⟩ := lineAt_eq_some.mp hat
  cases hf : f line with
  | none =>
    simp only [changeLine, hat, hf]
    simp [Edit.keep]
  | some new =>
    rw [changeLine_of_some hat hf]
    constructor
    · intro he new' hnew
      obtain rfl := Option.some.inj hnew
      by_contra hne
      exact unlines_set_lines_ne hi hne he
    · intro h
      obtain rfl := h new rfl
      obtain ⟨hlt, rfl⟩ := List.getElem?_eq_some_iff.mp hi
      rw [Edit.ofLines, List.set_getElem_self, unlines_lines]

/-- A change of a line made twice is the change made once just if it changes the new line no
further. -/
theorem changeLine_again_iff (ht : Tame f) :
    (changeLine (changeLine code n note f).code n note f).code =
        (changeLine code n note f).code ↔
      ∀ i line new, lineAt? (lines code) n = some (i, line) → f line = some new →
        ∀ again, f new = some again → again = new := by
  by_cases h : ∃ i line new, lineAt? (lines code) n = some (i, line) ∧ f line = some new
  · obtain ⟨i, line, new, hat, hnew⟩ := h
    rw [changeLine_code_eq (lineAt_changed ht hat hnew)]
    constructor
    · intro hstill i' line' new' hat' hnew'
      obtain ⟨rfl, rfl⟩ := Prod.mk.inj (Option.some.inj (hat.symm.trans hat'))
      obtain rfl := Option.some.inj (hnew.symm.trans hnew')
      exact hstill
    · exact fun hstill => hstill i line new hat hnew
  · have hkeep : changeLine code n note f = .keep code := by
      apply changeLine_of_none
      intro i line hat
      by_contra hne
      obtain ⟨new, hnew⟩ := Option.ne_none_iff_exists'.mp hne
      exact h ⟨i, line, new, hat, hnew⟩
    rw [hkeep]
    exact iff_of_true (congrArg Edit.code hkeep) fun i line new hat hnew =>
      absurd ⟨i, line, new, hat, hnew⟩ h

theorem changeLine_again (ht : Tame f) (hs : Settles f) :
    (changeLine (changeLine code n note f).code n note f).code =
      (changeLine code n note f).code := by
  rw [changeLine_again_iff ht]
  intro i line new hat hnew again hagain
  rw [hs line new hnew] at hagain
  cases hagain

def Idempotent (repair : String → Option Int → Edit) : Prop :=
  ∀ code n, (repair (repair code n).code n).code = (repair code n).code

theorem settles_mark (mark : String) (hm : mark.toList.getLast?.any (!isBlank ·) = true)
    {g : String → Option String} (hput : ∀ body new, g body = some new → new = body ++ mark)
    (hleft : ∀ body, g (body ++ mark) = none) : Settles fun line => g (trimEnd line) := by
  intro line new h
  obtain rfl := hput _ new h
  dsimp only
  rw [trimEnd_append_mark _ hm]
  exact hleft _

theorem settles_unless (mark : String) (hm : mark.toList.getLast?.any (!isBlank ·) = true)
    {p : String → Bool} (hp : ∀ body, p (body ++ mark) = true) :
    Settles fun line => if p (trimEnd line) then none else some (trimEnd line ++ mark) := by
  apply settles_mark mark hm (g := fun body => if p body then none else some (body ++ mark))
  · intro body new h
    split at h
    · cases h
    · exact (Option.some.inj h).symm
  · intro body
    rw [if_pos (hp body)]

end Change

section Markers
variable {markers : List String} {s : String}

def Begins (markers : List String) (cs : List Char) : Prop := ∃ m ∈ markers, m.toList <+: cs

theorem earliest_eq_some {p : Nat} (h : earliest markers s = some p) : ∃ pre post,
    s.toList = pre ++ post ∧ p = pre.length ∧ Begins markers post ∧
    ∀ u v, pre = u ++ v → v ≠ [] → ¬ Begins markers (v ++ post) := by
  obtain ⟨hmem, hleast⟩ := List.min?_eq_some_iff.mp h
  obtain ⟨m, hm, hfind⟩ := List.mem_filterMap.mp hmem
  obtain ⟨pre, rest, hf, rfl⟩ := find_eq_some hfind
  refine ⟨pre, m.toList ++ rest, by rw [hf.split, List.append_assoc], rfl,
    ⟨m, hm, List.prefix_append ..⟩, ?_⟩
  rintro u v rfl hv ⟨k, hk, y, hy⟩
  have hsplit : s.toList = u ++ k.toList ++ y := by
    rw [hf.split, List.append_assoc, List.append_assoc, ← hy, List.append_assoc]
  cases hother : find? s k with
  | none => exact find_eq_none.mp hother ⟨u, y, hsplit.symm⟩
  | some q =>
    obtain ⟨before, after, hq, rfl⟩ := find_eq_some hother
    have hle := hleast _ (List.mem_filterMap.mpr ⟨k, hk, hother⟩)
    have hfirst := hq.first u y hsplit
    have hpos := List.length_pos_iff.mpr hv
    rw [List.length_append] at hle
    omega

theorem earliest_eq {pre post : List Char} (hs : s.toList = pre ++ post)
    (hb : Begins markers post)
    (hfirst : ∀ u v, pre = u ++ v → v ≠ [] → ¬ Begins markers (v ++ post)) :
    earliest markers s = some pre.length := by
  obtain ⟨m, hm, y, rfl⟩ := hb
  have hfound : ∃ q, find? s m = some q := by
    rw [← Option.ne_none_iff_exists']
    exact fun hn => find_eq_none.mp hn ⟨pre, y, by rw [hs, List.append_assoc]⟩
  obtain ⟨q, hq⟩ := hfound
  have hmem : q ∈ markers.filterMap (find? s) := List.mem_filterMap.mpr ⟨m, hm, hq⟩
  cases he : earliest markers s with
  | none => exact absurd (List.min?_eq_none_iff.mp he) (List.ne_nil_of_mem hmem)
  | some p =>
    have hle := (List.min?_eq_some_iff.mp he).2 q hmem
    obtain ⟨before, after, hqf, rfl⟩ := find_eq_some hq
    have hq := hqf.first pre y (by rw [hs, List.append_assoc])
    obtain ⟨u, w, hu, rfl, hw, -⟩ := earliest_eq_some he
    -- an earlier marker would stand in the part without one
    rcases List.append_eq_append_iff.mp (hu.symm.trans hs) with ⟨v, rfl, hv⟩ | ⟨v, rfl, -⟩
    · by_cases hnil : v = []
      · rw [hnil, List.append_nil]
      · exact absurd (hv ▸ hw) (hfirst u v rfl hnil)
    · rw [List.length_append] at hle ⊢
      congr 1
      omega

end Markers

section Semicolon

/-- Markers that neither a semicolon nor a space is part of. -/
def Separable (markers : List String) : Prop :=
  ∀ m ∈ markers, m.toList ≠ [] ∧ ';' ∉ m.toList ∧ ' ' ∉ m.toList

instance : DecidablePred Separable :=
  fun markers => inferInstanceAs
    (Decidable (∀ m ∈ markers, m.toList ≠ [] ∧ ';' ∉ m.toList ∧ ' ' ∉ m.toList))

variable {markers : List String}

theorem withSemicolon_of_closed {line : String} (h : isClosedStatement (trimEnd line) = true) :
    withSemicolon markers line = none := by
  simp only [withSemicolon, h, if_true]

theorem not_begins_before (hm : Separable markers) {before blanks comment u v : List Char}
    (hfirst : ∀ u v, before ++ blanks = u ++ v → v ≠ [] → ¬ Begins markers (v ++ comment))
    (huv : before ++ [';', ' ', ' '] = u ++ v) (hv : v ≠ []) : ¬ Begins markers (v ++ comment) := by
  rintro ⟨m, hmem, hpre⟩
  obtain ⟨hne, hsemi, hspace⟩ := hm m hmem
  rcases List.append_eq_append_iff.mp huv with ⟨w, rfl, hw⟩ | ⟨w, rfl, rfl⟩
  · -- the marker would begin with a character of the semicolon and its spaces
    obtain ⟨c, v, rfl⟩ := List.exists_cons_of_ne_nil hv
    obtain ⟨d, ds, hd⟩ := List.exists_cons_of_ne_nil hne
    rw [hd, List.cons_append, List.cons_prefix_cons] at hpre
    obtain ⟨rfl, -⟩ := hpre
    have hc : d ∈ [';', ' ', ' '] := hw ▸ List.mem_append_right w List.mem_cons_self
    rw [hd] at hsemi hspace
    rcases List.mem_cons.mp hc with rfl | hc
    · exact hsemi List.mem_cons_self
    · have hd : d = ' ' := by simpa using hc
      exact hspace (hd ▸ List.mem_cons_self)
  · rw [List.append_assoc] at hpre
    have hw := prefix_of_separated hsemi hpre
    have hwne : w ≠ [] := by
      rintro rfl
      exact hne (List.prefix_nil.mp hw)
    refine hfirst u (w ++ blanks) (List.append_assoc ..) (by simp [hwne]) ⟨m, hmem, ?_⟩
    rw [List.append_assoc]
    exact hw.trans (List.prefix_append ..)

private theorem withSemicolon_eq_some {line new : String} {comment : Bool}
    (h : withSemicolon markers line = some (new, comment)) : (∃ body, new = body ++ ";") ∨
      ∃ before blanks rest, new = before ++ ";  " ++ String.ofList rest ∧
        (trimEnd line).toList = before.toList ++ blanks ++ rest ∧ Begins markers rest ∧
        ∀ u v, before.toList ++ blanks = u ++ v → v ≠ [] → ¬ Begins markers (v ++ rest) := by
  unfold withSemicolon at h
  dsimp only at h
  split at h
  · cases h
  · split at h
    · rename_i pos hpos
      obtain ⟨pre, rest, hs, hlen, hb, hfirst⟩ := earliest_eq_some hpos
      obtain ⟨blanks, -, hblanks⟩ := exists_trimEnd (String.ofList pre)
      rw [String.toList_ofList] at hblanks
      have htake : take (pos + 1) (trimEnd line) = String.ofList pre := by
        rw [take, hs, List.take_left' hlen.symm]
      have hdrop : drop (pos + 1) (trimEnd line) = String.ofList rest := by
        rw [drop, hs, List.drop_left' hlen.symm]
      rw [htake, hdrop] at h
      split at h
      · cases h
      · obtain ⟨rfl, -⟩ := Prod.mk.inj (Option.some.inj h)
        rw [hblanks] at hs hfirst
        exact .inr ⟨trimEnd (String.ofList pre), blanks, rest, rfl, hs, hb, hfirst⟩
    · obtain ⟨rfl, -⟩ := Prod.mk.inj (Option.some.inj h)
      exact .inl ⟨_, rfl⟩

theorem settles_withSemicolon (hm : Separable markers) :
    Settles fun line => (withSemicolon markers line).map (·.1) := by
  intro line new h
  obtain ⟨⟨text, comment⟩, hw, rfl⟩ := Option.map_eq_some_iff.mp h
  rw [Option.map_eq_none_iff]
  rcases withSemicolon_eq_some hw with ⟨body, rfl⟩ | ⟨before, blanks, rest, rfl, hs, hb, hfirst⟩
  · apply withSemicolon_of_closed
    rw [trimEnd_append_mark body (by decide), isClosedStatement,
      endsWith_append body (by decide), Bool.true_or, Bool.true_or]
  · have hne : rest ≠ [] := by
      rintro rfl
      obtain ⟨m, hmem, hpre⟩ := hb
      exact (hm m hmem).1 (List.prefix_nil.mp hpre)
    have htext : (before ++ ";  " ++ String.ofList rest).toList =
        (before.toList ++ [';', ' ', ' ']) ++ rest := by
      simp
    have hearliest : earliest markers (before ++ ";  " ++ String.ofList rest) =
        some (before.toList.length + 2 + 1) := by
      rw [earliest_eq htext hb fun u v huv hv => not_begins_before hm hfirst huv hv,
        List.length_append]
      rfl
    have htake : trimEnd (take (before.toList.length + 2 + 1)
        (before ++ ";  " ++ String.ofList rest)) = before ++ ";" := by
      have hblank : isBlank ' ' = true := by decide
      rw [take, htext, List.take_left' (by rw [List.length_append]; rfl), ← String.toList_inj,
        trimEnd_toList, String.toList_ofList, String.toList_append,
        show before.toList ++ [';', ' ', ' '] = ((before.toList ++ [';']) ++ [' ']) ++ [' '] by simp,
        List.rdropWhile_concat_pos _ _ _ hblank, List.rdropWhile_concat_pos _ _ _ hblank,
        List.rdropWhile_concat_neg _ _ _ (by decide)]
      rfl
    unfold withSemicolon
    rw [trimEnd_append_end hs hne]
    dsimp only
    rw [hearliest]
    dsimp only
    rw [htake, endsWith_append before (by decide), Bool.or_true, if_pos rfl, ite_self]

end Semicolon

section Marks

private theorem closedItem_occurs (body : String) : closedItem.occurs (body ++ ",") = true := by
  obtain ⟨c, hitem, hc⟩ : ∃ c, closedItem = .seq (.char c)
      (.seq (.many true (.char .blank)) (.anchor .textEnd)) ∧ c.holds ',' = true := ⟨_, rfl, rfl⟩
  obtain ⟨t, ht, hend⟩ := Pattern.Cursor.exists_reads (s := .between body.toList [',']) (w := [','])
    (r := []) rfl
  apply Pattern.occurs_of_matches (String.toList_append ..) (t := t)
  rw [hitem]
  exact ⟨t, Pattern.matches_char.mpr ⟨',', hc, ht⟩, t, Pattern.matches_many_char.mpr
    ⟨[], by simp, .refl t⟩, by simp [Anchor.holds, hend], rfl⟩

theorem idempotent_missingOpenBrace : Idempotent missingOpenBrace := by
  intro code n
  unfold missingOpenBrace repairLine
  apply changeLine_again
  · exact .ite .none (.some fun _ hl => hl.trimEnd.append (by decide))
  · apply settles_unless " \x7b" (by decide)
      (p := fun body => endsWith body "\x7b" || endsWith body ";")
    intro body
    rw [endsWith_append body (by decide), Bool.true_or]

theorem idempotent_missingBracket {bracket : String} (hb : Unbroken bracket)
    (hm : bracket.toList.getLast?.any (!isBlank ·) = true) :
    Idempotent (missingBracket · · bracket) := by
  intro code n
  unfold missingBracket repairLine
  apply changeLine_again
  · exact .ite .none (.some fun _ hl => hl.trimEnd.append hb)
  · apply settles_unless bracket hm (p := (endsWith · bracket))
    intro body
    apply endsWith_append
    rw [endsWith, List.isSuffixOf_iff_suffix]

theorem idempotent_missingComma : Idempotent missingComma := by
  intro code n
  unfold missingComma repairLine
  apply changeLine_again
  · exact .ite .none (.some fun _ hl => hl.trimEnd.append (by decide))
  · exact settles_unless "," (by decide) closedItem_occurs

theorem idempotent_missingColon : Idempotent missingColon := by
  intro code n
  unfold missingColon repairLine
  apply changeLine_again
  · exact .ite .none (.ite (.some fun _ hl => hl.trimEnd.append (by decide)) .none)
  · apply settles_mark ":" (by decide) (g := fun body => if endsWith body ":" then none
      else if beginsBlock (trimStart body) || endsWith body ")" then some (body ++ ":") else none)
    · intro body new h
      split at h
      · cases h
      · split at h
        · exact (Option.some.inj h).symm
        · cases h
    · intro body
      rw [endsWith_append body (by decide), if_pos rfl]

private theorem elseWithoutIf_eq {code : String} {n : Int} (h : 1 ≤ n)
    (hn : n ≤ (lines code).length) : elseWithoutIf code (some n) =
      .ok (repairLine code (some (n - 1)) "在 else 前添加 \x7d" fun line =>
        if endsWith (trimEnd line) "\x7d" then none else some (trimEnd line ++ " \x7d")) := by
  by_cases h1 : n = 1
  · subst h1
    rfl
  · obtain ⟨k, rfl⟩ : ∃ k : Nat, n = k + 2 := ⟨n.toNat - 2, by omega⟩
    have hk : k < (lines code).length := by omega
    have hline := List.getElem?_eq_getElem hk
    have hat : lineAt? (lines code) (some (k + 2 - 1 : Int)) = some (k, (lines code)[k]) :=
      lineAt_eq_some.mpr ⟨congrArg some (by omega), hline⟩
    have hindex : lineWithIndex (lines code) (k + 2 - 2 : Int) = .ok (lines code)[k] := by
      rw [Int.add_sub_cancel, lineWithIndex, if_neg (by omega)]
      simp only [if_neg (show ¬ (k : Int) < 0 by omega), Int.toNat_natCast, hline]
    have hgiven : Diagnostic.given (some (k + 2 : Int)) = some (k + 2 : Int) := rfl
    unfold elseWithoutIf
    rw [hgiven]
    dsimp only
    rw [if_pos (by omega), hindex]
    simp only [bind, Except.bind, pure, Except.pure]
    by_cases hend : endsWith (trimEnd (lines code)[k]) "\x7d" = true
    · rw [if_pos hend, repairLine, changeLine_of_none]
      intro i line hi
      obtain ⟨rfl, rfl⟩ := Prod.mk.inj (Option.some.inj (hat.symm.trans hi))
      exact if_pos hend
    · rw [if_neg hend, repairLine, changeLine_of_some hat (if_neg hend),
        show ((k : Int) + 2 - 2).toNat = k by omega, show (k : Int) + 2 - 1 = k + 1 by omega]

theorem elseWithoutIf_again {code : String} {n : Int} (h : 1 ≤ n) (hn : n ≤ (lines code).length) :
    ∃ e e', elseWithoutIf code (some n) = .ok e ∧ elseWithoutIf e.code (some n) = .ok e' ∧
      e'.code = e.code := by
  have htame : Tame fun line =>
      if endsWith (trimEnd line) "\x7d" then none else some (trimEnd line ++ " \x7d") :=
    .ite .none (.some fun _ hl => hl.trimEnd.append (by decide))
  refine ⟨_, _, elseWithoutIf_eq h hn, elseWithoutIf_eq h ?_, changeLine_again htame ?_⟩
  · rw [(keepsTo_repairLine htame).length]
    exact hn
  · exact settles_unless " \x7d" (by decide) (p := (endsWith · "\x7d"))
      fun body => endsWith_append body (by decide)

end Marks

section Indentation

def better (w best a : Nat) : Nat := if nearer w a best then a else best

theorem nearest_mem {w : Nat} {widths : List Nat} (h : widths ≠ []) :
    nearest w widths ∈ widths := by
  have hfold (widths : List Nat) (best : Nat) :
      widths.foldl (better w) best ∈ best :: widths := by
    induction widths generalizing best with
    | nil => exact List.mem_singleton_self best
    | cons a widths ih =>
      rw [List.foldl_cons]
      rcases List.mem_cons.mp (ih (better w best a)) with he | hmem
      · rw [he, better]
        split
        · exact List.mem_cons_of_mem _ List.mem_cons_self
        · exact List.mem_cons_self
      · exact List.mem_cons_of_mem _ (List.mem_cons_of_mem _ hmem)
  obtain ⟨a, widths, rfl⟩ := List.exists_cons_of_ne_nil h
  rcases List.mem_cons.mp (hfold (a :: widths) a) with he | hmem
  · exact List.mem_cons.mpr (.inl he)
  · exact hmem

private theorem nearest_eq_self {w : Nat} {widths : List Nat} (h : w ∈ widths) :
    nearest w widths = w := by
  have hkept (a : Nat) : better w w a = w := by
    simp only [better, nearer, gap]
    grind
  have hfold (widths : List Nat) : widths.foldl (better w) w = w := by
    induction widths with
    | nil => rfl
    | cons a widths ih => rw [List.foldl_cons, hkept, ih]
  have htaken (best : Nat) : better w best w = w := by
    simp only [better, nearer, gap]
    grind
  obtain ⟨before, after, rfl⟩ := List.append_of_mem h
  change List.foldl (better w) _ (before ++ w :: after) = w
  rw [List.foldl_append, List.foldl_cons, htaken, hfold]

theorem indentWidth_indented (width : Nat) (line : String) :
    indentWidth (indented width (trimStart line)) = width := by
  rw [indentWidth, indented, trimStart_indented]
  simp [length, replicate]

private theorem matchIndent_of_valid {code line : String} {n : Option Int} {i : Nat}
    (hat : lineAt? (lines code) n = some (i, line))
    (h : indentWidth line ∈ validIndents ((lines code).take i)) :
    matchIndent code n = .keep code := by
  simp only [matchIndent, hat, nearest_eq_self h, if_true]

theorem idempotent_matchIndent : Idempotent matchIndent := by
  intro code n
  cases hat : lineAt? (lines code) n with
  | none => simp only [matchIndent, hat, Edit.keep]
  | some found =>
    obtain ⟨i, line⟩ := found
    obtain ⟨rfl, hi⟩ := lineAt_eq_some.mp hat
    by_cases hvalid : indentWidth line ∈ validIndents ((lines code).take i)
    · rw [matchIndent_of_valid hat hvalid]
      exact congrArg Edit.code (matchIndent_of_valid hat hvalid)
    · have hbest : nearest (indentWidth line) (validIndents ((lines code).take i)) ∈
        validIndents ((lines code).take i) := nearest_mem (List.cons_ne_nil _ _)
      generalize hb : nearest (indentWidth line) (validIndents ((lines code).take i)) = best at hbest
      have hne : best ≠ indentWidth line := by
        rintro rfl
        exact hvalid hbest
      have hlines := lines_set code i (unbroken_indented best
        (Unbroken.of_mem_lines (List.mem_of_getElem? hi)).trimStart)
      have hmade : (matchIndent code (some (i + 1))).code =
          unlines ((lines code).set i (indented best (trimStart line))) := by
        simp only [matchIndent, hat, hb, hne, if_false, Edit.ofLines]
      have hagain : lineAt? (lines (unlines ((lines code).set i (indented best (trimStart line)))))
          (some (i + 1)) = some (i, indented best (trimStart line)) := by
        rw [hlines]
        exact lineAt_eq_some.mpr
          ⟨rfl, List.getElem?_set_self (List.getElem?_eq_some_iff.mp hi).1⟩
      rw [hmade, matchIndent_of_valid hagain]
      · rfl
      · -- the lines before are those of the first time
        rw [hlines, List.take_set_of_le (Nat.le_refl i), indentWidth_indented]
        exact hbest

end Indentation

section Ends

private theorem not_mem_replaceChars {c : Char} {new : List Char} (h : c ∉ new) (cs : List Char) :
    c ∉ replaceChars [c] new 0 cs := by
  induction cs with
  | nil => simp [replaceChars]
  | cons d cs ih =>
    rw [replaceChars]
    by_cases hd : d = c
    · subst hd
      simpa [h] using ih
    · simpa [Ne.symm hd] using ih

theorem idempotent_tabsToSpaces : Idempotent fun code _ => tabsToSpaces code := by
  intro code n
  have hcode (code : String) : (tabsToSpaces code).code = replace code "\t" "    " := by
    unfold tabsToSpaces changed
    by_cases h : replace code "\t" "    " = code
    · simp only [h, if_true, Edit.keep]
    · simp only [h, if_false]
  have htab : '\t' ∉ (replace code "\t" "    ").toList := by
    rw [replace_toList (by decide)]
    exact not_mem_replaceChars (by decide) _
  rw [hcode, hcode]
  exact replace_eq_self _ fun h => htab (h.subset List.mem_cons_self)

theorem idempotent_missingBrace : Idempotent missingBrace := by
  intro code n
  have hlines : lines (unlines (lines code ++ ["\x7d"])) = lines code ++ ["\x7d"] := by
    refine lines_unlines (by simp) fun row hr => ?_
    rcases List.mem_append.mp hr with hr | hr
    · exact not_mem_of_mem_lines hr
    · rw [List.mem_singleton.mp hr]
      decide
  have hlast : ((lines code ++ ["\x7d"]).getLast?.any fun l => trim l = "\x7d") = true := by
    rw [List.getLast?_concat]
    decide
  cases hn : Diagnostic.given n with
  | none => simp only [missingBrace, hn, Edit.keep]
  | some k =>
    by_cases h : ((lines code).getLast?.any fun l => trim l = "\x7d") = true
    · simp only [missingBrace, hn, h, if_true, Edit.keep]
    · have hmade : (missingBrace code n).code = unlines (lines code ++ ["\x7d"]) := by
        simp only [missingBrace, hn, if_neg h, Edit.ofLines]
      rw [hmade]
      simp only [missingBrace, hn, hlines, hlast, if_true, Edit.keep]

private theorem unlines_concat {ls : List String} (h : ls ≠ []) (l : String) :
    unlines (ls ++ [l]) = unlines ls ++ "\n" ++ l := by
  induction ls with
  | nil => exact absurd rfl h
  | cons a ls ih =>
    by_cases hls : ls = []
    · subst hls
      rw [List.singleton_append, unlines_cons a (by simp), unlines_singleton, unlines_singleton]
    · rw [List.cons_append, unlines_cons a (by simp), ih hls, unlines_cons a hls]
      simp only [String.append_assoc]

private theorem count_unlines_replicate (code mark : String) (k : Nat) {c : Char} (hc : c ≠ '\n') :
    (unlines (lines code ++ List.replicate k mark)).toList.count c =
      code.toList.count c + k * mark.toList.count c := by
  induction k with
  | zero => simp [unlines_lines]
  | succ k ih =>
    have hne : lines code ++ List.replicate k mark ≠ [] := by simp [lines_ne_nil]
    have hfeed : "\n".toList.count c = 0 := List.count_eq_zero_of_not_mem (by simpa using hc)
    rw [List.replicate_succ', ← List.append_assoc, unlines_concat hne, String.toList_append,
      String.toList_append, List.count_append, List.count_append, ih, hfeed, Nat.succ_mul]
    omega

theorem excess_eq (s : String) (a b : Char) : excess s (String.singleton a) (String.singleton b) =
    (s.toList.count a : Int) - s.toList.count b := by
  simp [excess, count, countChars_singleton]

private theorem idempotent_closeBraces : Idempotent fun code _ => closeBraces code := by
  intro code n
  have hexcess (s : String) : excess s "\x7b" "\x7d" =
    (s.toList.count '\x7b' : Int) - s.toList.count '\x7d' := excess_eq s '\x7b' '\x7d'
  by_cases h : 0 < excess code "\x7b" "\x7d"
  · have hclosed : ¬ 0 < excess (unlines (lines code ++
        List.replicate (excess code "\x7b" "\x7d").toNat "\x7d")) "\x7b" "\x7d" := by
      have hopen : "\x7d".toList.count '\x7b' = 0 := by decide
      have hclose : "\x7d".toList.count '\x7d' = 1 := by decide
      rw [hexcess] at h ⊢
      rw [count_unlines_replicate _ _ _ (by decide), count_unlines_replicate _ _ _ (by decide),
        hopen, hclose, hexcess]
      omega
    simp only [closeBraces, h, if_true, Edit.ofLines, hclosed, if_false, Edit.keep]
  · simp only [closeBraces, h, if_false, Edit.keep]

end Ends

/-- The completing repairs that cannot fail; two of them look at the whole text. -/
def plainCompletions : List (String → Option Int → Edit) :=
  [addSemicolon, semicolonBeforeBrace, missingOpenBrace, (missingBracket · · "["),
   (missingBracket · · "]"), missingComma, missingBrace, missingColon, matchIndent,
   fun code _ => closeBraces code, fun code _ => tabsToSpaces code]

def completions : List (String → Option Int → Except Fault Edit) :=
  elseWithoutIf :: plainCompletions.map fun repair code n => .ok (repair code n)

private theorem plainCompletions_idempotent : ∀ repair ∈ plainCompletions, Idempotent repair := by
  have hadd : Idempotent addSemicolon := by
    intro code n
    unfold addSemicolon
    exact changeLine_again (tame_withSemicolon _) (settles_withSemicolon (by decide))
  have hbefore : Idempotent semicolonBeforeBrace := by
    intro code n
    rw [semicolonBeforeBrace_code, semicolonBeforeBrace_code]
    exact changeLine_again (tame_withSemicolon _) (settles_withSemicolon (by decide))
  simp only [plainCompletions, List.forall_mem_cons]
  exact ⟨hadd, hbefore, idempotent_missingOpenBrace,
    idempotent_missingBracket (by decide) (by decide),
    idempotent_missingBracket (by decide) (by decide), idempotent_missingComma,
    idempotent_missingBrace, idempotent_missingColon, idempotent_matchIndent,
    idempotent_closeBraces, idempotent_tabsToSpaces, by simp⟩

/-- A completing repair that is told a line of the text settles it: it gives a text, and the same
repair of that text changes nothing more. -/
theorem completions_settle {code : String} {n : Int} (h : 1 ≤ n) (hn : n ≤ (lines code).length) :
    ∀ repair ∈ completions, ∃ e e', repair code (some n) = .ok e ∧
      repair e.code (some n) = .ok e' ∧ e'.code = e.code := by
  intro repair hr
  rcases List.mem_cons.mp hr with rfl | hr
  · exact elseWithoutIf_again h hn
  · obtain ⟨plain, hp, rfl⟩ := List.mem_map.mp hr
    exact ⟨_, _, rfl, rfl, plainCompletions_idempotent plain hp code (some n)⟩

/-- A semicolon goes before a comment once, and a line gets the nearest indentation once. -/
theorem completed_once :
    (addSemicolon "x = 1 // one" (some 1)).code = "x = 1;  // one" ∧
    (addSemicolon "x = 1;  // one" (some 1)).code = "x = 1;  // one" ∧
    (matchIndent "if a:\n    b\n   c" (some 3)).code = "if a:\n    b\n    c" ∧
    (matchIndent "if a:\n    b\n    c" (some 3)).code = "if a:\n    b\n    c" := by
  have hadd : (addSemicolon "x = 1 // one" (some 1)).code = "x = 1;  // one" := by decide
  have hmatch : (matchIndent "if a:\n    b\n   c" (some 3)).code = "if a:\n    b\n    c" := by
    decide
  have hagain (repair : String → Option Int → Edit) (hr : repair ∈ plainCompletions)
      (code : String) (n : Int) (h : 1 ≤ n) (hn : n ≤ (lines code).length) :
      (repair (repair code (some n)).code (some n)).code = (repair code (some n)).code := by
    obtain ⟨e, e', he, he', hcode⟩ := completions_settle h hn _
      (List.mem_cons_of_mem _ (List.mem_map_of_mem hr))
    obtain rfl := Except.ok.inj he
    obtain rfl := Except.ok.inj he'
    exact hcode
  refine ⟨hadd, ?_, hmatch, ?_⟩
  · have h := hagain addSemicolon (by simp [plainCompletions]) "x = 1 // one" 1
      (by decide) (by decide)
    rwa [hadd] at h
  · have h := hagain matchIndent (by simp [plainCompletions]) "if a:\n    b\n   c" 3
      (by decide) (by decide)
    rwa [hmatch] at h

end Mender.Repair
