import Mender.Proofs.Comment
import Mender.Proofs.Context

/-! Rows of a context that a reply quotes. Without its mark a row is taken for the line that it
shows, and the line is replaced where it first occurs. With its mark it is not: the number behind
the mark is taken for a part of the text, and whatever is done for the row, it is not the
replacement of the line. -/
namespace Mender.Replacement
open Text Pattern Diagnostic

section Line
variable {code line : String} {i : Nat} {pre post : List Char}

private theorem count_feeds {ls : List String} (h : ∀ l ∈ ls, Unbroken l) :
    (ls.flatMap fun l => l.toList ++ ['\n']).count '\n' = ls.length := by
  induction ls with
  | nil => rfl
  | cons l ls ih =>
    obtain ⟨hl, hls⟩ := List.forall_mem_cons.mp h
    rw [List.flatMap_cons, List.count_append, List.count_append, ih hls,
      List.count_eq_zero_of_not_mem hl, List.length_cons, Nat.add_comm]
    rfl

private theorem getLast_feeds {ls : List String} (h : ls ≠ []) :
    (ls.flatMap fun l => l.toList ++ ['\n']).getLast? = some '\n' := by
  obtain ⟨init, last, rfl⟩ := List.eq_nil_or_concat ls |>.resolve_left h
  rw [List.concat_eq_append, List.flatMap_append, List.flatMap_singleton, ← List.append_assoc,
    List.getLast?_concat]

theorem ofList_replaced_line (hline : (lines code)[i]? = some line)
    (hf : FirstAt line.toList code.toList pre post) (hi : pre.count '\n' = i) (new : String) :
    String.ofList (pre ++ new.toList ++ post) = unlines ((lines code).set i new) := by
  have hlt := (List.getElem?_eq_some_iff.mp hline).1
  have hcode := unlines_toList_of_getElem? hline
  rw [unlines_lines] at hcode
  -- the first occurrence is no later than the line, and no line feed stands between them
  have hpre : pre <+: code.toList := by
    rw [hf.split, List.append_assoc]
    exact List.prefix_append ..
  have hbefore : (((lines code).take i).flatMap fun l => l.toList ++ ['\n']) <+: code.toList := by
    rw [hcode, List.append_assoc]
    exact List.prefix_append ..
  obtain ⟨v, hv⟩ := List.prefix_of_prefix_length_le hpre hbefore (hf.first _ _ hcode)
  have hnone : '\n' ∉ v := by
    have hunbroken : ∀ l ∈ (lines code).take i, Unbroken l :=
      fun l hl => Unbroken.of_mem_lines (List.mem_of_mem_take hl)
    have hcount := count_feeds hunbroken
    rw [← hv, List.count_append, List.length_take, hi] at hcount
    exact List.count_eq_zero.mp (by omega)
  have hnil : v = [] := by
    by_contra hne
    have htake : (lines code).take i ≠ [] := by
      intro he
      rw [he] at hv
      exact hne (List.append_eq_nil_iff.mp hv).2
    have hlast := getLast_feeds htake
    rw [← hv, List.getLast?_append_of_ne_nil _ hne] at hlast
    exact hnone (List.mem_of_getLast? hlast)
  rw [hnil, List.append_nil] at hv
  have hafter := hf.split.symm.trans hcode
  rw [← hv] at hafter
  rw [← String.toList_inj, String.toList_ofList, unlines_set_toList hlt, ← hv,
    List.append_cancel_left hafter]

end Line

section Number
variable {ds bs rest : List Char}

private theorem rowNumber_numbered (hne : ds ≠ []) (hd : ∀ d ∈ ds, isDecimal d = true)
    (hb : ∀ b ∈ bs, isBlank b = true) (hr : ∀ c ∈ rest.head?, isBlank c = false) :
    rowNumber.replaceAll "" (String.ofList (ds ++ ':' :: (bs ++ rest))) = String.ofList rest := by
  have hrun : rowNumber.run some (.between [] (ds ++ ':' :: (bs ++ rest))) =
      some ((Cursor.between [] (ds ++ ':' :: (bs ++ rest))).past (ds ++ ':' :: bs) rest) := by
    have hgoes := (goes_plus (c := .digit) (s := .between [] (ds ++ ':' :: (bs ++ rest))) rfl hne hd
      (not_holds_head (w := [':']) (by decide) _)).seq
        ((goes_char (c := .literal ':') rfl rfl).seq (goes_many (c := .blank) rfl hb hr))
    rw [rowNumber_eq, anyNumber_eq]
    refine (hgoes some (by simp)).trans ?_
    rw [Cursor.past_past, Cursor.past_past]
    rfl
  have hmatch : rowNumber.matchAt false ⟨[], ds ++ ':' :: (bs ++ rest), 0, []⟩ =
      some ⟨0, String.ofList (ds ++ ':' :: bs), []⟩ := by
    have htake : (ds ++ ':' :: (bs ++ rest)).take (ds ++ ':' :: bs).length = ds ++ ':' :: bs := by
      rw [show ds ++ ':' :: (bs ++ rest) = ds ++ ':' :: bs ++ rest by simp, List.take_left]
    refine (matchAt_eq _ _).trans ((congrArg _ hrun).trans ?_)
    simp only [Cursor.past, Cursor.between, Option.map_some, List.length_nil, Nat.zero_add,
      Nat.sub_zero, htake]
  obtain ⟨t, -, hcs, he⟩ := replaced_of_matches rowNumber_moves (f := fun _ => "") hmatch
  have hrest : t.rest = rest := by
    rw [String.toList_ofList, List.append_assoc, List.cons_append] at hcs
    exact (List.append_cancel_left (List.cons.inj (List.append_cancel_left hcs)).2).symm
  rw [replaceAll, replaceBy_eq, String.toList_ofList, he, hrest]
  refine congrArg String.ofList (replaced_eq_self rowNumber_moves fun pre post hsplit => ?_)
  -- no other match stands at the start of the text
  rw [matchAt_eq_none, rowNumber_eq]
  rintro u ⟨v, ⟨ha, -⟩, -⟩
  simp [Anchor.holds] at ha

theorem apply_numbered {code line : String} {pre post : List Char} (k : Nat) {new : String}
    (hh : line.toList.head?.any (!isBlank ·) = true)
    (hf : FirstAt line.toList code.toList pre post) (hn : ¬ HoldsNumber new) :
    ((⟨toString k ++ ": " ++ line, new⟩ : Replacement).apply code).code =
      String.ofList (pre ++ new.toList ++ post) := by
  obtain ⟨c, hc, hblank⟩ := (Option.any_eq_true _ _).mp hh
  have hrow : rowNumber.replaceAll "" (toString k ++ ": " ++ line) = line := by
    have hs : toString k ++ ": " ++ line =
        String.ofList (Nat.toDigits 10 k ++ ':' :: ([' '] ++ line.toList)) := by
      rw [← String.toList_inj, String.toList_append, String.toList_append, String.toList_ofList,
        show (toString k).toList = Nat.toDigits 10 k from String.toList_ofList]
      simp
    have hspace : ∀ b ∈ [' '], isBlank b = true := List.forall_mem_singleton.mpr (by decide)
    rw [hs, rowNumber_numbered Nat.toDigits_ne_nil (isDecimal_toDigits k) hspace
      (by simpa [hc] using hblank), String.ofList_toList]
  have h0 : line ≠ "" := by
    rintro rfl
    cases hc
  have hin : line.toList <:+: code.toList := ⟨pre, post, hf.split.symm⟩
  obtain ⟨x, y, hxy, he⟩ := applyPlain_of_infix new h0 hin
  obtain ⟨rfl, rfl⟩ := hf.unique hxy
  rw [apply, unnumbered, hrow, anyNumber_replaceAll.mpr hn, he]

end Number

section Marked
variable {code line row new : String} {i : Nat}

/-- A text that shows a line behind other signs: it is no numbered row, it is longer than the line,
and its code weighs more. -/
structure Covers (row line : String) : Prop where
  unnumbered : ¬ Numbered row
  longer : line.toList.length < row.toList.length
  heavier : weight line < weight row

private theorem weight_unlines_set {ls : List String} {old : String} (hi : ls[i]? = some old)
    (new : String) : weight (unlines (ls.set i new)) + weight old =
      weight (unlines ls) + weight new := by
  rw [weight_unlines, weight_unlines]
  induction ls generalizing i with
  | nil => cases hi
  | cons l ls ih =>
    cases i with
    | zero =>
      obtain rfl : l = old := by simpa using hi
      simp only [List.set_cons_zero, List.foldr_cons]
      omega
    | succ i =>
      have h := ih (i := i) (by simpa using hi)
      simp only [List.set_cons_succ, List.foldr_cons]
      omega

theorem applyBare_ne (hc : Covers row line) (hi : (lines code)[i]? = some line) (hne : new ≠ line) :
    ((⟨row, new⟩ : Replacement).applyBare (bare row) code).code ≠
      unlines ((lines code).set i new) := by
  unfold applyBare
  dsimp only
  split
  · exact (unlines_set_lines_ne hi hne).symm
  · rename_i j hj
    obtain ⟨hlt, hbare, -⟩ := List.findIdx?_eq_some_iff_getElem.mp hj
    have hat := List.getElem?_eq_getElem hlt
    have hweight : weight (lines code)[j] = weight row := by
      rw [← weight_bare, of_decide_eq_true hbare, weight_bare]
    intro he
    change unlines _ = unlines _ at he
    have hleft := weight_unlines_set hat
      (indented (indentWidth ((lines code).getD j "")) (bare new))
    have hright := weight_unlines_set hi new
    rw [he, weight_indented, weight_bare, hweight] at hleft
    have hheavier := hc.heavier
    omega

theorem unbroken_withMark {mark s : String} (hm : Unbroken mark) (hs : Unbroken s) :
    Unbroken (withMark mark s) := by
  unfold withMark
  split
  · split
    · exact (((hs.take _).trimEnd.append hm).append (by decide)).append (hs.drop _)
    · exact hs.append hm
  · exact hs.append hm

theorem unbroken_missingMark {r : Replacement} {s mark : String}
    (h : r.missingMark? s = some mark) : Unbroken mark := by
  unfold missingMark? at h
  split at h
  · split at h
    · cases h
    · exact Option.some.inj h ▸ (by decide)
  · split at h
    · exact Option.some.inj h ▸ (by decide)
    · cases h

theorem fuzzy_eq_some {r : Replacement} {wanted mark text : String} {ls : List String} {j : Nat}
    (h : r.fuzzy? wanted ls = some (j, mark, text)) : ∃ found, ls[j]? = some found ∧
      wanted.toList <:+: (spaced (comment.beforeFirst found)).toList ∧
      r.missingMark? found = some mark ∧ text = withMark mark (trimEnd found) := by
  induction ls generalizing j with
  | nil => cases h
  | cons l ls ih =>
    unfold fuzzy? at h
    dsimp only at h
    split at h
    · rename_i found hhere
      obtain rfl := Option.some.inj h
      split at hhere
      · rename_i hwanted
        obtain ⟨m, hm, he⟩ := Option.map_eq_some_iff.mp hhere
        obtain ⟨rfl, rfl, rfl⟩ : 0 = j ∧ m = mark ∧ withMark m (trimEnd l) = text := by simpa using he
        exact ⟨l, rfl, contains_iff.mp (Bool.and_eq_true_iff.mp hwanted).2, hm, rfl⟩
      · cases hhere
    · obtain ⟨⟨k, m, t⟩, hk, he⟩ := Option.map_eq_some_iff.mp h
      obtain ⟨rfl, rfl, rfl⟩ : k + 1 = j ∧ m = mark ∧ t = text := by simpa using he
      exact ih hk

private theorem weight_le_wanted (row : String) :
    weight row ≤ (spaced (if bare row = "" then row else bare row)).toList.countP isSolid := by
  rw [countP_spaced]
  split
  · exact weightFrom_le_countP .code _
  · rw [← weight_bare]
    exact weightFrom_le_countP .code _

private theorem applyFuzzy_ne (hc : Covers row line) (hi : (lines code)[i]? = some line)
    (hne : new ≠ line) : ((⟨row, new⟩ : Replacement).applyFuzzy (bare row) code).code ≠
      unlines ((lines code).set i new) := by
  unfold applyFuzzy
  dsimp only
  split
  · rename_i j mark text hfound
    obtain ⟨found, hj, hwanted, hmark, rfl⟩ := fuzzy_eq_some hfound
    have hline : Unbroken line := Unbroken.of_mem_lines (List.mem_of_getElem? hi)
    have hfeeds : Unbroken found := Unbroken.of_mem_lines (List.mem_of_getElem? hj)
    have htext := unbroken_withMark (unbroken_missingMark hmark) hfeeds.trimEnd
    -- the line itself does not have all the wanted words
    have hij : j ≠ i := by
      rintro rfl
      obtain rfl := Option.some.inj (hi.symm.trans hj)
      have hle := (weight_le_wanted row).trans hwanted.sublist.countP_le
      rw [countP_spaced, ← weight_of_no_comment (no_comment_beforeFirst hline),
        weight_beforeFirst] at hle
      exact absurd hc.heavier (Nat.not_lt.mpr hle)
    intro he
    change unlines _ = unlines _ at he
    have hnew : Unbroken new := by
      have hleft := count_unlines_set hj (withMark mark (trimEnd found)) '\n'
      have hright := count_unlines_set hi new '\n'
      rw [he, List.count_eq_zero_of_not_mem hfeeds, List.count_eq_zero_of_not_mem htext] at hleft
      rw [List.count_eq_zero_of_not_mem hline] at hright
      exact List.count_eq_zero.mp (by omega)
    have hlines := congrArg (·[i]?) (congrArg lines he)
    rw [lines_set code j htext, lines_set code i hnew, List.getElem?_set_ne hij, hi,
      List.getElem?_set_self (List.getElem?_eq_some_iff.mp hi).1] at hlines
    exact hne (Option.some.inj hlines).symm
  · exact (unlines_set_lines_ne hi hne).symm

theorem apply_covering_ne (hc : Covers row line) (hi : (lines code)[i]? = some line)
    (hne : new ≠ line) (hn : ¬ HoldsNumber new) :
    ((⟨row, new⟩ : Replacement).apply code).code ≠ unlines ((lines code).set i new) := by
  have h0 : row ≠ "" := by
    rintro rfl
    exact absurd hc.longer (Nat.not_lt_zero _)
  rw [apply_of_not_numbered new code hc.unnumbered, anyNumber_replaceAll.mpr hn]
  by_cases hin : row.toList <:+: code.toList
  · obtain ⟨pre, post, hf, he⟩ := applyPlain_of_infix new h0 hin
    intro h
    have hlen := length_unlines_set hi new
    rw [← h, he, unlines_lines, hf.split, String.toList_ofList] at hlen
    simp only [List.length_append] at hlen
    have hlonger := hc.longer
    omega
  · have hcontains : ¬ contains code row = true := fun h => hin (contains_iff.mp h)
    unfold applyPlain
    dsimp only
    rw [if_neg h0, if_neg hcontains]
    split
    · exact applyBare_ne hc hi hne
    · exact applyFuzzy_ne hc hi hne

end Marked

section Rows
variable {l : Language} {code message ctx row line mark : String} {p : Int}

theorem exists_row (h : context l code message = .ok (some (p, ctx))) (hne : ctx ≠ "")
    (hr : row ∈ lines ctx) : ∃ (k : Nat) (line mark : String), 1 ≤ k ∧
      (lines code)[k - 1]? = some line ∧ mark ∈ [">>> ", "    "] ∧
      row = mark ++ toString k ++ ": " ++ line := by
  obtain ⟨ns, ks, -, rfl, hbounds, -⟩ := rows_of_context h
  have hks : ks ≠ [] := by
    rintro rfl
    exact hne rfl
  rw [lines_shownRows (p :: ns) code hks] at hr
  obtain ⟨k, hk, rfl⟩ := List.mem_map.mp hr
  obtain ⟨hpos, hlen⟩ := hbounds k hk
  have hline := List.getElem?_eq_getElem (l := lines code) (i := k - 1) (by omega)
  refine ⟨k, _, if (k : Int) ∈ p :: ns then ">>> " else "    ", hpos, hline, ?_, ?_⟩
  · split <;> simp
  · rw [shownRow, contextRow_eq, List.getD_eq_getElem?_getD, hline, Option.getD_some]

private theorem covers_marked (hm : mark ∈ [">>> ", "    "]) (k : Nat) (line : String) :
    Covers (mark ++ toString k ++ ": " ++ line) line := by
  have hdigits : (toString k).toList = Nat.toDigits 10 k := String.toList_ofList
  have hslash : '/' ∉ (toString k).toList := by
    rw [hdigits]
    intro h
    exact absurd (isDecimal_toDigits k _ h) (by decide)
  have hmark : '/' ∉ mark.toList := by
    rcases List.mem_pair.mp hm with rfl | rfl <;> decide
  have hfront : '/' ∉ (mark ++ toString k).toList := by
    rw [String.toList_append, List.mem_append, not_or]
    exact ⟨hmark, hslash⟩
  refine ⟨?_, ?_, ?_⟩
  · rintro ⟨ds, rest, hne, hds, hs⟩
    obtain ⟨d, ds, rfl⟩ := List.exists_cons_of_ne_nil hne
    have hd := hds d List.mem_cons_self
    simp only [String.toList_append, List.append_assoc] at hs
    rcases List.mem_pair.mp hm with rfl | rfl
    · obtain ⟨rfl, -⟩ := List.cons.inj hs
      exact absurd hd (by decide)
    · obtain ⟨rfl, -⟩ := List.cons.inj hs
      exact absurd hd (by decide)
  · simp only [String.toList_append, List.length_append]
    have hcolon : 0 < ": ".toList.length := by decide
    omega
  · rw [String.append_assoc, weight_append_of_no_slash _ hfront,
      weight_append_of_no_slash line (s := ": ") (by decide)]
    have hcolon : weight ": " = 1 := by decide
    omega

/-- A row of a context can be quoted without its mark: then the line that it shows is replaced where
it first occurs, if that is at its own place. With the mark, the row is never taken for the line. -/
theorem rows_quoted_without_mark (hc : context l code message = .ok (some (p, ctx)))
    (hne : ctx ≠ "") : ∀ row ∈ lines ctx, ∃ (k : Nat) (line mark : String), 1 ≤ k ∧
      (lines code)[k - 1]? = some line ∧ mark ∈ [">>> ", "    "] ∧
      row = mark ++ toString k ++ ": " ++ line ∧
      ∀ (pre post : List Char) (new : String), line.toList.head?.any (!isBlank ·) = true →
        FirstAt line.toList code.toList pre post → pre.count '\n' + 1 = k → ¬ HoldsNumber new →
        (applyDatum code (.list [.replacement (toString k ++ ": " ++ line) new])).outcome.1 =
          .ok (String.ofList (pre ++ new.toList ++ post)) ∧
        (new ≠ line → (applyDatum code (.list [.replacement row new])).outcome.1 ≠
          .ok (String.ofList (pre ++ new.toList ++ post))) := by
  intro row hr
  obtain ⟨k, line, mark, hpos, hline, hm, rfl⟩ := exists_row hc hne hr
  refine ⟨k, line, mark, hpos, hline, hm, rfl, fun pre post new hh hf hk hn => ⟨?_, fun hnew => ?_⟩⟩
  · rw [applyDatum_single, apply_numbered k hh hf hn]
  · rw [applyDatum_single, ofList_replaced_line hline hf (by omega) new, ne_eq, Except.ok.injEq]
    exact apply_covering_ne (covers_marked hm k line) hline hnew hn

end Rows

/-- A row of one line is quoted: without its mark the line is replaced, with it the line stays. -/
theorem marked_row_not_replaced :
    context .python "x = 1" "line 1" = .ok (some (1, ">>> 1: x = 1")) ∧
    (applyDatum "x = 1" (.list [.replacement "1: x = 1" "x = 2"])).outcome.1 = .ok "x = 2" ∧
    (applyDatum "x = 1" (.list [.replacement ">>> 1: x = 1" "x = 2"])).outcome.1 ≠ .ok "x = 2" := by
  have hc : context .python "x = 1" "line 1" = .ok (some (1, ">>> 1: x = 1")) := by
    rw [context, (allLines_eq_ok_iff (by decide)).mpr extracted_first_line]
    decide +kernel
  have hrow : ">>> 1: x = 1" ∈ lines ">>> 1: x = 1" := by decide
  obtain ⟨k, line, mark, hpos, hline, -, -, hall⟩ :=
    rows_quoted_without_mark hc (by decide) ">>> 1: x = 1" hrow
  have hlines : lines "x = 1" = ["x = 1"] := by decide
  rw [hlines] at hline
  obtain rfl : k = 1 := by
    have hlt : k - 1 < 1 := (List.getElem?_eq_some_iff.mp hline).1
    omega
  obtain rfl : "x = 1" = line := Option.some.inj hline
  have hfirst : FirstAt "x = 1".toList "x = 1".toList [] [] :=
    ⟨(List.append_nil _).symm, fun x y _ => Nat.zero_le _⟩
  have hnumber : ¬ HoldsNumber "x = 2" := by
    rintro ⟨pre, d, post, -, hs⟩
    have hcolon : ':' ∈ "x = 2".toList := by
      rw [hs]
      simp
    exact absurd hcolon (by decide)
  obtain ⟨hwithout, hwith⟩ := hall [] [] "x = 2" (by decide) hfirst (by decide) hnumber
  exact ⟨hc, hwithout, hwith (by decide)⟩

end Mender.Replacement
