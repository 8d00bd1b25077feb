import Mender.Proofs.Restoration
import Mender.Proofs.Trim

/-! Which lines the restoration of a cut module name touches. It works on pieces of text: the cut
name between `from` and a space, and whatever begins with the cut name behind `import`. Main
statement: the lines that change, when only lines that name the cut module do, and when a second
restoration changes nothing. -/
namespace Mender.Review
open Text

/-- The names of a text behind a keyword and a space, each as far as it goes, with the text behind
the name. -/
def namesBehind (word cs : List Char) : List (List Char × List Char) :=
  (cs.tails.filter (keyed word []).isPrefixOf).map fun y =>
    let after := y.drop (keyed word []).length
    (after.takeWhile isNamePart, after.dropWhile isNamePart)

def isNamed (t : List Char) (line : String) : Bool :=
  ["from", "import"].any fun word => (namesBehind word.toList line.toList).any (·.1 == t)

def isBegun (t : List Char) (line : String) : Bool :=
  (namesBehind "import".toList line.toList).any fun p => t.isPrefixOf p.1

/-- Whether a line has the name `t` between `from` and a space, or a name that begins with it behind
`import`. -/
def isTouched (t : List Char) (line : String) : Bool :=
  (namesBehind "from".toList line.toList).any (fun p => p.1 == t && p.2.head? == some ' ') ||
    isBegun t line

section Occurrences
variable {word t cs : List Char} {line : String}

theorem mem_namesBehind {p : List Char × List Char} : p ∈ namesBehind word cs ↔
    (∃ pre, cs = pre ++ (keyed word p.1 ++ p.2)) ∧ (∀ c ∈ p.1, isNamePart c = true) ∧
      ∀ c ∈ p.2.head?, isNamePart c = false := by
  obtain ⟨name, rest⟩ := p
  simp only [namesBehind, List.mem_map, List.mem_filter, List.mem_tails,
    List.isPrefixOf_iff_prefix, Prod.mk.injEq]
  constructor
  · rintro ⟨-, ⟨⟨pre, rfl⟩, y, rfl⟩, rfl, rfl⟩
    rw [List.drop_left]
    refine ⟨⟨pre, by simp [keyed]⟩, fun c hc => List.mem_takeWhile_imp hc, fun c hc => ?_⟩
    have hend := List.head?_dropWhile_not isNamePart y
    rw [hc] at hend
    exact hend
  · rintro ⟨⟨pre, rfl⟩, hname, hstops⟩
    have hkeyed : keyed word name ++ rest = keyed word [] ++ (name ++ rest) := by simp [keyed]
    refine ⟨keyed word name ++ rest, ⟨⟨pre, rfl⟩, name ++ rest, hkeyed.symm⟩, ?_, ?_⟩
    · rw [hkeyed, List.drop_left, List.takeWhile_append_of_pos hname]
      cases rest with
      | nil => simp
      | cons c rest => rw [List.takeWhile_cons_of_neg (by simp [hstops c rfl]), List.append_nil]
    · rw [hkeyed, List.drop_left, List.dropWhile_append_of_pos hname]
      cases rest with
      | nil => rfl
      | cons c rest => rw [List.dropWhile_cons_of_neg (by simp [hstops c rfl])]

theorem isBegun_iff (ht : ∀ c ∈ t, isNamePart c = true) :
    isBegun t line = true ↔ keyed "import".toList t <:+: line.toList := by
  simp only [isBegun, List.any_eq_true, List.isPrefixOf_iff_prefix]
  constructor
  · rintro ⟨⟨name, rest⟩, hp, u, rfl⟩
    obtain ⟨⟨pre, hpre⟩, -, -⟩ := mem_namesBehind.mp hp
    exact ⟨pre, u ++ rest, by simp [hpre, keyed]⟩
  · rintro ⟨pre, y, hy⟩
    have hend := List.head?_dropWhile_not isNamePart y
    refine ⟨(t ++ y.takeWhile isNamePart, y.dropWhile isNamePart),
      mem_namesBehind.mpr ⟨⟨pre, ?_⟩, fun c hc => ?_, fun c hc => ?_⟩, List.prefix_append ..⟩
    · simp [← hy, keyed, List.takeWhile_append_dropWhile]
    · rcases List.mem_append.mp hc with hc | hc
      · exact ht c hc
      · exact List.mem_takeWhile_imp hc
    · rw [hc] at hend
      exact hend

theorem isTouched_iff (ht : ∀ c ∈ t, isNamePart c = true) : isTouched t line = true ↔
    keyed "from".toList (t ++ [' ']) <:+: line.toList ∨
      keyed "import".toList t <:+: line.toList := by
  rw [isTouched, Bool.or_eq_true, isBegun_iff ht]
  simp only [List.any_eq_true, Bool.and_eq_true, beq_iff_eq]
  refine or_congr_left ⟨?_, ?_⟩
  · rintro ⟨⟨name, rest⟩, hp, rfl, hspace⟩
    obtain ⟨y, rfl⟩ := List.head?_eq_some_iff.mp hspace
    obtain ⟨⟨pre, hpre⟩, -, -⟩ := mem_namesBehind.mp hp
    exact ⟨pre, y, by simp [hpre, keyed]⟩
  · rintro ⟨pre, y, hy⟩
    refine ⟨(t, ' ' :: y), mem_namesBehind.mpr ⟨⟨pre, by simp [← hy, keyed]⟩, ht, ?_⟩, rfl, rfl⟩
    rintro c ⟨⟩
    decide

private theorem isNamed_of_isTouched (h : isTouched t line = true) (hno : isBegun t line = false) :
    isNamed t line = true := by
  rw [isTouched, hno, Bool.or_false, List.any_eq_true] at h
  obtain ⟨p, hp, he⟩ := h
  refine List.any_eq_true.mpr ⟨"from", by simp, List.any_eq_true.mpr ⟨p, hp, ?_⟩⟩
  exact (Bool.and_eq_true_iff.mp he).1

theorem not_isTouched_iff (t : List Char) (line : String) :
    (isNamed t line = false → isTouched t line = false) ↔
      (isBegun t line = true → isNamed t line = true) := by
  constructor
  · intro h hbegun
    by_contra hno
    have hkept := h (by simpa using hno)
    rw [isTouched, hbegun, Bool.or_true] at hkept
    cases hkept
  · intro h hno
    by_contra htouched
    have hfree : isBegun t line = false := by
      rw [Bool.eq_false_iff]
      intro hbegun
      rw [h hbegun] at hno
      cases hno
    rw [isNamed_of_isTouched (by simpa using htouched) hfree] at hno
    cases hno

end Occurrences

section Exchange
variable {t f cs : List Char}

theorem import_survives (ht : ∀ c ∈ t, isNamePart c = true) (hk : ¬ "import".toList <:+ t)
    (h : keyed "import".toList t <:+: cs) :
    keyed "import".toList t <:+: exchangeFrom t f cs := by
  have hne : keyed "from".toList (t ++ [' ']) ≠ [] := by simp [keyed]
  induction hn : cs.length using Nat.strongRecOn generalizing cs with
  | ind n ih =>
    subst hn
    by_cases hp : keyed "from".toList (t ++ [' ']) <+: cs
    · obtain ⟨y, rfl⟩ := hp
      rw [exchangeFrom, replaceChars_matched hne]
      rcases isInfix_append_cases h with ⟨u, v, hx, hv, hi⟩ | hi
      · exact absurd hi (not_import_in_from_piece ht hk hx hv y)
      · have hpos := List.length_pos_of_ne_nil hne
        have hrest := ih y.length (by rw [List.length_append]; omega) hi rfl
        exact hrest.trans (List.suffix_append ..).isInfix
    · cases cs with
      | nil => exact absurd (List.infix_nil.mp h) (by simp [keyed])
      | cons c cs =>
        rcases List.infix_cons_iff.mp h with hx | hi
        · -- an occurrence in the name begins like what is put in for it
          refine (replaceChars_keeps_start hne hx fun u v y hu hv hy => ?_).isInfix
          have hor : v <+: keyed "from".toList (t ++ [' ']) ∨
              keyed "from".toList (t ++ [' ']) <+: v := by
            obtain ⟨r, hr⟩ := hx
            rw [hu, List.append_assoc, hy, List.append_cancel_left_eq] at hr
            exact List.prefix_or_prefix_of_prefix ⟨r, hr⟩ (List.prefix_append ..)
          obtain ⟨-, -, -, hfrom⟩ := prefix_from_of_end ht hu hv hor
          exact hfrom.trans (List.prefix_append ..)
        · rw [exchangeFrom, replaceChars_of_not hp]
          exact (ih cs.length (by simp) hi rfl).trans (List.suffix_cons ..).isInfix

theorem import_reflected (ht : ∀ c ∈ t, isNamePart c = true) (hf : ∀ c ∈ f, isNamePart c = true)
    (hk : ¬ "import".toList <:+ f) (h : keyed "import".toList t <:+: exchangeFrom t f cs) :
    keyed "import".toList t <:+: cs := by
  have hne : keyed "from".toList (t ++ [' ']) ≠ [] := by simp [keyed]
  induction hn : cs.length using Nat.strongRecOn generalizing cs with
  | ind n ih =>
    subst hn
    by_cases hp : keyed "from".toList (t ++ [' ']) <+: cs
    · obtain ⟨y, rfl⟩ := hp
      rw [exchangeFrom, replaceChars_matched hne] at h
      rcases isInfix_append_cases h with ⟨u, v, hx, hv, hi⟩ | hi
      · exact absurd hi (not_import_in_from_piece hf hk hx hv _)
      · have hpos := List.length_pos_of_ne_nil hne
        have hrest := ih y.length (by rw [List.length_append]; omega) hi rfl
        exact hrest.trans (List.suffix_append ..).isInfix
    · cases cs with
      | nil => exact h
      | cons c cs =>
        rw [exchangeFrom, replaceChars_of_not hp] at h
        rcases List.infix_cons_iff.mp h with hx | hi
        · rw [← replaceChars_of_not hp] at hx
          rcases prefix_replaceChars hx hne with ⟨y, hy, -⟩ | ⟨u, v, y, hu, hv, hy, hor⟩
          · exact hy ▸ (List.prefix_append ..).isInfix
          · obtain ⟨-, -, -, hfrom⟩ := prefix_from_of_end ht hu hv hor
            rw [hu, hy]
            refine (((List.prefix_append_right_inj u).mpr ?_).isInfix)
            exact hfrom.trans ((List.prefix_append ..).trans (List.prefix_append ..))
        · exact (ih cs.length (by simp) hi rfl).trans (List.suffix_cons ..).isInfix

/-- An end of the piece before a replacement that agrees with the new one is the whole piece or the
keyword, for a name that ends with it. -/
private theorem from_end_cases {u v : List Char} (ht : ∀ c ∈ t, isNamePart c = true)
    (hu : keyed "from".toList (t ++ [' ']) = u ++ v) (hv : v ≠ [])
    (hor : v <+: keyed "from".toList f ∨ keyed "from".toList f <+: v) :
    u = [] ∨ v = "from".toList ++ [' '] := by
  rcases from_piece_cases hu hv with rfl | ⟨c, r, rfl, hc⟩ | ⟨z, w, rfl, rfl⟩
  · exact .inl rfl
  · obtain rfl : c = 'f' := by
      rcases hor with h | h
      · exact (List.cons_prefix_cons.mp h).1
      · exact (List.cons_prefix_cons.mp h).1.symm
    exact absurd hc (by decide)
  · have hw (c : Char) (hc : c ∈ w) : isNamePart c = true := ht c (List.mem_append_right z hc)
    have hword : w = "from".toList := by
      rcases hor with h | h
      · have hstart : keyed w [] <+: "from".toList ++ ' ' :: f := h
        exact word_of_keyed_start hw isName_from.2 hstart
      · exact (word_of_keyed_start isName_from.2 hw h).symm
    exact .inr (by rw [hword])

private theorem not_cut_in_full_piece {s u v : List Char}
    (hf : ∀ c ∈ t ++ '_' :: s, isNamePart c = true) (hk : ¬ "from".toList <:+ t ++ '_' :: s)
    (h : keyed "from".toList (t ++ '_' :: s ++ [' ']) = u ++ v) (hv : v ≠ []) (y : List Char) :
    ¬ keyed "from".toList (t ++ [' ']) <+: v ++ y := by
  intro hi
  rcases from_piece_cases h hv with rfl | ⟨c, r, rfl, hc⟩ | ⟨z, w, hz, rfl⟩
  · -- the full name goes on where a space would have to follow
    rw [← show _ = v from h] at hi
    simp [keyed] at hi
  · obtain rfl : 'f' = c := (List.cons_prefix_cons.mp hi).1
    exact absurd hc (by decide)
  · rw [List.append_assoc] at hi
    have hword := word_of_keyed_start isName_from.2
      (fun c hc => hf c (hz ▸ List.mem_append_right z hc)) hi
    exact hk ⟨z, by rw [hword, hz]⟩

theorem from_gone {s : List Char} (ht : ∀ c ∈ t, isNamePart c = true)
    (hf : ∀ c ∈ t ++ '_' :: s, isNamePart c = true) (hk : ¬ "from".toList <:+ t ++ '_' :: s)
    (cs : List Char) :
    ¬ keyed "from".toList (t ++ [' ']) <:+: exchangeFrom t (t ++ '_' :: s) cs := by
  have hne : keyed "from".toList (t ++ [' ']) ≠ [] := by simp [keyed]
  induction hn : cs.length using Nat.strongRecOn generalizing cs with
  | ind n ih =>
    subst hn
    intro h
    by_cases hp : keyed "from".toList (t ++ [' ']) <+: cs
    · obtain ⟨y, rfl⟩ := hp
      rw [exchangeFrom, replaceChars_matched hne] at h
      rcases isInfix_append_cases h with ⟨u, v, hx, hv, hi⟩ | hi
      · exact not_cut_in_full_piece hf hk hx hv _ hi
      · have hpos := List.length_pos_of_ne_nil hne
        exact ih y.length (by rw [List.length_append]; omega) y rfl hi
    · cases cs with
      | nil => exact absurd (List.infix_nil.mp h) hne
      | cons c cs =>
        rw [exchangeFrom, replaceChars_of_not hp] at h
        rcases List.infix_cons_iff.mp h with hx | hi
        · rw [← replaceChars_of_not hp] at hx
          rcases prefix_replaceChars hx hne with ⟨y, hy, -⟩ | ⟨u, v, y, hu, hv, hy, hor⟩
          · exact hp ⟨y, hy.symm⟩
          · refine hp ?_
            rcases from_end_cases ht hu hv hor with rfl | rfl
            · exact ⟨y, hy.symm⟩
            · -- the two occurrences share the word `from`, so the first one is there as well
              rw [hu, hy, List.prefix_append_right_inj]
              exact ⟨t ++ [' '] ++ y, by simp [keyed]⟩
        · exact ih cs.length (by simp) cs rfl hi

end Exchange

section Restored
variable {t s : List Char} {line code : String}

theorem restored_toList (t f : List Char) (line : String) :
    (Repair.renameImport (String.ofList t) (String.ofList f) line).toList =
      exchangeImport t f (exchangeFrom t f line.toList) := by
  rw [renameImport_toList, String.toList_ofList (l := t), String.toList_ofList (l := f)]

theorem renameImport_eq_self_iff (ht : ∀ c ∈ t, isNamePart c = true) :
    Repair.renameImport (String.ofList t) (String.ofList (t ++ '_' :: s)) line = line ↔
      isTouched t line = false := by
  rw [Bool.eq_false_iff, ne_eq, isTouched_iff ht, not_or, ← String.toList_inj, restored_toList]
  constructor
  · intro he
    have hlen := congrArg List.length he
    have hfrom : line.toList.length ≤ (exchangeFrom t (t ++ '_' :: s) line.toList).length ∧
        (keyed "from".toList (t ++ [' ']) <:+: line.toList → _ →
          line.toList.length < (exchangeFrom t (t ++ '_' :: s) line.toList).length) :=
      length_replaceChars (by simp [keyed]) (by simp [keyed]) line.toList
    have himport (cs : List Char) : cs.length ≤ (exchangeImport t (t ++ '_' :: s) cs).length ∧
        (keyed "import".toList t <:+: cs → _ →
          cs.length < (exchangeImport t (t ++ '_' :: s) cs).length) :=
      length_replaceChars (by simp [keyed]) (by simp [keyed]) cs
    -- neither replacement shortens the line, so neither can make it longer
    have hno : ¬ keyed "from".toList (t ++ [' ']) <:+: line.toList := by
      intro hi
      have hlonger := hfrom.2 hi (by simp [keyed])
      have hkept := (himport (exchangeFrom t (t ++ '_' :: s) line.toList)).1
      omega
    refine ⟨hno, fun hi => ?_⟩
    have hsame : exchangeFrom t (t ++ '_' :: s) line.toList = line.toList :=
      replaceChars_eq_self hno
    have hlonger := (himport line.toList).2 hi (by simp [keyed])
    rw [hsame] at hlen
    omega
  · rintro ⟨hf, hi⟩
    rw [exchangeFrom, replaceChars_eq_self hf, exchangeImport, replaceChars_eq_self hi]

/-- What is restored can be restored again exactly where a name behind `import` begins with the cut
one. -/
private theorem isTouched_renameImport (hf : ∀ c ∈ t ++ '_' :: s, isNamePart c = true)
    (hk : ¬ "import".toList <:+ t) (hclear : endsInKeyword (t ++ '_' :: s) = false) :
    isTouched t (Repair.renameImport (String.ofList t) (String.ofList (t ++ '_' :: s)) line) =
      isBegun t line := by
  obtain ⟨hkfrom, hkimport⟩ := endsInKeyword_eq_false.mp hclear
  have ht (c : Char) (hc : c ∈ t) : isNamePart c = true := hf c (List.mem_append_left _ hc)
  rw [Bool.eq_iff_iff, isTouched_iff ht, isBegun_iff ht, restored_toList]
  constructor
  · intro h
    by_contra hno
    have hnot : ¬ keyed "import".toList t <:+: exchangeFrom t (t ++ '_' :: s) line.toList :=
      fun hi => hno (import_reflected ht hf hkimport hi)
    rw [exchangeImport, replaceChars_eq_self hnot] at h
    rcases h with h | h
    · exact from_gone ht hf hkfrom line.toList h
    · exact hnot h
  · intro h
    have hfull : keyed "import".toList (t ++ '_' :: s) <:+:
        exchangeImport t (t ++ '_' :: s) (exchangeFrom t (t ++ '_' :: s) line.toList) :=
      infix_replaceChars (by simp [keyed]) (import_survives ht hk h)
    refine .inr (List.IsInfix.trans ?_ hfull)
    exact ⟨[], '_' :: s, by simp [keyed]⟩

private theorem unbroken_names {w : List Char} (hw : ∀ c ∈ w, isNamePart c = true) :
    Unbroken (String.ofList w) := by
  rw [Unbroken, String.toList_ofList]
  exact fun h => absurd (hw '\n' h) (by decide)

theorem lines_truncatedImport (hf : ∀ c ∈ t ++ '_' :: s, isNamePart c = true) (code : String) :
    lines (Repair.truncatedImport code (String.ofList t) (String.ofList (t ++ '_' :: s))).code =
      (lines code).map (Repair.renameImport (String.ofList t) (String.ofList (t ++ '_' :: s))) := by
  rw [truncatedImport_lines]
  refine lines_unlines (by simpa using lines_ne_nil code) fun row hr => ?_
  obtain ⟨line, hline, rfl⟩ := List.mem_map.mp hr
  have hfull : Unbroken (String.ofList (t ++ '_' :: s)) := unbroken_names hf
  have hfrom : Unbroken ("from " ++ String.ofList (t ++ '_' :: s) ++ " ") :=
    (Unbroken.append (by decide) hfull).append (by decide)
  have himport : Unbroken ("import " ++ String.ofList (t ++ '_' :: s)) :=
    Unbroken.append (by decide) hfull
  exact ((Unbroken.of_mem_lines hline).replace _ hfrom).replace _ himport

/-- A second restoration changes nothing just if no name behind `import` began with the cut one. -/
private theorem truncatedImport_again_iff (hf : ∀ c ∈ t ++ '_' :: s, isNamePart c = true)
    (hk : ¬ "import".toList <:+ t) (hclear : endsInKeyword (t ++ '_' :: s) = false)
    (code : String) :
    let restore (text : String) :=
      (Repair.truncatedImport text (String.ofList t) (String.ofList (t ++ '_' :: s))).code
    restore (restore code) = restore code ↔ ∀ line ∈ lines code, isBegun t line = false := by
  intro restore
  have hlines (text : String) : lines (restore text) = _ := lines_truncatedImport hf text
  have hsame : restore (restore code) = restore code ↔
      lines (restore (restore code)) = lines (restore code) := by
    refine ⟨congrArg lines, fun h => ?_⟩
    rw [← unlines_lines (restore (restore code)), h, unlines_lines]
  rw [hsame, hlines (restore code), hlines code, List.map_map, List.map_inj_left]
  refine forall₂_congr fun line _ => ?_
  rw [Function.comp_apply,
    renameImport_eq_self_iff fun c hc => hf c (List.mem_append_left _ hc),
    isTouched_renameImport hf hk hclear]

end Restored

/-- What the restoration of a cut name touches. A line changes exactly if it has the cut name
between `from` and a space, or any name that begins with it behind `import`. So only lines that name
the cut module change just if no other line has such a name; and, where the names do not end like
keywords, a second restoration changes nothing just if no line at all has one. -/
theorem restoration_touches_iff (code : String) {t s : List Char}
    (hf : ∀ c ∈ t ++ '_' :: s, isNamePart c = true) :
    let restore (text : String) :=
      (Repair.truncatedImport text (String.ofList t) (String.ofList (t ++ '_' :: s))).code
    (∀ (i : Nat) (line : String), (lines code)[i]? = some line →
      ((lines (restore code))[i]? = some line ↔ isTouched t line = false)) ∧
    ((∀ (i : Nat) (line : String), (lines code)[i]? = some line → isNamed t line = false →
        (lines (restore code))[i]? = some line) ↔
      ∀ line ∈ lines code, isBegun t line = true → isNamed t line = true) ∧
    (¬ "import".toList <:+ t → endsInKeyword (t ++ '_' :: s) = false →
      (restore (restore code) = restore code ↔ ∀ line ∈ lines code, isBegun t line = false)) := by
  intro restore
  have ht (c : Char) (hc : c ∈ t) : isNamePart c = true := hf c (List.mem_append_left _ hc)
  have hstays (i : Nat) (line : String) (hline : (lines code)[i]? = some line) :
      (lines (restore code))[i]? = some line ↔ isTouched t line = false := by
    rw [show lines (restore code) = _ from lines_truncatedImport hf code, List.getElem?_map, hline,
      Option.map_some, Option.some.injEq]
    exact renameImport_eq_self_iff ht
  refine ⟨hstays, ⟨fun h line hline => ?_, fun h i line hi hno => ?_⟩,
    fun hk hclear => truncatedImport_again_iff hf hk hclear code⟩
  · obtain ⟨i, hi⟩ := List.getElem?_of_mem hline
    exact (not_isTouched_iff t line).mp fun hno => (hstays i line hi).mp (h i line hi hno)
  · exact (hstays i line hi).mpr
      ((not_isTouched_iff t line).mpr (h line (List.mem_of_getElem? hi)) hno)

/-- An import of the full name is no import of the cut one, and yet it is changed at each
restoration. -/
theorem full_name_restored_again :
    let code := "import step1_parsing"
    let t := "step1".toList
    let restore (text : String) :=
      (Repair.truncatedImport text (String.ofList t)
        (String.ofList (t ++ '_' :: "parsing".toList))).code
    isNamed t code = false ∧ (lines (restore code))[0]? ≠ some code ∧
      restore (restore code) ≠ restore code := by
  intro code t restore
  have hnames : ∀ c ∈ t ++ '_' :: "parsing".toList, isNamePart c = true :=
    forall_mem_of_all (by decide)
  have hline : (lines code)[0]? = some code := by decide
  have hbegun : isBegun t code = true := by decide
  obtain ⟨hstays, -, hagain⟩ := restoration_touches_iff code hnames
  refine ⟨by decide, fun h => ?_, fun h => ?_⟩
  · have hkept := (hstays 0 code hline).mp h
    rw [isTouched, hbegun, Bool.or_true] at hkept
    cases hkept
  · have hno := (hagain (by decide) (by decide)).mp h code (List.mem_of_getElem? hline)
    rw [hbegun] at hno
    cases hno

end Mender.Review
