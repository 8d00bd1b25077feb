import Mender.Proofs.Capture
import Mender.Proofs.ImportScan
import Mender.Proofs.Trim
import Mender.Repair.Import

/-! Which names a relative import keeps when it is made absolute. The new line is put together from
the groups of a match, and of a list of names the pattern remembers the first one only. Main
statement: what becomes of such a line, when all of its names are still there, and that lines which
are no relative imports stay as they are. -/
namespace Mender.Repair
open Text Pattern

/-- Whether a line begins with `from`, blanks and a dot, behind any indentation. -/
def isRelative (line : String) : Bool :=
  let body := trimStart line
  let after := drop 4 body
  startsWith body "from" && trimStart after != after && startsWith (trimStart after) "."

def listed (line : String) : List String :=
  match find? line "import" with
  | none => []
  | some i => (splitOn ',' (drop (i + 6) line)).map trim

structure IsGap (s : String) : Prop where
  nonempty : s ≠ ""
  blank : ∀ c ∈ s.toList, isBlank c = true

/-- A line imports a list of names relatively: each piece of the list is a name with blanks around
it. -/
structure ListsNames (line indent : String) (pieces : List String) : Prop where
  spelled : ∃ a b c, IsGap a ∧ IsGap b ∧ IsGap c ∧
    line = indent ++ "from" ++ a ++ "." ++ b ++ "import" ++ c ++ join "," pieces
  indent : ∀ c ∈ indent.toList, isBlank c = true
  names : ∀ p ∈ pieces, trim p ≠ "" ∧ ∀ c ∈ (trim p).toList, isWord c = true

section Patterns
variable {line : String}

theorem not_blank_of_isWord {c : Char} (h : isWord c = true) : isBlank c = false :=
  Review.not_blank_of_namePart (by rw [Review.isNamePart, h, Bool.true_or])

def relative (q : Pattern) : Pattern :=
  .seq (.anchor .textStart) (.seq (.group 1 (.many true (.char .blank)))
    (spelled "from".toList (.seq (plus .blank) (.seq (.char (.literal '.')) q))))

theorem relativeModule_eq : relativeModule = relative (.seq (plus .blank)
    (spelled "import".toList (.seq (plus .blank) (.group 2 (plus .word))))) := by
  decide

private theorem relativeNames_eq : relativeNames = relative (.seq (.group 2 (plus .word))
    (.seq (plus .blank) (spelled "import".toList (.seq (plus .blank)
      (.group 3 (plus (.except (.literal '\n')))))))) := by
  decide

private theorem isRelative_of_split {indent gap rest : List Char}
    (hi : ∀ c ∈ indent, isBlank c = true) (hg : ∀ c ∈ gap, isBlank c = true) (hne : gap ≠ [])
    (h : line.toList = indent ++ ("from".toList ++ (gap ++ '.' :: rest))) :
    isRelative line = true := by
  have hbody : trimStart line = String.ofList ("from".toList ++ (gap ++ '.' :: rest)) := by
    rw [trimStart, h, List.dropWhile_append_of_pos hi]
    rfl
  have hafter : drop 4 (trimStart line) = String.ofList (gap ++ '.' :: rest) := by
    rw [hbody, drop, String.toList_ofList]
    rfl
  have htrim : trimStart (String.ofList (gap ++ '.' :: rest)) = String.ofList ('.' :: rest) := by
    rw [trimStart, String.toList_ofList, List.dropWhile_append_of_pos hg]
    rfl
  have hshorter : String.ofList ('.' :: rest) ≠ String.ofList (gap ++ '.' :: rest) := by
    intro he
    have hlists := congrArg (fun s => s.toList.length) he
    simp only [String.toList_ofList, List.length_append] at hlists
    exact hne (List.length_eq_zero_iff.mp (by omega))
  have hfrom : startsWith (trimStart line) "from" = true := by simp [startsWith, hbody]
  have hdot : startsWith (String.ofList ('.' :: rest)) "." = true := by simp [startsWith]
  simp only [isRelative, hfrom, hafter, htrim, hdot, Bool.and_true, Bool.true_and, bne_iff_ne]
  exact hshorter

private theorem isRelative_of_matches {q : Pattern} {t : Cursor}
    (h : (relative q).Matches (Cursor.ofChars line.toList) t) : isRelative line = true := by
  obtain ⟨_, ⟨-, rfl⟩, _, ⟨u, hu, rfl⟩, hfrom⟩ := h
  obtain ⟨indent, hindent, hreads⟩ := matches_many_char.mp hu
  obtain ⟨v, hv, w, hgap, x, hdot, -⟩ := matches_spelled hfrom
  obtain ⟨gap, hg, hblank, hne⟩ := matches_plus hgap
  obtain ⟨c, hc, hx⟩ := matches_char.mp hdot
  obtain rfl : c = '.' := by simpa [CharClass.holds] using hc
  have hsplit : line.toList = indent ++ ("from".toList ++ (gap ++ '.' :: x.rest)) := by
    rw [show line.toList = (Cursor.ofChars line.toList).rest from rfl, hreads.rest,
      show u.rest = _ from hv.rest, hg.rest, hx.rest]
    rfl
  exact isRelative_of_split hindent hblank hne hsplit

theorem isRelative_of_absoluteImport {e : String × String}
    (h : absoluteImport line = some e) : isRelative line = true := by
  unfold absoluteImport at h
  split at h
  · rename_i m hm
    obtain ⟨t, -, ht, -⟩ := matchAt_eq_some hm
    rw [relativeModule_eq] at ht
    exact isRelative_of_matches ht
  · obtain ⟨m, hm, -⟩ := Option.map_eq_some_iff.mp h
    obtain ⟨t, -, ht, -⟩ := matchAt_eq_some hm
    rw [relativeNames_eq] at ht
    exact isRelative_of_matches ht

theorem unbroken_absoluteImport {e : String × String} (hl : Unbroken line)
    (h : absoluteImport line = some e) : Unbroken e.1 := by
  have hgroup {p : Pattern} {m : Found} (hm : p.matchStart line = some m) (i : Nat) :
      Unbroken (m.group i) := by
    rcases (drawn_of_matchAt hm rfl (List.suffix_refl _)).covered i with he | hcov
    · rw [he]
      decide
    · exact hl.of_infix hcov.isInfix
  unfold absoluteImport at h
  split at h
  · rename_i m hm
    obtain rfl := Option.some.inj h
    exact ((hgroup hm 1).append (by decide)).append (hgroup hm 2)
  · obtain ⟨m, hm, rfl⟩ := Option.map_eq_some_iff.mp h
    exact ((((hgroup hm 1).append (by decide)).append (hgroup hm 2)).append (by decide)).append
      (hgroup hm 3)

private theorem goes_relative {q : Pattern} {indent gap r : List Char} {t : Cursor}
    (hi : ∀ x ∈ indent, isBlank x = true) (hne : gap ≠ []) (hg : ∀ x ∈ gap, isBlank x = true)
    (hq : q.Goes ((((Cursor.ofChars (indent ++ ("from".toList ++ (gap ++ (['.'] ++ r))))).noting 1
      indent ("from".toList ++ (gap ++ (['.'] ++ r)))).past "from".toList
        (gap ++ (['.'] ++ r))).past gap (['.'] ++ r) |>.past ['.'] r) t) :
    (relative q).Goes (Cursor.ofChars (indent ++ ("from".toList ++ (gap ++ (['.'] ++ r))))) t := by
  have hstart : (anchor .textStart).Goes
      (Cursor.ofChars (indent ++ ("from".toList ++ (gap ++ (['.'] ++ r))))) _ :=
    fun k _ => if_pos rfl
  have hindent := (goes_many (c := .blank)
    (s := Cursor.ofChars (indent ++ ("from".toList ++ (gap ++ (['.'] ++ r))))) rfl hi
    (not_holds_head (by decide) _)).group rfl 1
  exact hstart.seq (hindent.seq (goes_spelled rfl ((goes_plus (c := .blank) rfl hne hg
    (not_holds_head (by decide) r)).seq ((goes_char rfl (by decide)).seq hq))))

theorem absoluteImport_first {indent a b c name rest : List Char}
    (hi : ∀ x ∈ indent, isBlank x = true) (ha : a ≠ [] ∧ ∀ x ∈ a, isBlank x = true)
    (hb : b ≠ [] ∧ ∀ x ∈ b, isBlank x = true) (hc : c ≠ [] ∧ ∀ x ∈ c, isBlank x = true)
    (hname : name ≠ [] ∧ ∀ x ∈ name, isWord x = true) (hrest : ∀ x ∈ rest.head?, isWord x = false) :
    (absoluteImport (String.ofList (indent ++ ("from".toList ++ (a ++ (['.'] ++ (b ++
      ("import".toList ++ (c ++ (name ++ rest)))))))))).map (·.1) =
      some (String.ofList (indent ++ ("import ".toList ++ name))) := by
  have hgoes : ∃ t, relativeModule.Goes (Cursor.ofChars (indent ++ ("from".toList ++ (a ++
      (['.'] ++ (b ++ ("import".toList ++ (c ++ (name ++ rest))))))))) t ∧
      t.groups = [(2, String.ofList name), (1, String.ofList indent)] := by
    rw [relativeModule_eq]
    have hstart : ∀ x ∈ (name ++ rest).head?, isBlank x = false := by
      obtain ⟨y, name, rfl⟩ := List.exists_cons_of_ne_nil hname.1
      rintro x ⟨⟩
      exact not_blank_of_isWord (hname.2 y List.mem_cons_self)
    exact ⟨_, goes_relative hi ha.1 ha.2 ((goes_plus (c := .blank) rfl hb.1 hb.2
      (not_holds_head (by decide) _)).seq (goes_spelled rfl ((goes_plus (c := .blank) rfl hc.1 hc.2
        hstart).seq ((goes_plus (c := .word) rfl hname.1 hname.2 hrest).group rfl 2)))), rfl⟩
  obtain ⟨t, ht, hgroups⟩ := hgoes
  have hm := ht.matchAt
  rw [absoluteImport, matchStart, String.toList_ofList, hm]
  simp [Found.group, Found.group?, hgroups, List.lookup_cons, ← String.toList_inj]

end Patterns

theorem lines_relativeImport (code : String) : lines (relativeImport code).code =
    (lines code).map fun l => ((absoluteImport l).map (·.1)).getD l := by
  unfold relativeImport
  simp only
  split
  · refine lines_unlines (by simpa using lines_ne_nil code) fun row hr => ?_
    obtain ⟨line, hline, rfl⟩ := List.mem_map.mp hr
    have hl : Unbroken line := .of_mem_lines hline
    cases he : absoluteImport line with
    | none => exact hl
    | some e => exact unbroken_absoluteImport hl he
  · rename_i hnone
    have hsame (l : String) (hl : l ∈ lines code) :
        ((absoluteImport l).map (·.1)).getD l = id l := by
      cases he : absoluteImport l with
      | none => rfl
      | some e => exact absurd (List.any_eq_true.mpr ⟨l, hl, by rw [he]; rfl⟩) hnone
    rw [List.map_congr_left hsame, List.map_id]
    rfl

section Listed

theorem listed_of_split {line : String} {pre : List Char} {pieces : List String}
    (hpre : 'i' ∉ pre) (hne : pieces ≠ []) (hcomma : ∀ p ∈ pieces, ',' ∉ p.toList)
    (h : line.toList = pre ++ "import".toList ++ (join "," pieces).toList) :
    listed line = pieces.map trim := by
  have hfirst : FirstAt "import".toList line.toList pre (join "," pieces).toList := by
    refine ⟨h, fun x y hxy => ?_⟩
    by_contra hlt
    -- The place of an earlier `import` would be one inside `pre`.
    have hi : pre[x.length]? = some 'i' := by
      have hline : line.toList[x.length]? = pre[x.length]? := by
        rw [h, List.append_assoc, List.getElem?_append_left (by omega)]
      rw [← hline, hxy, List.append_assoc, List.getElem?_append_right (Nat.le_refl _), Nat.sub_self]
      rfl
    exact hpre (List.mem_of_getElem? hi)
  cases hfind : find? line "import" with
  | none =>
    exact absurd (h ▸ (List.suffix_append pre _).isInfix.trans (List.prefix_append ..).isInfix)
      (find_eq_none.mp hfind)
  | some i =>
    obtain ⟨x, y, hxy, rfl⟩ := find_eq_some hfind
    obtain ⟨rfl, -⟩ := hfirst.unique hxy
    have hdrop : drop (x.length + 6) line = join "," pieces := by
      rw [← String.toList_inj, drop, String.toList_ofList, h]
      exact List.drop_left' (by rw [List.length_append]; rfl)
    have hsplit : splitOn ',' (join "," pieces) = pieces := splitOn_join hne hcomma
    rw [listed, hfind]
    simp only [hdrop, hsplit]

theorem not_mem_of_isBlank {cs : List Char} {c : Char} (h : ∀ x ∈ cs, isBlank x = true)
    (hc : isBlank c = false) : c ∉ cs := by
  intro hm
  rw [h c hm] at hc
  cases hc

theorem listed_absolute {indent name : String} (hi : ∀ x ∈ indent.toList, isBlank x = true)
    (hname : ∀ x ∈ name.toList, isWord x = true) :
    listed (indent ++ "import " ++ name) = [name] := by
  have hsplit : (indent ++ "import " ++ name).toList =
      indent.toList ++ "import".toList ++ (join "," [" " ++ name]).toList := by
    simp [join]
  have hcomma : ',' ∉ (" " ++ name).toList := by
    rw [String.toList_append, List.mem_append, not_or]
    exact ⟨by decide, fun hm => absurd (hname ',' hm) (by decide)⟩
  rw [listed_of_split (not_mem_of_isBlank hi (by decide)) (List.cons_ne_nil _ _)
    (by simpa using hcomma) hsplit, List.map_singleton,
    trim_blanks_append (forall_mem_of_all (by decide)),
    trim_of_not_blank fun x hx => not_blank_of_isWord (hname x hx)]

namespace ListsNames
variable {line indent p : String} {ps : List String}

private theorem not_comma (h : ListsNames line indent ps) : ∀ q ∈ ps, ',' ∉ q.toList := by
  intro q hq
  obtain ⟨as, bs, ha, hb, hsplit⟩ := exists_trim q
  rw [hsplit, List.mem_append, List.mem_append, not_or, not_or]
  exact ⟨⟨not_mem_of_isBlank ha (by decide),
    fun hm => absurd ((h.names q hq).2 ',' hm) (by decide)⟩, not_mem_of_isBlank hb (by decide)⟩

theorem listed_eq (h : ListsNames line indent (p :: ps)) : listed line = (p :: ps).map trim := by
  obtain ⟨a, b, c, ha, hb, hc, rfl⟩ := h.spelled
  have hpre : 'i' ∉ (indent ++ "from" ++ a ++ "." ++ b).toList := by
    simp only [String.toList_append, List.mem_append, not_or]
    exact ⟨⟨⟨⟨not_mem_of_isBlank h.indent (by decide), by decide⟩,
      not_mem_of_isBlank ha.blank (by decide)⟩, by decide⟩, not_mem_of_isBlank hb.blank (by decide)⟩
  have hcomma : ∀ q ∈ (c ++ p) :: ps, ',' ∉ q.toList := by
    intro q hq
    rcases List.mem_cons.mp hq with rfl | hq
    · rw [String.toList_append, List.mem_append, not_or]
      exact ⟨not_mem_of_isBlank hc.blank (by decide), h.not_comma p List.mem_cons_self⟩
    · exact h.not_comma q (List.mem_cons_of_mem p hq)
  -- The blanks behind `import` are counted to the first piece.
  have hjoin : (join "," ((c ++ p) :: ps)).toList = c.toList ++ (join "," (p :: ps)).toList := by
    have hfirst (q : String) : (join "," (q :: ps)).toList =
        q.toList ++ ps.flatMap (',' :: ·.toList) := join_cons_toList ',' q ps
    rw [hfirst, hfirst, String.toList_append, List.append_assoc]
  have hsplit : (indent ++ "from" ++ a ++ "." ++ b ++ "import" ++ c ++ join "," (p :: ps)).toList =
      (indent ++ "from" ++ a ++ "." ++ b).toList ++ "import".toList ++
        (join "," ((c ++ p) :: ps)).toList := by
    rw [hjoin]
    simp only [String.toList_append, List.append_assoc]
  rw [listed_of_split hpre (List.cons_ne_nil _ _) hcomma hsplit, List.map_cons, List.map_cons,
    trim_blanks_append hc.blank]

private theorem absoluteImport_eq (h : ListsNames line indent (p :: ps)) :
    (absoluteImport line).map (·.1) = some (indent ++ "import " ++ trim p) := by
  obtain ⟨a, b, c, ha, hb, hc, hline⟩ := h.spelled
  obtain ⟨hne, hword⟩ := h.names p List.mem_cons_self
  obtain ⟨as, bs, has, hbs, hp⟩ := exists_trim p
  have hjoin : (join "," (p :: ps)).toList = p.toList ++ ps.flatMap (',' :: ·.toList) :=
    join_cons_toList ',' p ps
  have hsplit : line = String.ofList (indent.toList ++ ("from".toList ++ (a.toList ++ (['.'] ++
      (b.toList ++ ("import".toList ++ ((c.toList ++ as) ++ ((trim p).toList ++
        (bs ++ ps.flatMap (',' :: ·.toList)))))))))) := by
    rw [← String.toList_inj, hline]
    simp [hjoin, hp]
  have hafter : ∀ x ∈ (bs ++ ps.flatMap (',' :: ·.toList)).head?, isWord x = false := by
    intro x hx
    cases bs with
    | nil =>
      cases ps with
      | nil => cases hx
      | cons q ps =>
        cases hx
        decide
    | cons y bs =>
      cases hx
      by_contra hw
      rw [Bool.not_eq_false] at hw
      exact absurd (hbs x List.mem_cons_self) (by simp [not_blank_of_isWord hw])
  have hgap : c.toList ++ as ≠ [] ∧ ∀ x ∈ c.toList ++ as, isBlank x = true := by
    refine ⟨fun he => hc.nonempty (by simpa using (List.append_eq_nil_iff.mp he).1), fun x hx => ?_⟩
    exact (List.mem_append.mp hx).elim (hc.blank x) (has x)
  rw [hsplit, absoluteImport_first h.indent ⟨by simpa using ha.nonempty, ha.blank⟩
    ⟨by simpa using hb.nonempty, hb.blank⟩ hgap ⟨by simpa using hne, hword⟩ hafter,
    Option.some.injEq, ← String.toList_inj]
  simp

end ListsNames

end Listed

/-- What becomes of relative imports. A line that imports a list of names from the directory itself
becomes an import of the first name alone, so all its names are still imported just if they are all
the same. A line that is no relative import stays as it is. -/
theorem relative_import_keeps_names_iff (code : String) :
    (∀ (i : Nat) (line indent p : String) (ps : List String),
      (lines code)[i]? = some line → ListsNames line indent (p :: ps) →
        listed line = (p :: ps).map trim ∧
        (lines (relativeImport code).code)[i]? = some (indent ++ "import " ++ trim p) ∧
        ((∀ n ∈ listed line, n ∈ listed (indent ++ "import " ++ trim p)) ↔
          ∀ q ∈ ps, trim q = trim p)) ∧
    (∀ (i : Nat) (line : String), (lines code)[i]? = some line → isRelative line = false →
      (lines (relativeImport code).code)[i]? = some line) := by
  rw [lines_relativeImport]
  refine ⟨fun i line indent p ps hi h => ⟨h.listed_eq, ?_, ?_⟩, fun i line hi hno => ?_⟩
  · rw [List.getElem?_map, hi, Option.map_some, h.absoluteImport_eq, Option.getD_some]
  · rw [h.listed_eq, listed_absolute h.indent (h.names p List.mem_cons_self).2]
    simp
  · rw [List.getElem?_map, hi, Option.map_some]
    cases he : absoluteImport line with
    | none => rfl
    | some e =>
      rw [isRelative_of_absoluteImport he] at hno
      cases hno

/-- The second name of a list is lost, and the line that defines a function stays. -/
theorem second_name_lost :
    (relativeImport "from . import a, b\ndef f():").code = "import a\ndef f():" ∧
      ∃ line indent p ps, ListsNames line indent (p :: ps) ∧ listed line = ["a", "b"] ∧
        (lines (relativeImport "from . import a, b\ndef f():").code)[0]? = some "import a" ∧
        (lines (relativeImport "from . import a, b\ndef f():").code)[1]? = some "def f():" ∧
        ¬ ∀ n ∈ listed line, n ∈ listed (indent ++ "import " ++ trim p) := by
  have hgap : IsGap " " := ⟨by decide, forall_mem_of_all (by decide)⟩
  have hlists : ListsNames "from . import a, b" "" ["a", " b"] :=
    { spelled := ⟨" ", " ", " ", hgap, hgap, hgap, by decide⟩
      indent := forall_mem_of_all (by decide)
      names := List.forall_mem_cons.mpr ⟨⟨by decide, forall_mem_of_all (by decide)⟩,
        List.forall_mem_singleton.mpr ⟨by decide, forall_mem_of_all (by decide)⟩⟩ }
  obtain ⟨hnames, hother⟩ := relative_import_keeps_names_iff "from . import a, b\ndef f():"
  obtain ⟨hlisted, hline, hkept⟩ := hnames 0 _ "" "a" [" b"] (by decide) hlists
  refine ⟨by decide +kernel, _, _, _, _, hlists, hlisted, hline,
    hother 1 _ (by decide) (by decide), ?_⟩
  rw [hkept]
  decide

end Mender.Repair
