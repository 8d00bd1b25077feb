import Mathlib.Data.Finset.Card
import Mender.Proofs.Restoration
import Mender.Repair.Bracket

/-! What a review lets pass. Each check is equivalent to a fact about the text before and the text
after, so the text that is taken has all of them, also where an import was restored in between. Two
gaps are left: an empty text is not checked at all, and a name may count as cut although it is still
imported. -/
namespace Mender.Review
open Text

def BracketKind.pair : BracketKind → Char × Char
  | .paren => ('(', ')')
  | .bracket => ('[', ']')
  | .brace => ('\x7b', '\x7d')

/-- An edit within bounds: at most half as many lines as there were come or go, at most five names
are new, brackets that were balanced still are, and nothing critical becomes rarer. -/
structure Moderate (lang : Option Language) (source fixed : String) : Prop where
  size : 2 * (((lines fixed).length : Int) - (lines source).length).natAbs ≤ (lines source).length
  names : ((names fixed).toFinset.filter fun n => n ∉ names source ∧ n ∉ keywords).card ≤ 5
  balance : ∀ p ∈ Repair.bracketPairs, source.toList.count p.1 = source.toList.count p.2 →
    fixed.toList.count p.1 = fixed.toList.count p.2
  critical : ∀ form ∈ (lang.map criticalForms).getD [],
    occurrences form source ≤ occurrences form fixed

section Checks
variable {lang : Option Language} {source fixed : String} {order : Arrangement}

theorem sizeObjection_eq_none_iff : sizeObjection? source fixed = none ↔
    2 * (((lines fixed).length : Int) - (lines source).length).natAbs ≤ (lines source).length := by
  simp only [sizeObjection?, ite_eq_right_iff, reduceCtorEq, imp_false]
  omega

theorem namesObjection_eq_none_iff : namesObjection? source fixed = none ↔
    ((names fixed).toFinset.filter fun n => n ∉ names source ∧ n ∉ keywords).card ≤ 5 := by
  have hnodup : (newNames source fixed).Nodup := (nodup_sorted _).filter _
  have hset : (names fixed).toFinset.filter (fun n => n ∉ names source ∧ n ∉ keywords) =
      (newNames source fixed).toFinset := by
    ext n
    simp [newNames]
  rw [hset, List.toFinset_card_of_nodup hnodup]
  simp [namesObjection?]

private theorem BracketKind.counts_eq (k : BracketKind) (code : String) :
    k.counts code = (code.toList.count k.pair.1, code.toList.count k.pair.2) := by
  cases k <;> simp [counts, count, pair, countChars_singleton]

theorem balanceObjection_eq_none_iff : balanceObjection? source fixed = none ↔
    ∀ p ∈ Repair.bracketPairs, source.toList.count p.1 = source.toList.count p.2 →
      fixed.toList.count p.1 = fixed.toList.count p.2 := by
  have hpairs : Repair.bracketPairs = BracketKind.all.map BracketKind.pair := rfl
  rw [hpairs, List.forall_mem_map, balanceObjection?, List.findSome?_eq_none_iff]
  refine forall₂_congr fun k _ => ?_
  rw [k.counts_eq fixed, k.counts_eq source]
  simp only [ite_eq_right_iff, reduceCtorEq, imp_false, Bool.and_eq_true, decide_eq_true_eq,
    not_and]
  exact ⟨fun h hs => by_contra fun hf => h hf hs, fun h hf hs => hf (h hs)⟩

theorem lossObjection_eq_none_iff : lossObjection? lang source fixed = none ↔
    ∀ form ∈ (lang.map criticalForms).getD [],
      occurrences form source ≤ occurrences form fixed := by
  rw [lossObjection?, List.findSome?_eq_none_iff]
  refine forall₂_congr fun form _ => ?_
  rw [ite_eq_right_iff, ← Nat.not_lt]
  simp

theorem objection_eq_none_iff : objection? lang source fixed order = none ↔
    fixed = "" ∨ fixed = source ∨
      Moderate lang source fixed ∧ importCut? lang source fixed order = none := by
  have hchecks : (sizeObjection? source fixed <|> namesObjection? source fixed <|>
      balanceObjection? source fixed <|> lossObjection? lang source fixed <|>
      (importCut? lang source fixed order).map .cutImport) = none ↔
      Moderate lang source fixed ∧ importCut? lang source fixed order = none := by
    simp only [Option.orElse_eq_orElse, Option.orElse_eq_or, Option.or_eq_none_iff,
      Option.map_eq_none_iff, sizeObjection_eq_none_iff, namesObjection_eq_none_iff,
      balanceObjection_eq_none_iff, lossObjection_eq_none_iff]
    exact ⟨fun ⟨h1, h2, h3, h4, h5⟩ => ⟨⟨h1, h2, h3, h4⟩, h5⟩,
      fun ⟨h, h5⟩ => ⟨h.size, h.names, h.balance, h.critical, h5⟩⟩
  unfold objection?
  split
  · rename_i h
    simp only [Bool.or_eq_true, decide_eq_true_eq] at h
    exact ⟨fun _ => h.imp_right .inl, fun _ => rfl⟩
  · rename_i h
    simp only [Bool.or_eq_true, decide_eq_true_eq, not_or] at h
    rw [hchecks]
    simp [h.1, h.2]

end Checks

section Taken
variable {lang : Option Language} {source fixed : String} {order : Arrangement}

private theorem no_objection_of_taken (h : (accept lang source fixed order).applied = true) :
    objection? lang source (accept lang source fixed order).code order = none := by
  rcases accept_outcome lang source fixed order with ⟨-, he, hn⟩ | ⟨_, -, -, -, hn⟩ | ⟨hno, -⟩
  · rwa [he]
  · exact hn
  · rw [hno] at h
    cases h

private theorem renameImport_ne_empty {old new line : String} (h : line ≠ "") :
    Repair.renameImport old new line ≠ "" := by
  apply replace_ne_empty
  · simp [toString]
  · apply replace_ne_empty
    · simp [toString]
    · exact h

private theorem taken_ne_empty (h : (accept lang source fixed order).applied = true)
    (hne : fixed ≠ "") : (accept lang source fixed order).code ≠ "" := by
  rcases accept_cases h with he | ⟨c, -, he⟩
  · rwa [he]
  · rw [he, truncatedImport_lines]
    exact unlines_map_ne_empty (fun _ => renameImport_ne_empty) hne

theorem within_bounds_of_taken (h : (accept lang source fixed order).applied = true)
    (hne : fixed ≠ "") : (accept lang source fixed order).code = source ∨
      Moderate lang source (accept lang source fixed order).code ∧
        importCut? lang source (accept lang source fixed order).code order = none :=
  (objection_eq_none_iff.mp (no_objection_of_taken h)).resolve_left (taken_ne_empty h hne)

end Taken

/-- A review of a text that is not empty: what is refused leaves the text before in place, what is
taken is that text or within all bounds, and an edit within all bounds is taken as it is. -/
theorem accept_within_bounds (lang : Option Language) (source fixed : String) (order : Arrangement)
    (hne : fixed ≠ "") :
    let taken := accept lang source fixed order
    (taken.applied = false → taken.code = source) ∧
    (taken.applied = true → taken.code = source ∨
      Moderate lang source taken.code ∧ importCut? lang source taken.code order = none) ∧
    (Moderate lang source fixed ∧ importCut? lang source fixed order = none →
      taken.applied = true ∧ taken.code = fixed) := by
  intro taken
  have hout := accept_outcome lang source fixed order
  refine ⟨fun h => ?_, fun h => within_bounds_of_taken h hne, fun h => ?_⟩
  · rcases hout with ⟨ha, -⟩ | ⟨_, -, ha, -⟩ | ⟨-, he, -⟩
    · exact absurd (ha.symm.trans h) (by decide)
    · exact absurd (ha.symm.trans h) (by decide)
    · exact he
  · have hnone : objection? lang source fixed order = none :=
      objection_eq_none_iff.mpr (.inr (.inr h))
    rcases hout with ⟨ha, he, -⟩ | ⟨_, ho, -⟩ | ⟨-, -, ho⟩
    · exact ⟨ha, he⟩
    · rw [hnone] at ho
      cases ho
    · exact absurd hnone ho

/-- A restored import of a class, beside a name that the edit exchanged. -/
theorem restored_class_within_bounds :
    let source := "import a.b;\nint x;"
    let fixed := "import a;\nint y;"
    let taken := accept (some .java) source fixed
    fixed ≠ "" ∧ taken.applied = true ∧ taken.code = "import a.b;\nint y;" ∧
      Moderate (some .java) source taken.code ∧ importCut? (some .java) source taken.code = none := by
  intro source fixed taken
  let code := "import a.b;\nint y;"
  have hsource : classImports source = ["a.b"] :=
    sorted_eq (by decide +kernel) (by decide)
  have hfixed : classImports fixed = ["a"] :=
    sorted_eq (by decide +kernel) (by decide)
  have hcode : classImports code = ["a.b"] :=
    sorted_eq (by decide +kernel) (by decide)
  have hfirst : objection? (some .java) source fixed = some (.cutImport ⟨"a.b", "a"⟩) := by
    rw [objection_eq (by decide) (by decide) (by decide +kernel) (by decide +kernel)
      (by decide +kernel) (by decide +kernel), importCut?, classCut?, hsource, hfixed]
    decide +kernel
  have hsecond : objection? (some .java) source code = none := by
    rw [objection_eq (by decide) (by decide) (by decide +kernel) (by decide +kernel)
      (by decide +kernel) (by decide +kernel), importCut?, classCut?, hsource, hcode]
    decide +kernel
  have hrestored : (Repair.truncatedImport fixed "a" "a.b").code = code := by decide +kernel
  have htaken : taken.applied = true ∧ taken.code = code := by
    have hne : code ≠ fixed := by decide
    simp [taken, accept, hfirst, hrestored, hsecond, hne]
  obtain ⟨-, hbounds, -⟩ := accept_within_bounds (some .java) source fixed .byName (by decide)
  refine ⟨by decide, htaken.1, htaken.2, (hbounds htaken.1).resolve_left ?_⟩
  rw [htaken.2]
  decide

private theorem occurrences_empty {l : Language} {form : String} (h : form ∈ criticalForms l) :
    occurrences form "" = 0 := by
  have hall : ∀ form ∈ criticalForms l, occurrences form "" = 0 := by
    cases l <;> decide +kernel
  exact hall form h

/-- A text that is taken has everything critical at least as often as the text before, unless it is
empty: an empty text is always taken, whatever is lost with it. -/
theorem taken_keeps_critical_iff (l : Language) (source fixed : String) (order : Arrangement) :
    let taken := accept (some l) source fixed order
    (fixed = "" → taken.applied = true ∧ taken.code = "") ∧
    (taken.applied = true →
      ((∀ form ∈ criticalForms l, occurrences form source ≤ occurrences form taken.code) ↔
        fixed ≠ "" ∨ ∀ form ∈ criticalForms l, occurrences form source = 0)) := by
  intro taken
  have hempty (he : fixed = "") : taken.applied = true ∧ taken.code = "" := by
    subst he
    exact ⟨rfl, rfl⟩
  refine ⟨hempty, fun h => ?_⟩
  by_cases hne : fixed = ""
  · -- nothing critical is found in the empty text
    have hnone (form : String) (hf : form ∈ criticalForms l) : occurrences form taken.code = 0 := by
      rw [(hempty hne).2]
      exact occurrences_empty hf
    constructor
    · intro hkept
      right
      intro form hf
      have hle := hkept form hf
      rw [hnone form hf] at hle
      exact Nat.le_zero.mp hle
    · rintro (habs | hzero) form hf
      · exact absurd hne habs
      · rw [hzero form hf]
        exact Nat.zero_le _
  · refine ⟨fun _ => .inl hne, fun _ form hf => ?_⟩
    rcases within_bounds_of_taken h hne with hs | ⟨hm, -⟩
    · exact Nat.le_of_eq (congrArg (occurrences form) hs.symm)
    · exact hm.critical form hf

/-- The empty text is taken in place of a function. -/
theorem function_lost_to_empty :
    let source := "def f(): pass"
    let taken := accept (some .python) source ""
    taken.applied = true ∧ occurrences "def\\s+\\w+" source = 1 ∧
      ¬ ∀ form ∈ criticalForms .python, occurrences form source ≤ occurrences form taken.code := by
  intro source taken
  obtain ⟨htaken, hkept⟩ := taken_keeps_critical_iff .python source "" .byName
  have hone : occurrences "def\\s+\\w+" source = 1 := by decide +kernel
  refine ⟨(htaken rfl).1, hone, fun hall => ?_⟩
  rcases (hkept (htaken rfl).1).mp hall with habs | hzero
  · exact habs rfl
  · have := hzero "def\\s+\\w+" (by decide)
    rw [hone] at this
    cases this

def Continues (full part : String) : Prop :=
  ∃ mark ∈ ['_', '.'], part.toList ++ [mark] <+: full.toList

theorem continues_iff {full part : String} : Continues full part ↔
    ∃ mark more, full.toList = part.toList ++ mark :: more ∧ (mark = '_' ∨ mark = '.') := by
  simp only [Continues, List.mem_cons, List.not_mem_nil, or_false, List.IsPrefix]
  constructor
  · rintro ⟨mark, hmark, more, hm⟩
    exact ⟨mark, more, by simp [← hm], hmark⟩
  · rintro ⟨mark, more, hm, hmark⟩
    exact ⟨mark, hmark, more, by simp [hm]⟩

private theorem cutPair_eq_none_iff {before after : List String} :
    cutPair? ["_", "."] before after = none ↔
      ∀ full ∈ before, ∀ part ∈ after, ¬ Continues full part := by
  rw [cutPair?, List.findSome?_eq_none_iff]
  refine forall₂_congr fun full _ => ?_
  rw [Option.map_eq_none_iff, List.find?_eq_none]
  refine forall₂_congr fun part _ => not_congr ?_
  simp [Continues, goesOn, startsWith]

/-- A script passes the check of its imports exactly if no module before goes on behind a module
after. A module that is gone while its base is imported goes on behind that base, so the search for
lost modules finds nothing more. -/
theorem scriptCut_eq_none_iff {source fixed : String} {order : Arrangement} :
    scriptCut? source fixed order = none ↔
      ∀ full ∈ scriptImports source, ∀ part ∈ scriptImports fixed, ¬ Continues full part := by
  constructor
  · intro h full hfull part hpart
    rw [scriptCut?, Option.orElse_eq_orElse, Option.orElse_eq_or, Option.or_eq_none_iff] at h
    exact cutPair_eq_none_iff.mp h.1 full (mem_scriptImports_byName.mpr hfull) part
      (mem_scriptImports_byName.mpr hpart)
  · intro h
    cases hc : scriptCut? source fixed order with
    | none => rfl
    | some c =>
      -- whichever search has found it, the full name goes on behind what is left of it
      have hfits := fits_of_scriptCut hc
      exact absurd (continues_iff.mpr hfits.marked) (h _ hfits.full _ hfits.cut)

/-- Where the imports are unchanged, a script passes the check of its imports exactly if none of
them goes on behind another one. -/
theorem unchanged_imports_pass_iff {source fixed : String} (order : Arrangement)
    (h : ∀ m, m ∈ scriptImports source ↔ m ∈ scriptImports fixed) :
    importCut? (some .python) source fixed order = none ↔
      ∀ full ∈ scriptImports source, ∀ part ∈ scriptImports source, ¬ Continues full part := by
  rw [importCut?, scriptCut_eq_none_iff]
  refine forall₂_congr fun full _ => ?_
  exact ⟨fun hn part hp => hn part ((h part).mp hp), fun hn part hp => hn part ((h part).mpr hp)⟩

/-- A package beside one of its modules does not pass, although nothing was cut. -/
theorem package_beside_module_refused :
    let source := "import os\nimport os.path\nx = 1"
    let fixed := "import os\nimport os.path\nx = 2"
    (∀ m, m ∈ scriptImports source ↔ m ∈ scriptImports fixed) ∧
      importCut? (some .python) source fixed ≠ none := by
  intro source fixed
  have hsource : scriptImports source = ["os", "os.path"] :=
    sorted_eq (by decide +kernel) (by decide)
  have hfixed : scriptImports fixed = ["os", "os.path"] :=
    sorted_eq (by decide +kernel) (by decide)
  have hsame : ∀ m, m ∈ scriptImports source ↔ m ∈ scriptImports fixed := by
    rw [hsource, hfixed]
    exact fun _ => Iff.rfl
  refine ⟨hsame, fun hpass => ?_⟩
  have hno := (unchanged_imports_pass_iff .byName hsame).mp hpass
  rw [hsource] at hno
  have hgoes : Continues "os.path" "os" := ⟨'.', by simp, "path".toList, rfl⟩
  exact hno "os.path" (by simp) "os" (by simp) hgoes

end Mender.Review
