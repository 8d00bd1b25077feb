import Mathlib.Data.List.Pairwise
import Mender.Diagnostic.FixIt

/-! Fix-its of one line are applied one after the other, and yet as if all of them were applied at
once to the line as it was. -/
namespace Mender.Diagnostic
open Text

def FixIt.within (f : FixIt) (n : Int) : Bool := f.startLine = n && f.endLine = n

def textsAt (fs : List FixIt) (col : Int) : List Char :=
  (fs.filter fun f => f.startCol = col).flatMap (·.text.toList)

def spanned (fs : List FixIt) (col : Int) : Bool :=
  fs.any fun f => f.startCol ≤ col && col < f.endCol

/-- The characters from column `col` on with all spans replaced at once: the text of a fix-it stands
at its first column, and the columns of its span go. -/
def replaceSpans (fs : List FixIt) : Int → List Char → List Char
  | col, [] => textsAt fs col
  | col, c :: cs =>
    textsAt fs col ++ (if spanned fs col then [] else [c]) ++ replaceSpans fs (col + 1) cs

/-- Lines with all spans replaced at once; each line sees only the fix-its within it. -/
def replaceInLines (fs : List FixIt) (ls : List String) : List String :=
  ls.mapIdx fun i line =>
    String.ofList (replaceSpans (fs.filter (·.within (i + 1))) 1 line.toList)

def FixIt.piece (f : FixIt) (line : String) : List Char :=
  (line.toList.drop (f.startCol - 1).toNat).take (f.endCol - f.startCol).toNat

def FixIt.alters (f : FixIt) (ls : List String) : Bool :=
  ls.zipIdx.any fun (line, i) => f.within (i + 1) && f.text.toList != f.piece line

/-- Within one line of a text, two fix-its begin at different columns and do not overlap. -/
def FixIt.Apart (ls : List String) (f g : FixIt) : Prop :=
  ∀ i : Nat, i < ls.length → f.within (i + 1) → g.within (i + 1) →
    f.startCol ≠ g.startCol ∧ (f.endCol ≤ g.startCol ∨ g.endCol ≤ f.startCol)

instance (ls : List String) : DecidableRel (FixIt.Apart ls) := fun f g => inferInstanceAs
  (Decidable (∀ i : Nat, i < ls.length → f.within (i + 1) → g.within (i + 1) →
    f.startCol ≠ g.startCol ∧ (f.endCol ≤ g.startCol ∨ g.endCol ≤ f.startCol)))

instance (ls : List String) : Std.Symm (FixIt.Apart ls) :=
  ⟨fun _ _ h i hi hg hf => ⟨(h i hi hf hg).1.symm, (h i hi hf hg).2.symm⟩⟩

/-- Each fix-it within a line keeps to its columns, and those within one line are apart. Fix-its
over several lines or outside the text are not restricted. -/
structure Orderly (ls : List String) (fs : List FixIt) : Prop where
  bounded : ∀ f ∈ fs, ∀ (i : Nat) (h : i < ls.length), f.within (i + 1) →
    1 ≤ f.startCol ∧ f.startCol ≤ f.endCol ∧ f.endCol ≤ length ls[i] + 1
  apart : fs.Pairwise (FixIt.Apart ls)

section Line
variable {f : FixIt} {fs : List FixIt} {col : Int}

private theorem textsAt_cons : textsAt (f :: fs) col =
    (if f.startCol = col then f.text.toList else []) ++ textsAt fs col := by
  by_cases h : f.startCol = col <;> simp [textsAt, h]

private theorem spanned_cons : spanned (f :: fs) col =
    (decide (f.startCol ≤ col ∧ col < f.endCol) || spanned fs col) := by
  simp [spanned]

private theorem textsAt_eq_nil (h : ∀ g ∈ fs, col < g.startCol) : textsAt fs col = [] := by
  have hn : fs.filter (fun f => f.startCol = col) = [] :=
    List.filter_eq_nil_iff.mpr fun g hg => by
      have := h g hg
      simp only [decide_eq_true_eq]
      omega
  simp [textsAt, hn]

private theorem spanned_eq_false (h : ∀ g ∈ fs, col < g.startCol) : spanned fs col = false := by
  refine List.any_eq_false.mpr fun g hg => ?_
  have := h g hg
  simp only [Bool.and_eq_true, decide_eq_true_eq]
  omega

theorem replaceSpans_before {u v : List Char} (h : ∀ g ∈ fs, col + u.length ≤ g.startCol) :
    replaceSpans fs col (u ++ v) = u ++ replaceSpans fs (col + u.length) v := by
  induction u generalizing col with
  | nil => simp
  | cons c u ih =>
    rw [List.length_cons] at h ⊢
    have hc : ∀ g ∈ fs, col < g.startCol := fun g hg => by have := h g hg; omega
    rw [List.cons_append, replaceSpans, textsAt_eq_nil hc, spanned_eq_false hc,
      ih fun g hg => by have := h g hg; omega]
    simp [Int.add_assoc, Int.add_comm 1]

theorem replaceSpans_after {cs : List Char} (hs : f.startCol < col) (he : f.endCol ≤ col) :
    replaceSpans (f :: fs) col cs = replaceSpans fs col cs := by
  have ht {c : Int} (h : col ≤ c) : textsAt (f :: fs) c = textsAt fs c := by
    rw [textsAt_cons, if_neg (by omega), List.nil_append]
  induction cs generalizing col with
  | nil => exact ht (Int.le_refl col)
  | cons c cs ih =>
    have hp : spanned (f :: fs) col = spanned fs col := by
      rw [spanned_cons, decide_eq_false (by omega), Bool.false_or]
    rw [replaceSpans, replaceSpans, ht (Int.le_refl col), hp,
      ih (by omega) (by omega) fun h => ht (by omega)]

private theorem replaceSpans_inside {v x : List Char} (hs : f.startCol < col)
    (he : col + v.length = f.endCol) (h : ∀ g ∈ fs, f.endCol ≤ g.startCol) :
    replaceSpans (f :: fs) col (v ++ x) = replaceSpans fs f.endCol x := by
  induction v generalizing col with
  | nil =>
    obtain rfl : col = f.endCol := by simpa using he
    rw [List.nil_append]
    exact replaceSpans_after (by omega) (by omega)
  | cons c v ih =>
    rw [List.length_cons] at he
    have ht : textsAt (f :: fs) col = [] := by
      rw [textsAt_cons, if_neg (by omega), textsAt_eq_nil fun g hg => by have := h g hg; omega]
      rfl
    have hp : spanned (f :: fs) col = true := by
      rw [spanned_cons, decide_eq_true ⟨Int.le_of_lt hs, by omega⟩, Bool.true_or]
    rw [List.cons_append, replaceSpans, ht, hp, if_pos rfl, ih (by omega) (by omega)]
    rfl

theorem replaceSpans_at {v x : List Char} (he : f.startCol + v.length = f.endCol)
    (h : ∀ g ∈ fs, f.endCol ≤ g.startCol) :
    replaceSpans (f :: fs) f.startCol (v ++ x) =
      f.text.toList ++ replaceSpans fs f.endCol x := by
  have ht : textsAt (f :: fs) f.startCol = f.text.toList ++ textsAt fs f.startCol := by
    rw [textsAt_cons, if_pos rfl]
  cases v with
  | cons c v =>
    rw [List.length_cons] at he
    have hp : spanned (f :: fs) f.startCol = true := by
      rw [spanned_cons, decide_eq_true ⟨Int.le_refl _, by omega⟩, Bool.true_or]
    rw [List.cons_append, replaceSpans, ht, textsAt_eq_nil fun g hg => by have := h g hg; omega, hp,
      if_pos rfl, replaceSpans_inside (by omega) (by omega) h]
    simp
  | nil =>
    -- an insertion: the span is empty and the column itself stays
    have he : f.startCol = f.endCol := by simpa using he
    cases x with
    | nil => rw [List.nil_append, replaceSpans, replaceSpans, ht, he]
    | cons c x =>
      have hp : spanned (f :: fs) f.startCol = spanned fs f.startCol := by
        rw [spanned_cons, decide_eq_false (by omega), Bool.false_or]
      rw [List.nil_append, replaceSpans, replaceSpans, ht, hp,
        replaceSpans_after (by omega) (by omega), ← he]
      simp

end Line

theorem FixIt.cut {f : FixIt} {line : String} (hs : 1 ≤ f.startCol) (he : f.startCol ≤ f.endCol)
    (hl : f.endCol ≤ length line + 1) :
    ∃ u x, line.toList = u ++ f.piece line ++ x ∧ (u.length : Int) = f.startCol - 1 ∧
      ((f.piece line).length : Int) = f.endCol - f.startCol := by
  simp only [length] at hl
  refine ⟨line.toList.take (f.startCol - 1).toNat,
    (line.toList.drop (f.startCol - 1).toNat).drop (f.endCol - f.startCol).toNat, ?_, ?_, ?_⟩
  · rw [piece, List.append_assoc, List.take_append_drop, List.take_append_drop]
  · rw [List.length_take]
    omega
  · rw [piece, List.length_take, List.length_drop]
    omega

theorem FixIt.onLine_eq {f : FixIt} {line : String} {u v y : List Char}
    (h : line.toList = u ++ v ++ y) (hu : (u.length : Int) = f.startCol - 1)
    (hv : (v.length : Int) = f.endCol - f.startCol) :
    f.onLine line =
      if f.text.toList = v then none else some (String.ofList (u ++ f.text.toList ++ y)) := by
  have hl : (line.toList.length : Int) = u.length + v.length + y.length := by
    rw [h, List.length_append, List.length_append]
    omega
  have hs : clampIndex (length line) (f.startCol - 1) = u.length := by
    rw [clampIndex, if_neg (by omega), length]
    omega
  have he : clampIndex (length line) (f.endCol - 1) = (u ++ v).length := by
    rw [clampIndex, if_neg (by omega), length, List.length_append]
    omega
  have hn : upTo (f.startCol - 1) line ++ f.text ++ onward (f.endCol - 1) line =
      String.ofList (u ++ f.text.toList ++ y) := by
    rw [← String.toList_inj]
    simp only [upTo, onward, take, drop, hs, he, h, String.toList_append, String.toList_ofList]
    simp
  have hc : String.ofList (u ++ f.text.toList ++ y) = line ↔ f.text.toList = v := by
    rw [← String.toList_inj, String.toList_ofList, h]
    simp
  rw [onLine, if_pos ⟨by rw [length]; omega, by rw [length]; omega⟩, changed, hn]
  simp only [hc]

section Lines
variable {ls : List String} {f : FixIt} {fs : List FixIt}

@[simp] theorem length_replaceInLines : (replaceInLines fs ls).length = ls.length := by
  simp [replaceInLines]

theorem getElem?_replaceInLines (i : Nat) : (replaceInLines fs ls)[i]? = ls[i]?.map fun line =>
    String.ofList (replaceSpans (fs.filter (·.within (i + 1))) 1 line.toList) := by
  simp [replaceInLines]

theorem FixIt.within_iff {n : Int} : f.within n = true ↔ f.startLine = n ∧ f.endLine = n := by
  simp [within]

theorem FixIt.alters_iff : f.alters ls = true ↔
    ∃ (i : Nat) (h : i < ls.length), f.within (i + 1) = true ∧ f.text.toList ≠ f.piece ls[i] := by
  simp only [alters, List.any_eq_true, Prod.exists, List.mk_mem_zipIdx_iff_getElem?,
    List.getElem?_eq_some_iff, Bool.and_eq_true, bne_iff_ne]
  constructor
  · rintro ⟨_, i, ⟨h, rfl⟩, hw⟩
    exact ⟨i, h, hw⟩
  · rintro ⟨i, h, hw⟩
    exact ⟨_, i, ⟨h, rfl⟩, hw⟩

private theorem replaceInLines_of_outside
    (h : ∀ i : Nat, i < ls.length → f.within (i + 1) = false) :
    replaceInLines (f :: fs) ls = replaceInLines fs ls := by
  refine List.ext_getElem? fun i => ?_
  rw [getElem?_replaceInLines, getElem?_replaceInLines]
  by_cases hi : i < ls.length
  · rw [List.filter_cons_of_neg (by simp [h i hi])]
  · rw [List.getElem?_eq_none (by omega)]
    rfl

private theorem FixIt.apply_of_outside (h : ∀ i : Nat, i < ls.length → f.within (i + 1) = false) :
    f.apply ls = none := by
  unfold FixIt.apply
  split
  · rename_i he
    have hn : ¬ (0 < f.startLine ∧ f.startLine ≤ ls.length) := fun ⟨h0, hl⟩ => by
      have := h (f.startLine.toNat - 1) (by omega)
      rw [← Bool.not_eq_true, within_iff] at this
      exact this ⟨by omega, by omega⟩
    simp [lineAt?, lineIndex?, hn]
  · rfl

private theorem FixIt.apply_of_within {i : Nat} {line : String} (hi : ls[i]? = some line)
    (h : f.within (i + 1) = true) : f.apply ls = (f.onLine line).map (ls.set i) := by
  obtain ⟨hs, he⟩ := within_iff.mp h
  have hl : i < ls.length := (List.getElem?_eq_some_iff.mp hi).1
  have hn : lineAt? ls (some f.startLine) = some (i, line) := by
    have hp : 0 < f.startLine ∧ f.startLine ≤ ls.length := by omega
    have ht : f.startLine.toNat - 1 = i := by omega
    simp only [lineAt?, lineIndex?, hp, and_self, if_true, ht, hi, Option.map_some]
  rw [FixIt.apply, if_pos (hs.trans he.symm), hn]

private theorem replaceInLines_of_within {i : Nat} {line : String} (hi : ls[i]? = some line)
    (h : f.within (i + 1) = true) : replaceInLines (f :: fs) ls = (replaceInLines fs ls).set i
      (String.ofList (replaceSpans (f :: fs.filter (·.within (i + 1))) 1 line.toList)) := by
  refine List.ext_getElem? fun j => ?_
  rw [getElem?_replaceInLines, List.getElem?_set, length_replaceInLines]
  by_cases hj : i = j
  · subst hj
    have hl : i < ls.length := (List.getElem?_eq_some_iff.mp hi).1
    have hf : (f :: fs).filter (·.within (i + 1)) = f :: fs.filter (·.within (i + 1)) :=
      List.filter_cons_of_pos h
    rw [if_pos rfl, if_pos hl, hi, hf, Option.map_some]
  · have hn : f.within (j + 1) = false := by
      rw [Bool.eq_false_iff, ne_eq, FixIt.within_iff]
      have := FixIt.within_iff.mp h
      omega
    rw [if_neg hj, getElem?_replaceInLines, List.filter_cons_of_neg (by simp [hn])]

/-- A fix-it before all others of its line comes to the lines in which the others are done: it finds
its columns as they were, and adds its own replacement to theirs. -/
theorem FixIt.apply_replaceInLines
    (hb : ∀ (i : Nat) (h : i < ls.length), f.within (i + 1) →
      1 ≤ f.startCol ∧ f.startCol ≤ f.endCol ∧ f.endCol ≤ length ls[i] + 1)
    (hf : ∀ g ∈ fs, ∀ i : Nat, i < ls.length → f.within (i + 1) → g.within (i + 1) →
      f.endCol ≤ g.startCol) :
    (f.apply (replaceInLines fs ls)).getD (replaceInLines fs ls) = replaceInLines (f :: fs) ls ∧
      (f.apply (replaceInLines fs ls)).isSome = f.alters ls := by
  by_cases hin : ∃ i : Nat, i < ls.length ∧ f.within (i + 1) = true
  · obtain ⟨i, hi, hw⟩ := hin
    have hline : ls[i]? = some ls[i] := List.getElem?_eq_getElem hi
    obtain ⟨hs, he, hl⟩ := hb i hi hw
    obtain ⟨u, x, hc, hu, hv⟩ := FixIt.cut hs he hl
    let gs := fs.filter (·.within (i + 1))
    let rest := replaceSpans gs f.endCol x
    have hg : ∀ g ∈ gs, f.endCol ≤ g.startCol := fun g hg =>
      have hm := List.mem_filter.mp hg
      hf g hm.1 i hi hw hm.2
    have hold : replaceSpans gs 1 ls[i].toList = u ++ f.piece ls[i] ++ rest := by
      have hn : 1 + ((u ++ f.piece ls[i]).length : Int) = f.endCol := by
        rw [List.length_append]
        omega
      rw [hc, replaceSpans_before (by rwa [hn]), hn]
    have hnew : replaceSpans (f :: gs) 1 ls[i].toList = u ++ f.text.toList ++ rest := by
      have hn : 1 + (u.length : Int) = f.startCol := by omega
      rw [hc, List.append_assoc, replaceSpans_before, hn, replaceSpans_at (by omega) hg,
        List.append_assoc]
      intro g hm
      obtain rfl | hm := List.mem_cons.mp hm
      · omega
      · have := hg g hm
        omega
    have hhere : (replaceInLines fs ls)[i]? = some (String.ofList
        (replaceSpans gs 1 ls[i].toList)) := by
      rw [getElem?_replaceInLines, hline, Option.map_some]
    have happ : f.apply (replaceInLines fs ls) = (f.onLine (String.ofList
        (replaceSpans gs 1 ls[i].toList))).map ((replaceInLines fs ls).set i) :=
      FixIt.apply_of_within hhere hw
    have halt : f.alters ls = true ↔ f.text.toList ≠ f.piece ls[i] := by
      refine ⟨fun h => ?_, fun h => FixIt.alters_iff.mpr ⟨i, hi, hw, h⟩⟩
      obtain ⟨j, hj, hwj, h⟩ := FixIt.alters_iff.mp h
      obtain rfl : j = i := by
        have := FixIt.within_iff.mp hw
        have := FixIt.within_iff.mp hwj
        omega
      exact h
    rw [happ, FixIt.onLine_eq (by rw [String.toList_ofList, hold]) hu hv,
      replaceInLines_of_within hline hw, hnew]
    by_cases ht : f.text.toList = f.piece ls[i]
    · obtain ⟨hlt, hat⟩ := List.getElem?_eq_some_iff.mp hhere
      rw [if_pos ht, ht, ← hold, ← hat, List.set_getElem_self]
      exact ⟨rfl, (Bool.eq_false_iff.mpr fun h => halt.mp h ht).symm⟩
    · rw [if_neg ht]
      exact ⟨rfl, (halt.mpr ht).symm⟩
  · have hout : ∀ i : Nat, i < ls.length → f.within (i + 1) = false := fun i hi =>
      Bool.eq_false_iff.mpr fun hw => hin ⟨i, hi, hw⟩
    rw [FixIt.apply_of_outside (by simpa using hout), replaceInLines_of_outside hout]
    refine ⟨rfl, (Bool.eq_false_iff.mpr fun h => ?_).symm⟩
    obtain ⟨i, hi, hw, -⟩ := FixIt.alters_iff.mp h
    exact hin ⟨i, hi, hw⟩

end Lines

def FixIt.note (f : FixIt) : String := s!"  [FIXIT] 行 {f.startLine}: 应用修复建议"

def FixIt.step (state : List String × List String) (f : FixIt) : List String × List String :=
  match f.apply state.1 with
  | none => state
  | some ls => (ls, state.2 ++ [f.note])

theorem applyFixIts_eq (code : String) (fs : List FixIt) :
    let state := (fs.mergeSort FixIt.notBefore).foldl FixIt.step (lines code, [])
    applyFixIts code fs =
      { code := unlines state.1, notes := state.2, applied := !state.2.isEmpty } := rfl

theorem notBefore_iff {f g : FixIt} : f.notBefore g = true ↔
    g.startLine < f.startLine ∨ g.startLine = f.startLine ∧ g.startCol ≤ f.startCol := by
  simp [FixIt.notBefore]

theorem pairwise_notBefore (fs : List FixIt) :
    (fs.mergeSort FixIt.notBefore).Pairwise fun f g => f.notBefore g = true := by
  refine List.pairwise_mergeSort (fun f g h hf hg => ?_) (fun f g => ?_) fs
  · rw [notBefore_iff] at hf hg ⊢
    omega
  · rw [Bool.or_eq_true, notBefore_iff, notBefore_iff]
    omega

private theorem Orderly.ends_before {ls : List String} {f : FixIt} {fs : List FixIt}
    (h : Orderly ls (f :: fs)) {g : FixIt} (hg : g ∈ fs) (hn : g.notBefore f = true) {i : Nat}
    (hi : i < ls.length) (hf : f.within (i + 1)) (hw : g.within (i + 1)) :
    f.endCol ≤ g.startCol := by
  have ha := (List.pairwise_cons.mp h.apart).1 g hg i hi hf hw
  have hb := h.bounded g (List.mem_cons_of_mem f hg) i hi hw
  rw [notBefore_iff] at hn
  rw [FixIt.within_iff] at hf hw
  omega

/-- Fix-its applied from the last one to the first one: all spans are replaced at once, and those
that alter a line are noted. -/
theorem foldr_step {ls : List String} {fs : List FixIt} (h : Orderly ls fs)
    (hs : fs.Pairwise fun f g => g.notBefore f = true) :
    fs.foldr (fun f state => FixIt.step state f) (ls, []) =
      (replaceInLines fs ls, ((fs.filter (·.alters ls)).map FixIt.note).reverse) := by
  induction fs with
  | nil =>
    have hn : replaceInLines [] ls = ls := by
      have hid (col : Int) (cs : List Char) : replaceSpans [] col cs = cs := by
        induction cs generalizing col with
        | nil => rfl
        | cons c cs ih => rw [replaceSpans, ih]; rfl
      simp [replaceInLines, hid, List.mapIdx_eq_iff]
    simp [hn]
  | cons f fs ih =>
    obtain ⟨hf, hs⟩ := List.pairwise_cons.mp hs
    have ht : Orderly ls fs := ⟨fun g hg => h.bounded g (List.mem_cons_of_mem f hg),
      (List.pairwise_cons.mp h.apart).2⟩
    obtain ⟨hl, ha⟩ := FixIt.apply_replaceInLines (h.bounded f List.mem_cons_self)
      fun g hg i hi hw hw' => h.ends_before hg (hf g hg) hi hw hw'
    rw [List.foldr_cons, ih ht hs, FixIt.step, List.filter_cons, ← ha]
    cases hap : f.apply (replaceInLines fs ls) with
    | none =>
      rw [hap] at hl
      simpa using hl
    | some new =>
      rw [hap] at hl
      simpa using hl

section Order
variable {ls : List String} {fs gs : List FixIt}

theorem Orderly.perm (h : Orderly ls fs) (hp : fs.Perm gs) : Orderly ls gs where
  bounded f hf := h.bounded f (hp.mem_iff.mpr hf)
  apart := (hp.pairwise_iff fun ha => symm ha).mp h.apart

private theorem textsAt_perm {col : Int} (h : fs.Pairwise fun f g => f.startCol ≠ g.startCol)
    (hp : fs.Perm gs) : textsAt fs col = textsAt gs col := by
  have hf := hp.filter fun f => f.startCol = col
  have hd := h.filter fun f => f.startCol = col
  have hc : ∀ f ∈ fs.filter fun f => f.startCol = col, f.startCol = col := fun f hf => by
    simpa using (List.mem_filter.mp hf).2
  rw [textsAt, textsAt]
  -- at most one fix-it begins at the column
  generalize fs.filter (fun f => f.startCol = col) = here at hf hd hc ⊢
  match here with
  | [] => rw [hf.symm.eq_nil]
  | [f] => rw [hf.symm.eq_singleton]
  | f :: g :: rest =>
    have hne := (List.pairwise_cons.mp hd).1 g List.mem_cons_self
    exact absurd ((hc f (by simp)).trans (hc g (by simp)).symm) hne

private theorem replaceInLines_perm (h : Orderly ls fs) (hp : fs.Perm gs) :
    replaceInLines fs ls = replaceInLines gs ls := by
  refine List.ext_getElem? fun i => ?_
  rw [getElem?_replaceInLines, getElem?_replaceInLines]
  by_cases hi : i < ls.length
  · have hf := hp.filter (·.within (i + 1))
    have hd : (fs.filter (·.within (i + 1))).Pairwise fun f g => f.startCol ≠ g.startCol := by
      refine (h.apart.filter _).imp_of_mem fun hf hg ha => ?_
      exact (ha i hi (List.mem_filter.mp hf).2 (List.mem_filter.mp hg).2).1
    have hs (col : Int) (cs : List Char) : replaceSpans (fs.filter (·.within (i + 1))) col cs =
        replaceSpans (gs.filter (·.within (i + 1))) col cs := by
      induction cs generalizing col with
      | nil => exact textsAt_perm hd hf
      | cons c cs ih =>
        rw [replaceSpans, replaceSpans, textsAt_perm hd hf, ih, spanned, spanned, hf.any_eq]
    simp only [hs]
  · rw [List.getElem?_eq_none (by omega)]
    rfl

private theorem sorted_alters_perm (h : Orderly ls fs) (hp : fs.Perm gs) :
    (fs.mergeSort FixIt.notBefore).filter (·.alters ls) =
      (gs.mergeSort FixIt.notBefore).filter (·.alters ls) := by
  have hsort : (fs.mergeSort FixIt.notBefore).Perm (gs.mergeSort FixIt.notBefore) :=
    ((List.mergeSort_perm fs _).trans hp).trans (List.mergeSort_perm gs _).symm
  refine List.Perm.eq_of_pairwise ?_ ((pairwise_notBefore fs).filter _)
    ((pairwise_notBefore gs).filter _) (hsort.filter _)
  intro f g hf hg hfg hgf
  by_contra hne
  obtain ⟨hf, ha⟩ := List.mem_filter.mp hf
  obtain ⟨hg, hb⟩ := List.mem_filter.mp hg
  have hf : f ∈ fs := (List.mergeSort_perm fs _).mem_iff.mp hf
  have hg : g ∈ fs := hp.mem_iff.mpr ((List.mergeSort_perm gs _).mem_iff.mp hg)
  obtain ⟨i, hi, hw, -⟩ := FixIt.alters_iff.mp ha
  obtain ⟨j, hj, hv, -⟩ := FixIt.alters_iff.mp hb
  have hline : j = i := by
    rw [notBefore_iff] at hfg hgf
    rw [FixIt.within_iff] at hw hv
    omega
  have := (h.apart.forall hf hg hne i hi hw (hline ▸ hv)).1
  rw [notBefore_iff] at hfg hgf
  omega

end Order

/-- Fix-its that keep to the columns of their lines and do not overlap: the text has every spanned
piece replaced at once, with columns counted in the lines as they were; it counts as changed just if
some fix-it does not put back what it replaces; and the order of the list plays no part. -/
theorem applyFixIts_simultaneous (code : String) (fs : List FixIt) (h : Orderly (lines code) fs) :
    (applyFixIts code fs).code = unlines (replaceInLines fs (lines code)) ∧
    ((applyFixIts code fs).applied = true ↔ ∃ f ∈ fs, f.alters (lines code) = true) ∧
    ∀ gs, fs.Perm gs → applyFixIts code gs = applyFixIts code fs := by
  have heq {gs : List FixIt} (h : Orderly (lines code) gs) : applyFixIts code gs =
      let notes := ((gs.mergeSort FixIt.notBefore).filter (·.alters (lines code))).map FixIt.note
      { code := unlines (replaceInLines gs (lines code)), notes := notes,
        applied := !notes.isEmpty } := by
    have hp := (List.mergeSort_perm gs FixIt.notBefore).symm
    have hr := hp.trans (List.reverse_perm _).symm
    have hf := foldr_step (h.perm hr) (List.pairwise_reverse.mpr (pairwise_notBefore gs))
    rw [applyFixIts_eq, List.foldl_eq_foldr_reverse, hf, ← replaceInLines_perm h hr]
    simp
  refine ⟨by rw [heq h], ?_, fun gs hp => ?_⟩
  · rw [heq h]
    simp [List.mem_mergeSort]
  · rw [heq h, heq (h.perm hp), replaceInLines_perm h hp, sorted_alters_perm h hp]

/-- A word is exchanged for two lines, a bracket is put in and one behind the end, while a fix-it
over two lines and one behind the text are passed over. -/
theorem fixIts_of_one_line :
    let code := "ab cd\nef"
    let fs : List FixIt := [⟨1, 1, 1, 3, "x\ny"⟩, ⟨1, 2, 2, 1, "?"⟩, ⟨1, 6, 1, 6, ")"⟩,
      ⟨1, 4, 1, 4, "("⟩, ⟨7, 1, 7, 2, "?"⟩]
    Orderly (lines code) fs ∧ (applyFixIts code fs).code = "x\ny (cd)\nef" ∧
      (applyFixIts code fs).applied = true ∧
      applyFixIts code fs.reverse = applyFixIts code fs := by
  intro code fs
  have h : Orderly (lines code) fs := ⟨by decide, by decide⟩
  obtain ⟨hc, ha, hp⟩ := applyFixIts_simultaneous code fs h
  have hr : unlines (replaceInLines fs (lines code)) = "x\ny (cd)\nef" := by decide
  exact ⟨h, hc.trans hr, ha.mpr ⟨⟨1, 1, 1, 3, "x\ny"⟩, by decide, by decide⟩,
    hp _ (List.reverse_perm fs).symm⟩

end Mender.Diagnostic
