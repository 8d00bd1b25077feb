import Mathlib.Data.List.Infix
import Mender.Text.Basic
import Mender.Text.Order

/-! Searching and replacing pieces of text: what a search finds is the first occurrence. -/
namespace Mender.Text
variable {s piece : String}

/-- The first occurrence of a piece in a text stands between `pre` and `post`. -/
structure FirstAt (piece cs pre post : List Char) : Prop where
  split : cs = pre ++ piece ++ post
  first : ∀ x y, cs = x ++ piece ++ y → pre.length ≤ x.length

theorem FirstAt.unique {piece cs pre post x y : List Char} (h : FirstAt piece cs pre post)
    (k : FirstAt piece cs x y) : x = pre ∧ y = post := by
  have hlen : x.length = pre.length :=
    Nat.le_antisymm (k.first pre post h.split) (h.first x y k.split)
  have hsplit := k.split.symm.trans h.split
  rw [List.append_assoc, List.append_assoc] at hsplit
  obtain ⟨rfl, htail⟩ := List.append_inj hsplit hlen
  exact ⟨rfl, List.append_cancel_left htail⟩

theorem forall_mem_of_all {α : Type} {P : α → Prop} [DecidablePred P] {xs : List α}
    (h : xs.all (fun x => decide (P x)) = true) : ∀ x ∈ xs, P x :=
  fun x hx => of_decide_eq_true (List.all_eq_true.mp h x hx)

theorem findChars_eq_none {piece cs : List Char} {start : Nat} :
    findChars piece start cs = none ↔ ¬ piece <:+: cs := by
  induction cs generalizing start with
  | nil => simp [findChars]
  | cons c cs ih =>
    unfold findChars
    rw [List.infix_cons_iff, not_or, ← @ih (start + 1)]
    split
    · rename_i h
      simp [List.isPrefixOf_iff_prefix.mp h]
    · rename_i h
      rw [List.isPrefixOf_iff_prefix] at h
      simp [h]

private theorem findChars_eq_some {piece cs : List Char} {start i : Nat}
    (h : findChars piece start cs = some i) :
    ∃ pre post, FirstAt piece cs pre post ∧ i = start + pre.length := by
  induction cs generalizing start with
  | nil =>
    unfold findChars at h
    split at h
    · rename_i hp
      simp only [List.isEmpty_iff] at hp
      exact ⟨[], [], ⟨by simp [hp], fun _ _ _ => Nat.zero_le _⟩, (Option.some.inj h).symm⟩
    · simp at h
  | cons c cs ih =>
    unfold findChars at h
    split at h
    · rename_i hp
      obtain ⟨post, hp⟩ := List.isPrefixOf_iff_prefix.mp hp
      exact ⟨[], post, ⟨by simp [hp], fun _ _ _ => Nat.zero_le _⟩, (Option.some.inj h).symm⟩
    · rename_i hp
      obtain ⟨pre, post, ⟨hs, hf⟩, rfl⟩ := ih h
      refine ⟨c :: pre, post, ⟨by simp [hs], fun x y he => ?_⟩, by simp; omega⟩
      cases x with
      | nil =>
        rw [List.isPrefixOf_iff_prefix] at hp
        exact absurd ⟨y, by simpa using he.symm⟩ hp
      | cons d x =>
        have := hf x y (by simpa using (List.cons.inj he).2)
        simpa using this

theorem contains_iff : contains s piece = true ↔ piece.toList <:+: s.toList := by
  rw [contains, find?, ← Option.ne_none_iff_isSome, ne_eq, findChars_eq_none, not_not]

theorem not_contains_of_not_mem {c : Char} (hp : c ∈ piece.toList)
    (hs : c ∉ s.toList) : contains s piece = false := by
  rw [Bool.eq_false_iff, ne_eq, contains_iff]
  exact fun h => hs (h.subset hp)

theorem find_eq_none : find? s piece = none ↔ ¬ piece.toList <:+: s.toList :=
  findChars_eq_none

theorem find_eq_some {i : Nat} (h : find? s piece = some i) :
    ∃ pre post, FirstAt piece.toList s.toList pre post ∧ i = pre.length := by
  obtain ⟨pre, post, hf, hi⟩ := findChars_eq_some h
  exact ⟨pre, post, hf, by omega⟩

theorem replaceFirst_eq (new : String) (h : piece.toList <:+: s.toList) :
    ∃ pre post, FirstAt piece.toList s.toList pre post ∧
      replaceFirst s piece new = String.ofList (pre ++ new.toList ++ post) := by
  cases hi : find? s piece with
  | none => exact absurd h (find_eq_none.mp hi)
  | some i =>
    obtain ⟨pre, post, hf, rfl⟩ := find_eq_some hi
    refine ⟨pre, post, hf, ?_⟩
    rw [replaceFirst, hi]
    simp only [hf.split, length]
    rw [← String.toList_inj]
    simp

theorem replaceChars_eq_self {old new cs : List Char} (h : ¬ old <:+: cs) :
    replaceChars old new 0 cs = cs := by
  induction cs with
  | nil => rfl
  | cons c cs ih =>
    rw [List.infix_cons_iff, not_or] at h
    rw [replaceChars, if_neg (by simpa [List.isPrefixOf_iff_prefix] using h.1), ih h.2]

theorem replace_eq_self {s old : String} (new : String) (h : ¬ old.toList <:+: s.toList) :
    replace s old new = s := by
  unfold replace
  split
  · rfl
  · rw [replaceChars_eq_self h, String.ofList_toList]

theorem replaceChars_single {a b : Char} (cs : List Char) :
    replaceChars [a] [b] 0 cs = cs.map fun c => if c = a then b else c := by
  induction cs with
  | nil => rfl
  | cons c cs ih =>
    rw [replaceChars, List.map_cons]
    by_cases h : c = a
    · subst h
      simpa using ih
    · simpa [h, Ne.symm h] using ih

theorem count_replace_le {c : Char} {new : String} (hc : c ∉ new.toList) (s old : String) :
    (replace s old new).toList.count c ≤ s.toList.count c := by
  have hrec (skip : Nat) (cs : List Char) :
      (replaceChars old.toList new.toList skip cs).count c ≤ cs.count c := by
    induction cs generalizing skip with
    | nil => simp [replaceChars]
    | cons d cs ih =>
      cases skip with
      | succ skip =>
        rw [replaceChars]
        exact (ih skip).trans (List.count_le_count_cons ..)
      | zero =>
        rw [replaceChars]
        split
        · rw [List.count_append, List.count_eq_zero_of_not_mem hc, Nat.zero_add]
          exact (ih _).trans (List.count_le_count_cons ..)
        · simp only [List.count_cons]
          exact Nat.add_le_add_right (ih 0) _
  unfold replace
  split
  · exact Nat.le_refl _
  · rw [String.toList_ofList]
    exact hrec 0 s.toList

theorem countChars_singleton (c : Char) (cs : List Char) : countChars [c] 0 cs = cs.count c := by
  induction cs with
  | nil => rfl
  | cons d cs ih =>
    rw [countChars, List.count_cons]
    by_cases h : d = c
    · simp [h, ih, Nat.add_comm]
    · simp [h, Ne.symm h, ih]

theorem prefix_of_separated {x y piece : List Char} {sep : Char} (hsep : sep ∉ piece)
    (h : piece <+: x ++ sep :: y) : piece <+: x := by
  rcases List.prefix_or_prefix_of_prefix h (List.prefix_append x _) with hp | ⟨v, rfl⟩
  · exact hp
  · cases v with
    | nil => simp
    | cons c v =>
      obtain ⟨rfl, -⟩ := List.cons_prefix_cons.mp ((List.prefix_append_right_inj x).mp h)
      simp at hsep

section Replacing
variable {old new : List Char}

private theorem replaceChars_pass (v r : List Char) :
    replaceChars old new v.length (v ++ r) = replaceChars old new 0 r := by
  induction v with
  | nil => rfl
  | cons c v ih => exact ih

theorem replaceChars_matched (h : old ≠ []) (r : List Char) :
    replaceChars old new 0 (old ++ r) = new ++ replaceChars old new 0 r := by
  obtain ⟨c, v, rfl⟩ := List.exists_cons_of_ne_nil h
  rw [List.cons_append, replaceChars, if_pos (by simp)]
  exact congrArg (new ++ ·) (replaceChars_pass v r)

theorem replaceChars_of_not {c : Char} {cs : List Char} (h : ¬ old <+: c :: cs) :
    replaceChars old new 0 (c :: cs) = c :: replaceChars old new 0 cs := by
  rw [replaceChars, if_neg (by simpa [List.isPrefixOf_iff_prefix] using h)]

theorem replaceChars_append {x y : List Char}
    (h : ∀ u v, x = u ++ v → v ≠ [] → ¬ old <+: v ++ y) :
    replaceChars old new 0 (x ++ y) = x ++ replaceChars old new 0 y := by
  induction x with
  | nil => rfl
  | cons c x ih =>
    have hc : ¬ old <+: c :: (x ++ y) := h [] (c :: x) rfl (by simp)
    rw [List.cons_append, replaceChars_of_not hc, ih, List.cons_append]
    exact fun u v hx hv => h (c :: u) v (by rw [hx, List.cons_append]) hv

theorem replaceChars_separated (hne : old ≠ []) {sep : Char} (hsep : sep ∉ old) (x y : List Char) :
    replaceChars old new 0 (x ++ sep :: y) =
      replaceChars old new 0 x ++ sep :: replaceChars old new 0 y := by
  induction hn : x.length using Nat.strongRecOn generalizing x with
  | ind n ih =>
    subst hn
    by_cases hp : old <+: x
    · obtain ⟨r, rfl⟩ := hp
      have := List.length_pos_of_ne_nil hne
      rw [List.append_assoc, replaceChars_matched hne, replaceChars_matched hne,
        ih _ (by simp; omega) r rfl, List.append_assoc]
    · have hq : ¬ old <+: x ++ sep :: y := fun h => hp (prefix_of_separated hsep h)
      cases x with
      | nil =>
        rw [List.nil_append] at hq ⊢
        rw [replaceChars_of_not hq]
        rfl
      | cons c x =>
        rw [List.cons_append] at hq ⊢
        rw [replaceChars_of_not hq, replaceChars_of_not hp, ih _ (by simp) x rfl, List.cons_append]

theorem prefix_replaceChars {x cs : List Char} (h : x <+: replaceChars old new 0 cs)
    (hne : old ≠ []) :
    (∃ y, cs = x ++ y ∧ replaceChars old new 0 cs = x ++ replaceChars old new 0 y) ∨
      ∃ u v y, x = u ++ v ∧ v ≠ [] ∧ cs = u ++ (old ++ y) ∧ (v <+: new ∨ new <+: v) := by
  induction x generalizing cs with
  | nil => exact .inl ⟨cs, rfl, rfl⟩
  | cons c x ih =>
    by_cases hp : old <+: cs
    · obtain ⟨y, rfl⟩ := hp
      rw [replaceChars_matched hne] at h
      exact .inr ⟨[], c :: x, y, rfl, by simp, rfl,
        List.prefix_or_prefix_of_prefix h (List.prefix_append ..)⟩
    · cases cs with
      | nil => simp [replaceChars] at h
      | cons d cs =>
        rw [replaceChars_of_not hp] at h ⊢
        obtain ⟨rfl, hx⟩ := List.cons_prefix_cons.mp h
        rcases ih hx with ⟨y, rfl, he⟩ | ⟨u, v, y, rfl, hv, rfl, hor⟩
        · exact .inl ⟨y, rfl, by rw [he]; rfl⟩
        · exact .inr ⟨c :: u, v, y, rfl, hv, rfl, hor⟩

end Replacing

variable {ls rows : List String} {sep c : Char} {i : Nat}

theorem upTo_concat {cs : List Char} (h : s.toList = cs ++ [c]) :
    upTo (-1) s = String.ofList cs := by
  have hlength : clampIndex (length s) (-1) = cs.length := by
    rw [clampIndex, if_pos (by decide), length, h, List.length_append, List.length_singleton]
    omega
  rw [upTo, hlength, take, h, List.take_left]

theorem replace_toList {s old new : String} (h : old ≠ "") :
    (replace s old new).toList = replaceChars old.toList new.toList 0 s.toList := by
  rw [replace, if_neg (by simpa using h), String.toList_ofList]

private theorem replaceChars_ne_nil {old new cs : List Char} (hnew : new ≠ []) (h : cs ≠ []) :
    replaceChars old new 0 cs ≠ [] := by
  obtain ⟨c, cs, rfl⟩ := List.exists_cons_of_ne_nil h
  rw [replaceChars]
  split
  · exact List.append_ne_nil_of_left_ne_nil hnew _
  · exact List.cons_ne_nil _ _

theorem replace_ne_empty {s old new : String} (hnew : new ≠ "") (h : s ≠ "") :
    replace s old new ≠ "" := by
  rw [replace]
  split
  · exact h
  · have hn : replaceChars old.toList new.toList 0 s.toList ≠ [] :=
      replaceChars_ne_nil (by simpa using hnew) (by simpa using h)
    simpa using hn

theorem intercalate_cons_cons (sep : Char) (p q : List Char) (ps : List (List Char)) :
    [sep].intercalate (p :: q :: ps) = p ++ sep :: [sep].intercalate (q :: ps) := by
  simp [List.intercalate]

theorem intercalate_splitChars (sep : Char) (cs : List Char) :
    splitChars sep cs ≠ [] ∧ [sep].intercalate (splitChars sep cs) = cs := by
  induction cs with
  | nil => exact ⟨by simp [splitChars], rfl⟩
  | cons c cs ih =>
    obtain ⟨hne, he⟩ := ih
    obtain ⟨p, ps, hp⟩ := List.exists_cons_of_ne_nil hne
    rw [splitChars, hp]
    rw [hp] at he
    split
    · rename_i hc
      refine ⟨by simp, ?_⟩
      rw [intercalate_cons_cons, he, hc, List.nil_append]
    · refine ⟨by simp, ?_⟩
      cases ps with
      | nil => simpa [List.intercalate] using he
      | cons q ps =>
        rw [intercalate_cons_cons] at he ⊢
        rw [List.cons_append, he]

theorem splitChars_head (sep : Char) (cs : List Char) : (splitChars sep cs).headD [] = cs ∨
    ∃ more, cs = (splitChars sep cs).headD [] ++ sep :: more := by
  have h := (intercalate_splitChars sep cs).2
  match hs : splitChars sep cs with
  | [] => exact absurd hs (intercalate_splitChars sep cs).1
  | [p] => exact .inl (by simpa [hs, List.intercalate] using h)
  | p :: q :: ps =>
    rw [hs, intercalate_cons_cons] at h
    exact .inr ⟨_, h.symm⟩

theorem infix_of_mem_splitChars {cs p : List Char} (h : p ∈ splitChars sep cs) : p <:+: cs := by
  have hjoined {ps : List (List Char)} (hp : p ∈ ps) : p <:+: [sep].intercalate ps := by
    induction ps with
    | nil => cases hp
    | cons q ps ih =>
      cases ps with
      | nil =>
        rw [List.mem_singleton.mp hp]
        simp [List.intercalate]
      | cons r ps =>
        rw [intercalate_cons_cons]
        rcases List.mem_cons.mp hp with rfl | hp
        · exact (List.prefix_append ..).isInfix
        · exact (ih hp).trans ((List.suffix_cons ..).trans (List.suffix_append ..)).isInfix
  exact (intercalate_splitChars sep cs).2 ▸ hjoined h

theorem splitChars_append (sep : Char) (x y : List Char) :
    splitChars sep (x ++ sep :: y) = splitChars sep x ++ splitChars sep y := by
  induction x with
  | nil => simp [splitChars]
  | cons c x ih =>
    rw [List.cons_append, splitChars, splitChars, ih]
    split
    · rfl
    · obtain ⟨p, ps, hp⟩ := List.exists_cons_of_ne_nil (intercalate_splitChars sep x).1
      rw [hp]
      rfl

theorem splitChars_of_not_mem {cs : List Char} (h : sep ∉ cs) : splitChars sep cs = [cs] := by
  induction cs with
  | nil => rfl
  | cons c cs ih =>
    rw [List.mem_cons, not_or] at h
    rw [splitChars, if_neg (Ne.symm h.1), ih h.2]

theorem splitChars_eq_singleton {v : List Char} (h : (splitChars sep v).length = 1) :
    splitChars sep v = [v] := by
  obtain ⟨piece, hp⟩ := List.length_eq_one_iff.mp h
  have hjoin := (intercalate_splitChars sep v).2
  rw [hp, show [sep].intercalate [piece] = piece by simp [List.intercalate]] at hjoin
  rw [hp, hjoin]

theorem not_mem_of_mem_splitChars {cs p : List Char} (h : p ∈ splitChars sep cs) : sep ∉ p := by
  induction cs generalizing p with
  | nil =>
    rw [List.mem_singleton.mp h]
    exact List.not_mem_nil
  | cons c cs ih =>
    obtain ⟨q, qs, hq⟩ := List.exists_cons_of_ne_nil (intercalate_splitChars sep cs).1
    rw [splitChars, hq] at h
    rw [hq] at ih
    split at h
    · rcases List.mem_cons.mp h with rfl | h
      · exact List.not_mem_nil
      · exact ih h
    · rename_i hc
      rcases List.mem_cons.mp h with rfl | h
      · rw [List.mem_cons, not_or]
        exact ⟨Ne.symm hc, ih List.mem_cons_self⟩
      · exact ih (List.mem_cons_of_mem _ h)

private theorem intercalate_map {F : List Char → List Char}
    (hF : ∀ x y, F (x ++ sep :: y) = F x ++ sep :: F y) {ps : List (List Char)} (hne : ps ≠ []) :
    [sep].intercalate (ps.map F) = F ([sep].intercalate ps) := by
  induction ps with
  | nil => exact absurd rfl hne
  | cons p ps ih =>
    cases ps with
    | nil => simp [List.intercalate]
    | cons q ps =>
      rw [List.map_cons, List.map_cons, intercalate_cons_cons, intercalate_cons_cons, hF,
        ← ih (by simp), List.map_cons]

theorem unlines_map_lines {f : String → String} {F : List Char → List Char}
    (hf : ∀ s, (f s).toList = F s.toList) (hF : ∀ x y, F (x ++ '\n' :: y) = F x ++ '\n' :: F y)
    (s : String) : unlines ((lines s).map f) = f s := by
  obtain ⟨hne, he⟩ := intercalate_splitChars '\n' s.toList
  rw [← String.toList_inj, unlines, join, String.toList_intercalate, lines, splitOn, hf]
  have hmap : List.map String.toList (List.map f ((splitChars '\n' s.toList).map String.ofList)) =
      (splitChars '\n' s.toList).map F := by
    simp [Function.comp_def, hf]
  rw [hmap]
  exact (intercalate_map hF hne).trans (congrArg F he)

theorem lines_ne_nil (s : String) : lines s ≠ [] := by
  simpa [lines, splitOn] using (intercalate_splitChars '\n' s.toList).1

theorem infix_of_mem_lines {s row : String} (h : row ∈ lines s) : row.toList <:+: s.toList := by
  obtain ⟨piece, hp, rfl⟩ := List.mem_map.mp h
  rw [String.toList_ofList]
  exact infix_of_mem_splitChars hp

theorem not_mem_of_mem_lines {s row : String} (h : row ∈ lines s) : '\n' ∉ row.toList := by
  obtain ⟨piece, hp, rfl⟩ := List.mem_map.mp h
  rw [String.toList_ofList]
  exact not_mem_of_mem_splitChars hp

theorem lines_append (s t : String) : lines (s ++ "\n" ++ t) = lines s ++ lines t := by
  have hs : (s ++ "\n" ++ t).toList = s.toList ++ '\n' :: t.toList := by simp
  rw [lines, splitOn, hs, splitChars_append, List.map_append]
  rfl

theorem lines_of_not_mem (h : '\n' ∉ s.toList) : lines s = [s] := by
  rw [lines, splitOn, splitChars_of_not_mem h]
  simp

@[simp] theorem unlines_singleton (l : String) : unlines [l] = l := rfl

theorem unlines_cons (l : String) (h : ls ≠ []) : unlines (l :: ls) = l ++ "\n" ++ unlines ls := by
  obtain ⟨m, ls, rfl⟩ := List.exists_cons_of_ne_nil h
  exact String.intercalate_cons_cons

theorem unlines_lines (s : String) : unlines (lines s) = s := by
  simpa using unlines_map_lines (f := id) (F := id) (fun _ => rfl) (fun _ _ => rfl) s

theorem lines_unlines_flatMap (hne : rows ≠ []) : lines (unlines rows) = rows.flatMap lines := by
  induction rows with
  | nil => exact absurd rfl hne
  | cons row rows ih =>
    rw [List.flatMap_cons]
    by_cases hlast : rows = []
    · rw [hlast, unlines_singleton, List.flatMap_nil, List.append_nil]
    · rw [unlines_cons row hlast, lines_append, ih hlast]

theorem flatMap_lines (h : ∀ row ∈ rows, '\n' ∉ row.toList) : rows.flatMap lines = rows := by
  rw [List.flatMap_congr fun row hr => lines_of_not_mem (h row hr), List.flatMap_singleton']

theorem lines_unlines (hne : rows ≠ [])
    (h : ∀ row ∈ rows, '\n' ∉ row.toList) : lines (unlines rows) = rows :=
  (lines_unlines_flatMap hne).trans (flatMap_lines h)

theorem unlines_cons_toList (l : String) (ls : List String) :
    (unlines (l :: ls)).toList = l.toList ++ ls.flatMap fun m => '\n' :: m.toList := by
  induction ls generalizing l with
  | nil => simp
  | cons m ls ih =>
    rw [unlines_cons l (List.cons_ne_nil m ls), String.toList_append, ih, String.toList_append]
    simp

theorem unlines_set_toList (hi : i < ls.length) (new : String) :
    (unlines (ls.set i new)).toList = ((ls.take i).flatMap fun l => l.toList ++ ['\n']) ++
      new.toList ++ (ls.drop (i + 1)).flatMap fun l => '\n' :: l.toList := by
  induction ls generalizing i with
  | nil => exact absurd hi (Nat.not_lt_zero i)
  | cons l ls ih =>
    cases i with
    | zero => exact unlines_cons_toList new ls
    | succ i =>
      have hi : i < ls.length := Nat.lt_of_succ_lt_succ hi
      have hne : ls.set i new ≠ [] := by
        rw [ne_eq, List.set_eq_nil_iff]
        exact List.ne_nil_of_length_pos (Nat.zero_lt_of_lt hi)
      rw [List.set_cons_succ, unlines_cons l hne, String.toList_append, String.toList_append, ih hi]
      simp

theorem unlines_toList_of_getElem? {line : String} (hi : ls[i]? = some line) : (unlines ls).toList =
      ((ls.take i).flatMap fun l => l.toList ++ ['\n']) ++ line.toList ++
        (ls.drop (i + 1)).flatMap fun l => '\n' :: l.toList := by
  obtain ⟨hlt, rfl⟩ := List.getElem?_eq_some_iff.mp hi
  rw [← unlines_set_toList hlt, List.set_getElem_self]

theorem count_unlines_set {old : String} (hi : ls[i]? = some old)
    (new : String) (c : Char) : (unlines (ls.set i new)).toList.count c + old.toList.count c =
      (unlines ls).toList.count c + new.toList.count c := by
  rw [unlines_set_toList (List.getElem?_eq_some_iff.mp hi).1, unlines_toList_of_getElem? hi]
  simp only [List.count_append]
  omega

theorem length_unlines_set {old : String} (hi : ls[i]? = some old)
    (new : String) : (unlines (ls.set i new)).toList.length + old.toList.length =
      (unlines ls).toList.length + new.toList.length := by
  rw [unlines_set_toList (List.getElem?_eq_some_iff.mp hi).1, unlines_toList_of_getElem? hi]
  simp only [List.length_append]
  omega

theorem unlines_set_ne {old new : String} (hi : ls[i]? = some old)
    (hne : new ≠ old) : unlines (ls.set i new) ≠ unlines ls := by
  intro he
  have hlists := congrArg String.toList he
  rw [unlines_set_toList (List.getElem?_eq_some_iff.mp hi).1, unlines_toList_of_getElem? hi] at hlists
  exact hne (String.toList_inj.mp (List.append_cancel_left (List.append_cancel_right hlists)))

theorem unlines_set_lines_ne {code line new : String}
    (hi : (lines code)[i]? = some line) (hne : new ≠ line) :
    unlines ((lines code).set i new) ≠ code := by
  have hset := unlines_set_ne hi hne
  rwa [unlines_lines] at hset

theorem unlines_map_ne_empty {f : String → String} (hf : ∀ l, l ≠ "" → f l ≠ "")
    (h : s ≠ "") : unlines ((lines s).map f) ≠ "" := by
  have hs := unlines_lines s
  obtain ⟨l, ls, hl⟩ := List.exists_cons_of_ne_nil (lines_ne_nil s)
  rw [hl] at hs ⊢
  rw [List.map_cons]
  by_cases hls : ls = []
  · subst hls
    obtain rfl : l = s := hs
    exact hf l h
  · rw [unlines_cons _ (by simpa using hls)]
    simp

theorem mem_sorted {m : String} {names : List String} : m ∈ sorted names ↔ m ∈ names := by
  rw [sorted, List.mem_eraseDups, List.mem_mergeSort]

private theorem eraseDups_spec {α : Type} [BEq α] [LawfulBEq α] (xs : List α) :
    xs.eraseDups.Nodup ∧ xs.eraseDups.Sublist xs := by
  induction hn : xs.length using Nat.strongRecOn generalizing xs with
  | ind n ih =>
    subst hn
    cases xs with
    | nil => exact ⟨List.nodup_nil, List.Sublist.refl _⟩
    | cons x xs =>
      have hf := List.length_filter_le (fun y => !y == x) xs
      obtain ⟨hd, hl⟩ :=
        ih _ (by simp only [List.length_cons]; omega) (xs.filter fun y => !y == x) rfl
      rw [List.eraseDups_cons]
      refine ⟨List.nodup_cons.mpr ⟨?_, hd⟩, (hl.trans List.filter_sublist).cons_cons x⟩
      simp [List.mem_eraseDups]

theorem pairwise_sort {α : Type} [BEq α] [LawfulBEq α] [LE α] [LT α] [DecidableLE α]
    [Std.IsLinearOrder α] [Std.LawfulOrderLT α] (xs : List α) :
    (xs.mergeSort fun a b => decide (a ≤ b)).eraseDups.Pairwise (· < ·) := by
  obtain ⟨hnodup, hsub⟩ := eraseDups_spec (xs.mergeSort fun a b => decide (a ≤ b))
  have hordered : (xs.mergeSort fun a b => decide (a ≤ b)).Pairwise
      fun a b => decide (a ≤ b) = true := by
    apply List.pairwise_mergeSort
    · intro a b c hab hbc
      exact decide_eq_true (Std.le_trans (of_decide_eq_true hab) (of_decide_eq_true hbc))
    · intro a b
      simpa using Std.le_total (a := a) (b := b)
  refine ((hordered.sublist hsub).and hnodup).imp fun h => ?_
  exact Std.lt_of_le_of_ne (of_decide_eq_true h.1) h.2

theorem sorted_eq_self {names : List String} (h : names.Pairwise fun a b => a ≤ b ∧ a ≠ b) :
    sorted names = names := by
  rw [sorted, List.mergeSort_of_pairwise (h.imp fun hab => decide_eq_true hab.1)]
  induction names with
  | nil => rfl
  | cons x xs ih =>
    obtain ⟨hx, hxs⟩ := List.pairwise_cons.mp h
    have hne : xs.filter (fun y => !y == x) = xs :=
      List.filter_eq_self.mpr fun y hy => by simpa using (hx y hy).2.symm
    rw [List.eraseDups_cons, hne, ih hxs]

theorem sorted_eq {names ordered : List String} (h : names = ordered)
    (ho : ordered.Pairwise fun a b => a ≤ b ∧ a ≠ b) : sorted names = ordered := by
  rw [h, sorted_eq_self ho]

theorem nodup_sorted (names : List String) : (sorted names).Nodup := (eraseDups_spec _).1

theorem pairwise_sorted (names : List String) : (sorted names).Pairwise (· < ·) := pairwise_sort _

theorem length_sorted_le (names : List String) : (sorted names).length ≤ names.length :=
  (eraseDups_spec _).2.length_le.trans (Nat.le_of_eq (List.length_mergeSort _))

theorem infix_or_infix {u v ds : List Char} (hc : c ∉ ds) (h : ds <:+: u ++ c :: v) :
    ds <:+: u ∨ ds <:+: v := by
  obtain ⟨a, b, hab⟩ := h
  rcases List.append_eq_append_iff.mp hab with ⟨w, rfl, -⟩ | ⟨w, hw, hv⟩
  · exact .inl ⟨a, w, rfl⟩
  · cases w with
    | nil => exact .inl ⟨a, [], by simpa using hw⟩
    | cons d w =>
      obtain ⟨rfl, rfl⟩ := List.cons.inj hv
      rcases List.append_eq_append_iff.mp hw with ⟨x, -, rfl⟩ | ⟨x, -, hx⟩
      · exact absurd (List.mem_append_right x List.mem_cons_self) hc
      · cases x with
        | nil =>
          obtain rfl : c :: w = ds := hx
          exact absurd List.mem_cons_self hc
        | cons e x =>
          obtain ⟨rfl, rfl⟩ := List.cons.inj hx
          exact .inr ⟨x, b, rfl⟩

theorem digitsValue_toDigits (n : Nat) : digitsValue (Nat.toDigits 10 n) = n := by
  have hvalue : ∀ d < 10, (digitValue? d.digitChar).getD 0 = d := by decide +kernel
  induction n using Nat.strongRecOn with
  | ind n ih =>
    by_cases hn : n < 10
    · rw [Nat.toDigits_of_lt_base hn]
      simp [digitsValue, hvalue n hn]
    · rw [Nat.toDigits_of_base_le (by decide) (by omega), digitsValue, List.foldl_append]
      have hq := ih (n / 10) (by omega)
      rw [digitsValue] at hq
      simp only [List.foldl_cons, List.foldl_nil, hq, hvalue (n % 10) (Nat.mod_lt n (by decide))]
      omega

theorem digitsValue_lt (cs : List Char) : digitsValue cs < Nat.pow 10 cs.length := by
  have hdigit (c : Char) : (digitValue? c).getD 0 < 10 := by
    unfold digitValue?
    split
    · split
      · rename_i hc
        have hle : c.val ≤ '9'.val := of_decide_eq_true (Bool.and_eq_true_iff.mp hc).2
        have hle : c.toNat ≤ 57 := UInt32.le_iff_toNat_le.mp hle
        change c.toNat - 48 < 10
        omega
      · decide
    · cases hz : zeroPoints.find? fun z => z ≤ c.toNat && c.toNat < z + 10 with
      | none => exact Nat.zero_lt_succ 9
      | some z =>
        have hfound := List.find?_some hz
        simp only [Bool.and_eq_true, decide_eq_true_eq] at hfound
        change c.toNat - z < 10
        omega
  induction cs using List.reverseRecOn with
  | nil => decide
  | append_singleton cs c ih =>
    have hc := hdigit c
    rw [digitsValue] at ih ⊢
    rw [List.foldl_append, List.length_append, List.length_singleton, Nat.pow, Nat.mul_eq]
    simp only [List.foldl_cons, List.foldl_nil]
    omega

theorem isDecimal_toDigits (n : Nat) : ∀ d ∈ Nat.toDigits 10 n, isDecimal d = true := by
  have hdigit : ∀ d < 10, isDecimal d.digitChar = true := by decide +kernel
  induction n using Nat.strongRecOn with
  | ind n ih =>
    by_cases hn : n < 10
    · rw [Nat.toDigits_of_lt_base hn]
      simpa using hdigit n hn
    · rw [Nat.toDigits_of_base_le (by decide) (by omega)]
      intro d hd
      rcases List.mem_append.mp hd with hd | hd
      · exact ih (n / 10) (by omega) d hd
      · exact List.mem_singleton.mp hd ▸ hdigit (n % 10) (Nat.mod_lt n (by decide))

theorem digitsValue_toString (n : Nat) : digitsValue (toString n).toList = n := by
  rw [show (toString n).toList = Nat.toDigits 10 n from String.toList_ofList, digitsValue_toDigits]

theorem toString_injective : (toString : Nat → String).Injective :=
  Function.LeftInverse.injective (g := fun s : String => digitsValue s.toList) digitsValue_toString

theorem unbroken_toString (n : Nat) : '\n' ∉ (toString n).toList := by
  have hn : (toString n).toList = Nat.toDigits 10 n := String.toList_ofList
  rw [hn]
  intro hm
  exact absurd (isDecimal_toDigits n _ hm) (by decide)

theorem join_cons_toList (sep : Char) (p : String) (ps : List String) :
    (join (String.singleton sep) (p :: ps)).toList = p.toList ++ ps.flatMap (sep :: ·.toList) := by
  induction ps generalizing p with
  | nil => simp [join]
  | cons q ps ih =>
    have hcons : join (String.singleton sep) (p :: q :: ps) =
        p ++ String.singleton sep ++ join (String.singleton sep) (q :: ps) :=
      String.intercalate_cons_cons
    rw [hcons, String.toList_append, ih]
    simp

theorem splitOn_join {pieces : List String} (hne : pieces ≠ []) (h : ∀ p ∈ pieces, sep ∉ p.toList) :
    splitOn sep (join (String.singleton sep) pieces) = pieces := by
  obtain ⟨p, ps, rfl⟩ := List.exists_cons_of_ne_nil hne
  rw [splitOn, join_cons_toList]
  induction ps generalizing p with
  | nil => simp [splitChars_of_not_mem (h p List.mem_cons_self)]
  | cons q ps ih =>
    rw [List.flatMap_cons, List.cons_append, splitChars_append,
      splitChars_of_not_mem (h p List.mem_cons_self), List.map_append,
      ih q (List.cons_ne_nil q ps) fun r hr => h r (List.mem_cons_of_mem p hr)]
    simp

theorem upTo_append {s t : String} {i : Int} (hi : i = -(length t)) (ht : i < 0) :
    upTo i (s ++ t) = s := by
  have hlength : clampIndex (length (s ++ t)) i = s.toList.length := by
    rw [clampIndex, if_pos ht, hi, length, length, String.toList_append, List.length_append]
    omega
  rw [upTo, hlength, take, String.toList_append, List.take_left, String.ofList_toList]

theorem join_concat (sep last more : String) (pieces : List String) :
    join sep (pieces ++ [last ++ more]) = join sep (pieces ++ [last]) ++ more := by
  induction pieces with
  | nil => rfl
  | cons p pieces ih =>
    have hne (x : String) : pieces ++ [x] ≠ [] := by simp
    have hcons (x : String) :
        join sep (p :: pieces ++ [x]) = p ++ sep ++ join sep (pieces ++ [x]) :=
      String.intercalate_cons_of_ne_nil (hne x)
    rw [hcons, hcons, ih, ← String.append_assoc]

theorem not_mem_join {sep : String} {pieces : List String} (hsep : c ∉ sep.toList)
    (h : ∀ p ∈ pieces, c ∉ p.toList) : c ∉ (join sep pieces).toList := by
  induction pieces with
  | nil => simp [join]
  | cons p pieces ih =>
    have hfirst : c ∉ p.toList := h p (by simp)
    by_cases hne : pieces = []
    · simpa [hne, join] using hfirst
    · have hrest : c ∉ (join sep pieces).toList := ih fun q hq => h q (by simp [hq])
      have hcons : join sep (p :: pieces) = p ++ sep ++ join sep pieces :=
        String.intercalate_cons_of_ne_nil hne
      simp [hcons, hsep, hfirst, hrest]

theorem not_infix_of_mem_splitOnText {sep s piece : String} (hsep : sep ≠ "")
    (h : piece ∈ splitOnText sep s) : ¬ sep.toList <:+: piece.toList := by
  have hne : sep.toList ≠ [] := by simpa using hsep
  -- the first piece begins the text, so a separator at its start would have ended it there
  have hall (skip : Nat) (cs : List Char) :
      (∀ p ∈ splitAround sep.toList skip cs, ¬ sep.toList <:+: p) ∧
        (skip = 0 → ∀ p ∈ (splitAround sep.toList skip cs).head?, p <+: cs) := by
    induction cs generalizing skip with
    | nil => cases skip <;> simp [splitAround, hne]
    | cons c cs ih =>
      cases skip with
      | succ skip => exact ⟨(ih skip).1, fun h => by cases h⟩
      | zero =>
        unfold splitAround
        split
        · refine ⟨List.forall_mem_cons.mpr ⟨by simpa using hne, (ih _).1⟩, fun _ p hp => ?_⟩
          exact Option.some.inj hp ▸ List.nil_prefix
        · rename_i hstart
          have hstart : ¬ sep.toList <+: c :: cs := by simpa using hstart
          obtain ⟨hpieces, hfirst⟩ := ih 0
          split
          · have hlone : [c] <+: c :: cs := ⟨cs, rfl⟩
            refine ⟨List.forall_mem_singleton.mpr fun hin => ?_, fun _ p hp => ?_⟩
            · rcases List.infix_cons_iff.mp hin with hin | hin
              · exact hstart (hin.trans hlone)
              · exact hne (List.infix_nil.mp hin)
            · exact Option.some.inj hp ▸ hlone
          · rename_i first rest he
            rw [he] at hpieces hfirst
            have hbegin : c :: first <+: c :: cs := List.cons_prefix_cons.mpr ⟨rfl, hfirst rfl _ rfl⟩
            obtain ⟨hnot, hrest⟩ := List.forall_mem_cons.mp hpieces
            refine ⟨List.forall_mem_cons.mpr ⟨fun hin => ?_, hrest⟩, fun _ p hp => ?_⟩
            · rcases List.infix_cons_iff.mp hin with hin | hin
              · exact hstart (hin.trans hbegin)
              · exact hnot hin
            · exact Option.some.inj hp ▸ hbegin
  obtain ⟨p, hp, rfl⟩ := List.mem_map.mp h
  rw [String.toList_ofList]
  exact (hall 0 s.toList).1 p hp

section Growing
variable {old new : List Char}

theorem length_replaceChars (hne : old ≠ []) (hle : old.length ≤ new.length) (cs : List Char) :
    cs.length ≤ (replaceChars old new 0 cs).length ∧
      (old <:+: cs → old.length < new.length → cs.length < (replaceChars old new 0 cs).length) := by
  induction hn : cs.length using Nat.strongRecOn generalizing cs with
  | ind n ih =>
    subst hn
    by_cases hp : old <+: cs
    · obtain ⟨y, rfl⟩ := hp
      have hpos := List.length_pos_of_ne_nil hne
      obtain ⟨hy, -⟩ := ih y.length (by simp; omega) y rfl
      rw [replaceChars_matched hne]
      simp only [List.length_append]
      exact ⟨by omega, fun _ _ => by omega⟩
    · cases cs with
      | nil => exact ⟨Nat.le_refl _, fun h => absurd (List.infix_nil.mp h) hne⟩
      | cons c cs =>
        obtain ⟨hle', hlt⟩ := ih cs.length (by simp) cs rfl
        rw [replaceChars_of_not hp, List.infix_cons_iff]
        simp only [List.length_cons]
        exact ⟨by omega, fun h hs => Nat.succ_lt_succ (hlt (h.resolve_left hp) hs)⟩

theorem infix_replaceChars {cs : List Char} (hne : old ≠ []) (h : old <:+: cs) :
    new <:+: replaceChars old new 0 cs := by
  induction hn : cs.length using Nat.strongRecOn generalizing cs with
  | ind n ih =>
    subst hn
    by_cases hp : old <+: cs
    · obtain ⟨y, rfl⟩ := hp
      rw [replaceChars_matched hne]
      exact (List.prefix_append ..).isInfix
    · cases cs with
      | nil => exact absurd (List.infix_nil.mp h) hne
      | cons c cs =>
        rw [replaceChars_of_not hp]
        have hrest := ih cs.length (by simp) ((List.infix_cons_iff.mp h).resolve_left hp) rfl
        exact hrest.trans (List.suffix_cons ..).isInfix

theorem replaceChars_keeps_start {x cs : List Char} (hne : old ≠ []) (hx : x <+: cs)
    (h : ∀ u v y, x = u ++ v → v ≠ [] → cs = u ++ (old ++ y) → v <+: new) :
    x <+: replaceChars old new 0 cs := by
  induction x generalizing cs with
  | nil => exact List.nil_prefix
  | cons c x ih =>
    by_cases hp : old <+: cs
    · obtain ⟨y, rfl⟩ := hp
      rw [replaceChars_matched hne]
      exact (h [] (c :: x) y rfl (List.cons_ne_nil c x) rfl).trans (List.prefix_append ..)
    · obtain ⟨r, rfl⟩ := hx
      rw [List.cons_append] at hp ⊢
      rw [replaceChars_of_not hp, List.cons_prefix_cons]
      refine ⟨rfl, ih (List.prefix_append x r) fun u v y hu hv hy => ?_⟩
      exact h (c :: u) v y (by rw [hu, List.cons_append]) hv
        (by rw [List.cons_append, hy, List.cons_append])

theorem isInfix_append_cases {x a b : List Char} (h : x <:+: a ++ b) :
    (∃ u v, a = u ++ v ∧ v ≠ [] ∧ x <+: v ++ b) ∨ x <:+: b := by
  induction a with
  | nil => exact .inr h
  | cons c a ih =>
    rcases List.infix_cons_iff.mp h with hp | hi
    · exact .inl ⟨[], c :: a, rfl, List.cons_ne_nil c a, hp⟩
    · refine (ih hi).imp_left ?_
      rintro ⟨u, v, rfl, hv, hx⟩
      exact ⟨c :: u, v, rfl, hv, hx⟩

end Growing

end Mender.Text

namespace Mender.Arrangement
variable {order : Arrangement} {source names : List String} {m : String}

theorem mem_arrange : m ∈ order.arrange source names ↔ m ∈ names := (order.perm _ _).mem_iff

theorem nodup_arrange (h : names.Nodup) : (order.arrange source names).Nodup :=
  (order.perm source names).nodup_iff.mpr h

theorem mem_members : m ∈ order.members names ↔ m ∈ names := mem_arrange.trans Text.mem_sorted

end Mender.Arrangement
