import Mathlib.Data.List.DropRight
import Mender.Proofs.Text

/-! Trimming a text and cutting pieces off it. What is left is a part of the text, and only blanks
are lost at its ends; a text without line feeds stays without. -/
namespace Mender.Text

section Trimming
variable {s t : String}

theorem trimEnd_toList (s : String) : (trimEnd s).toList = s.toList.rdropWhile isBlank :=
  String.toList_ofList

theorem trimStart_toList (s : String) : (trimStart s).toList = s.toList.dropWhile isBlank :=
  String.toList_ofList

theorem exists_trimEnd (s : String) :
    ∃ bs, (∀ b ∈ bs, isBlank b = true) ∧ s.toList = (trimEnd s).toList ++ bs := by
  refine ⟨s.toList.rtakeWhile isBlank, fun b hb => List.mem_rtakeWhile_imp hb, ?_⟩
  rw [trimEnd_toList, List.rdropWhile_append_rtakeWhile]

private theorem exists_trimStart (s : String) :
    ∃ bs, (∀ b ∈ bs, isBlank b = true) ∧ s.toList = bs ++ (trimStart s).toList := by
  refine ⟨s.toList.takeWhile isBlank, fun b hb => List.mem_takeWhile_imp hb, ?_⟩
  rw [trimStart_toList, List.takeWhile_append_dropWhile]

theorem exists_trim (s : String) : ∃ as bs, (∀ b ∈ as, isBlank b = true) ∧
    (∀ b ∈ bs, isBlank b = true) ∧ s.toList = as ++ (trim s).toList ++ bs := by
  obtain ⟨as, ha, hs⟩ := exists_trimStart s
  obtain ⟨bs, hb, ht⟩ := exists_trimEnd (trimStart s)
  exact ⟨as, bs, ha, hb, by rw [trim, hs, ht, List.append_assoc]⟩

theorem trim_ne_empty {s : String} {c : Char} (hc : c ∈ s.toList) (hb : isBlank c = false) :
    trim s ≠ "" := by
  intro h
  obtain ⟨as, bs, ha, hbs, htext⟩ := exists_trim s
  rw [htext, h] at hc
  rcases List.mem_append.mp hc with hc | hc
  · rcases List.mem_append.mp hc with hc | hc
    · exact absurd (ha c hc) (by simp [hb])
    · cases hc
  · exact absurd (hbs c hc) (by simp [hb])

theorem trimEnd_isInfix (s : String) : (trimEnd s).toList <:+: s.toList := by
  rw [trimEnd_toList]
  exact (List.rdropWhile_prefix isBlank _).isInfix

theorem trimStart_isInfix (s : String) : (trimStart s).toList <:+: s.toList := by
  rw [trimStart_toList]
  exact (List.dropWhile_suffix isBlank).isInfix

theorem trimEnd_append_mark (s : String) {mark : String}
    (hm : mark.toList.getLast?.any (!isBlank ·) = true) : trimEnd (s ++ mark) = s ++ mark := by
  obtain ⟨c, hlast, hc⟩ := (Option.any_eq_true _ _).mp hm
  obtain ⟨w, hw⟩ := List.getLast?_eq_some_iff.mp hlast
  rw [← String.toList_inj, trimEnd_toList, String.toList_append, hw, ← List.append_assoc,
    List.rdropWhile_concat_neg _ _ _ (by simpa using hc)]

@[simp] theorem trimEnd_trimEnd (s : String) : trimEnd (trimEnd s) = trimEnd s := by
  rw [← String.toList_inj, trimEnd_toList, trimEnd_toList, List.rdropWhile_idempotent]

theorem trimEnd_append_end {pre post : List Char} (h : (trimEnd s).toList = pre ++ post)
    (hne : post ≠ []) : trimEnd (t ++ String.ofList post) = t ++ String.ofList post := by
  have hs : (pre ++ post).rdropWhile isBlank = pre ++ post := by
    rw [← h, ← trimEnd_toList, trimEnd_trimEnd]
  rw [List.rdropWhile_eq_self_iff] at hs
  rw [← String.toList_inj, trimEnd_toList, String.toList_append, String.toList_ofList,
    List.rdropWhile_eq_self_iff]
  intro _
  have hlast := hs (List.append_ne_nil_of_right_ne_nil pre hne)
  rwa [List.getLast_append_of_right_ne_nil _ _ hne] at hlast ⊢

theorem endsWith_append (s : String) {mark ending : String} (h : endsWith mark ending = true) :
    endsWith (s ++ mark) ending = true := by
  rw [endsWith, List.isSuffixOf_iff_suffix] at h ⊢
  rw [String.toList_append]
  exact h.trans (List.suffix_append ..)

theorem trimStart_indented (width : Nat) (s : String) :
    trimStart (replicate width ' ' ++ trimStart s) = trimStart s := by
  have hspace : isBlank ' ' = true := by decide
  rw [← String.toList_inj, trimStart_toList, String.toList_append, trimStart_toList, replicate,
    String.toList_ofList, List.dropWhile_append_of_pos, List.dropWhile_idempotent]
  intro c hc
  rw [List.eq_of_mem_replicate hc]
  exact hspace

end Trimming

def Unbroken (s : String) : Prop := '\n' ∉ s.toList

instance : DecidablePred Unbroken := fun s => inferInstanceAs (Decidable ('\n' ∉ s.toList))

namespace Unbroken
variable {s t : String}

theorem of_infix (h : Unbroken s) (ht : t.toList <:+: s.toList) : Unbroken t :=
  fun hc => h (ht.subset hc)

theorem of_mem_lines (h : t ∈ lines s) : Unbroken t := not_mem_of_mem_lines h

theorem append (hs : Unbroken s) (ht : Unbroken t) : Unbroken (s ++ t) := by
  rw [Unbroken, String.toList_append, List.mem_append, not_or]
  exact ⟨hs, ht⟩

theorem trimEnd (h : Unbroken s) : Unbroken (trimEnd s) := h.of_infix (trimEnd_isInfix s)

theorem trimStart (h : Unbroken s) : Unbroken (trimStart s) := h.of_infix (trimStart_isInfix s)

theorem take (h : Unbroken s) (n : Nat) : Unbroken (take n s) := by
  refine h.of_infix ?_
  rw [Text.take, String.toList_ofList]
  exact (List.take_prefix n _).isInfix

theorem drop (h : Unbroken s) (n : Nat) : Unbroken (drop n s) := by
  refine h.of_infix ?_
  rw [Text.drop, String.toList_ofList]
  exact (List.drop_suffix n _).isInfix

theorem replicate (n : Nat) {c : Char} (hc : c ≠ '\n') : Unbroken (replicate n c) := by
  rw [Unbroken, Text.replicate, String.toList_ofList, List.mem_replicate]
  exact fun h => hc h.2.symm

theorem replace (h : Unbroken s) (old : String) {new : String} (hn : Unbroken new) :
    Unbroken (replace s old new) := by
  have hle := count_replace_le hn s old
  rw [List.count_eq_zero_of_not_mem h] at hle
  exact List.count_eq_zero.mp (Nat.le_zero.mp hle)

end Unbroken

theorem lines_set (code : String) (i : Nat) {new : String} (hn : Unbroken new) :
    lines (unlines ((lines code).set i new)) = (lines code).set i new := by
  refine lines_unlines (by simpa using lines_ne_nil code) fun row hr => ?_
  rcases List.mem_or_eq_of_mem_set hr with hr | rfl
  · exact not_mem_of_mem_lines hr
  · exact hn

theorem trim_blanks_append {c : String} (hc : ∀ x ∈ c.toList, isBlank x = true) (p : String) :
    trim (c ++ p) = trim p := by
  rw [trim, trimStart, String.toList_append, List.dropWhile_append_of_pos hc]
  rfl

theorem trim_of_not_blank {s : String} (h : ∀ x ∈ s.toList, isBlank x = false) : trim s = s := by
  have hstart : trimStart s = s := by
    rw [← String.toList_inj, trimStart_toList, List.dropWhile_eq_self_iff]
    exact fun hl => by simp [h _ (List.getElem_mem hl)]
  rw [trim, hstart, ← String.toList_inj, trimEnd_toList, List.rdropWhile_eq_self_iff]
  exact fun hl => by simp [h _ (List.getLast_mem hl)]

section Words
variable {c : Char} {a b cs w : List Char}

theorem flatten_wordChars (cs : List Char) : (wordChars cs).flatten = cs.filter (!isBlank ·) := by
  fun_induction wordChars cs with
  | case1 => rfl
  | case2 c cs hc ih => rw [ih, List.filter_cons_of_neg (by simpa using hc)]
  | case3 c hc => simp [hc]
  | case4 c hc d cs hd ih =>
    rw [List.flatten_cons, ih, List.filter_cons_of_pos (a := c) (by simpa using hc)]
    rfl
  | case5 c hc d cs hd hnil ih =>
    rw [hnil] at ih
    rw [List.filter_cons_of_pos (a := c) (by simpa using hc), ← ih]
    simp only [hnil]
    rfl
  | case6 c hc d cs hd w ws hw ih =>
    rw [hw] at ih
    rw [List.filter_cons_of_pos (a := c) (by simpa using hc), ← ih]
    simp only [hw]
    rfl

theorem wordChars_ne_nil (hc : c ∈ cs) (hb : isBlank c = false) : wordChars cs ≠ [] := by
  intro he
  have hfilter := flatten_wordChars cs
  rw [he, List.flatten_nil] at hfilter
  have hm : c ∈ cs.filter (!isBlank ·) := List.mem_filter.mpr ⟨hc, by simp [hb]⟩
  rw [← hfilter] at hm
  cases hm

theorem mem_wordChars (h : w ∈ wordChars cs) :
    w ≠ [] ∧ (∀ c ∈ w, isBlank c = false) ∧ w <:+: cs := by
  have hall : (∀ w ∈ wordChars cs, w ≠ [] ∧ w <:+: cs) ∧
      ((∀ c ∈ cs.head?, isBlank c = false) → ∀ w ∈ (wordChars cs).head?, w <+: cs) := by
    clear h
    fun_induction wordChars cs with
    | case1 => simp
    | case2 c cs hc ih =>
      refine ⟨fun w hw => ⟨(ih.1 w hw).1, List.infix_cons (ih.1 w hw).2⟩, fun hh => ?_⟩
      rw [hh c rfl] at hc
      cases hc
    | case3 c hc => simp
    | case4 c hc d cs hd ih =>
      refine ⟨List.forall_mem_cons.mpr ⟨⟨by simp, [], d :: cs, rfl⟩, fun w hw => ?_⟩, fun _ w hw => ?_⟩
      · exact ⟨(ih.1 w hw).1, List.infix_cons (ih.1 w hw).2⟩
      · exact Option.some.inj hw ▸ ⟨d :: cs, rfl⟩
    | case5 c hc d cs hd hnil ih =>
      rw [hnil]
      refine ⟨List.forall_mem_singleton.mpr ⟨by simp, [], d :: cs, rfl⟩, fun _ w hw => ?_⟩
      exact Option.some.inj hw ▸ ⟨d :: cs, rfl⟩
    | case6 c hc d cs hd v vs hv ih =>
      rw [hv] at ih ⊢
      obtain ⟨-, hrest⟩ := List.forall_mem_cons.mp ih.1
      have hd : ∀ x ∈ (d :: cs).head?, isBlank x = false := by simpa using hd
      have hbegin : c :: v <+: c :: d :: cs := List.cons_prefix_cons.mpr ⟨rfl, ih.2 hd v rfl⟩
      refine ⟨List.forall_mem_cons.mpr ⟨⟨by simp, hbegin.isInfix⟩, fun w hw => ?_⟩, fun _ w hw => ?_⟩
      · exact ⟨(hrest w hw).1, List.infix_cons (hrest w hw).2⟩
      · exact Option.some.inj hw ▸ hbegin
  refine ⟨(hall.1 w h).1, fun c hc => ?_, (hall.1 w h).2⟩
  have hsolid : c ∈ cs.filter (!isBlank ·) := by
    rw [← flatten_wordChars]
    exact List.mem_flatten_of_mem h hc
  simpa using (List.mem_filter.mp hsolid).2

theorem wordChars_cons_blank (h : isBlank c = true) (cs : List Char) :
    wordChars (c :: cs) = wordChars cs := by
  cases cs <;> simp [wordChars, h]

theorem wordChars_blanks (hb : ∀ c ∈ b, isBlank c = true) (cs : List Char) :
    wordChars (b ++ cs) = wordChars cs := by
  induction b with
  | nil => rfl
  | cons c b ih =>
    rw [List.cons_append, wordChars_cons_blank (hb c List.mem_cons_self),
      ih fun d hd => hb d (List.mem_cons_of_mem c hd)]

theorem wordChars_word (hne : w ≠ []) (hw : ∀ c ∈ w, isBlank c = false) : wordChars w = [w] := by
  induction w with
  | nil => exact absurd rfl hne
  | cons c w ih =>
    have hc : isBlank c = false := hw c List.mem_cons_self
    cases w with
    | nil => simp [wordChars, hc]
    | cons d w =>
      have hd : isBlank d = false := hw d (by simp)
      rw [wordChars, if_neg (by simp [hc])]
      simp only [hd, Bool.false_eq_true, if_false]
      rw [ih (List.cons_ne_nil d w) fun x hx => hw x (List.mem_cons_of_mem c hx)]

theorem wordChars_append (h : isBlank c = true) (a b : List Char) :
    wordChars (a ++ c :: b) = wordChars a ++ wordChars b := by
  induction a with
  | nil => exact wordChars_cons_blank h b
  | cons x a ih =>
    cases hx : isBlank x with
    | true =>
      rw [List.cons_append, wordChars_cons_blank hx, wordChars_cons_blank hx, ih]
    | false =>
      cases a with
      | nil => simp [wordChars, hx, h]
      | cons d a =>
        have hw (cs : List Char) : wordChars (x :: d :: cs) =
            if isBlank d then [x] :: wordChars (d :: cs)
            else (x :: (wordChars (d :: cs)).headD []) :: (wordChars (d :: cs)).tail := by
          rw [wordChars, if_neg (by simp [hx])]
          cases wordChars (d :: cs) <;> rfl
        rw [List.cons_append, List.cons_append, hw, hw, ← List.cons_append, ih]
        cases hd : isBlank d with
        | true => rfl
        | false =>
          have hne : wordChars (d :: a) ≠ [] := wordChars_ne_nil List.mem_cons_self hd
          obtain ⟨v, vs, hv⟩ := List.exists_cons_of_ne_nil hne
          simp [hv]

theorem wordChars_word_blanks (hne : w ≠ []) (hw : ∀ c ∈ w, isBlank c = false)
    (hb : ∀ c ∈ b, isBlank c = true) : wordChars (w ++ b) = [w] := by
  cases b with
  | nil => rw [List.append_nil, wordChars_word hne hw]
  | cons c b =>
    have hend := wordChars_blanks (fun d hd => hb d (List.mem_cons_of_mem c hd)) []
    rw [wordChars_append (hb c List.mem_cons_self), wordChars_word hne hw, ← List.append_nil b,
      hend]
    rfl

theorem wordChars_first (ha : ∀ c ∈ a, isBlank c = true) (hne : w ≠ [])
    (hw : ∀ c ∈ w, isBlank c = false) (hb : ∀ c ∈ b, isBlank c = true) (hgap : b ≠ [])
    (cs : List Char) : wordChars (a ++ (w ++ (b ++ cs))) = w :: wordChars cs := by
  obtain ⟨c, b, rfl⟩ := List.exists_cons_of_ne_nil hgap
  rw [wordChars_blanks ha, List.cons_append, wordChars_append (hb c List.mem_cons_self),
    wordChars_word hne hw, wordChars_blanks fun d hd => hb d (List.mem_cons_of_mem c hd)]
  rfl

end Words

end Mender.Text
