import Mender.Answer.Parse
import Mender.Proofs.Literal

/-! Reading back an answer that is a written replacement. The two texts survive exactly if tidying
leaves them alone and their braces are nested; a replacement that was cut is read as something else
or not at all, whichever way of reading is tried. -/
namespace Mender.Answer
open Text Json Pattern

section Cut

variable {o n t : List Char} (hc : Cut o n t) {old new : String}
variable {s : String}

  (ht : Tidied (frame (escaped old.toList) (escaped new.toList)) (frame (escaped o) (escaped n)))

include hc ht in
theorem parse_ne_of_weight (hp : ∀ c ∈ s.toList, Printable c)
    (hw : weight s.toList = weight t) : Json.parse s ≠ .ok (.replacement old new) := by
  intro h
  have hle := weight_frame_le hp h
  obtain ⟨z, hz, hlt⟩ := hc.rest
  have := ht.weight_eq
  rw [hz, weight_append] at this
  omega

theorem requoted_toList (hp : ∀ c ∈ s.toList, Printable c) :
    (requoted s).toList = s.toList.map fun c => if c = '\'' then '"' else c := by
  have h1 : ¬ "\r\n".toList <:+: s.toList := fun h =>
    absurd (hp '\r' (h.subset (by decide))) (by decide)
  have h2 : ¬ "\n".toList <:+: s.toList := fun h =>
    absurd (hp '\n' (h.subset (by decide))) (by decide)
  rw [requoted, replace_eq_self _ h1, replace_eq_self _ h2, replace, if_neg (by decide),
    String.toList_ofList]
  exact replaceChars_single s.toList

theorem weight_requoted (hp : ∀ c ∈ s.toList, Printable c) :
    weight (requoted s).toList = weight s.toList := by
  rw [requoted_toList hp, weight, List.countP_map]
  refine List.countP_congr fun c _ => ?_
  by_cases h : c = '\''
  · subst h
    decide
  · simp [h]

theorem printable_requoted (hp : ∀ c ∈ s.toList, Printable c) :
    ∀ c ∈ (requoted s).toList, Printable c := by
  rw [requoted_toList hp]
  intro c hc
  obtain ⟨d, hd, rfl⟩ := List.mem_map.mp hc
  split
  · decide
  · exact hp d hd

private theorem last_ne_of_append {A B C : List Char} {c d : Char} (h : A ++ [c] = B ++ (C ++ [d]))
    (hne : c ≠ d) : False := by
  rw [← List.append_assoc] at h
  exact hne (List.append_inj_right' h rfl |> List.cons.inj |>.1)

private theorem middle_split {A B : List Char} (h : middle = A ++ 'w' :: '"' :: B) :
    B = [':', ' ', '"'] := by
  have hAB : A = ['"', ',', ' ', '"', 'n', 'e'] ∧ B = [':', ' ', '"'] := by
    simpa [middle, List.cons_eq_append_iff] using h
  exact hAB.2

section Key
variable {A B : List Char}

private theorem key_not_in_opening {C : List Char} (h : opening = (A ++ ['w']) ++ '"' :: C) :
    False := by
  have hm : 'w' ∈ opening := by rw [h]; simp
  exact absurd hm (by decide)

private theorem key_not_in_text {x C D E : List Char} (h : escaped x = C ++ '"' :: D)
    (hA : A ++ ['w'] = E ++ C) : False := by
  obtain ⟨C', rfl⟩ := quote_escaped h
  exact last_ne_of_append hA (by decide)

/-- Where the key of the new text can seem to end in a replacement with any end: at the closing
quote of the old text, at its own, or in that end. -/
theorem after_key {o q e : List Char}
    (he : opening ++ (escaped o ++ (middle ++ (escaped q ++ e))) = A ++ 'w' :: '"' :: B) :
    B = middle.tail ++ (escaped q ++ e) ∨ B = ':' :: ' ' :: '"' :: (escaped q ++ e) ∨
      ∃ C, e = C ++ '"' :: B := by
  have hw : opening ++ (escaped o ++ (middle ++ (escaped q ++ e))) = (A ++ ['w']) ++ '"' :: B := by
    rw [he]
    simp
  rcases append_cons_eq_append hw.symm with ⟨_, h1, -⟩ | ⟨A1, hA, h1⟩
  · exact (key_not_in_opening h1).elim
  rcases append_cons_eq_append h1.symm with ⟨_, h2, -⟩ | ⟨A2, rfl, h2⟩
  · exact (key_not_in_text h2 hA).elim
  rcases append_cons_eq_append h2.symm with ⟨B', h3, rfl⟩ | ⟨A3, rfl, h3⟩
  · rcases List.eq_nil_or_concat A2 with rfl | ⟨A3, c, rfl⟩
    · exact .inl (by rw [h3]; rfl)
    · rw [List.concat_eq_append] at hA h3
      rw [← List.append_assoc, ← List.append_assoc] at hA
      have hcw : 'w' = c := (List.cons.inj (List.append_inj_right' hA rfl)).1
      rw [← hcw, List.append_assoc] at h3
      exact .inr (.inl (by rw [middle_split h3]; rfl))
  rcases append_cons_eq_append h3.symm with ⟨_, h4, -⟩ | ⟨A4, rfl, h4⟩
  · exact (key_not_in_text h4 (E := opening ++ (escaped o ++ middle)) (by simpa using hA)).elim
  · exact .inr (.inr ⟨A4, h4⟩)

/-- Where the key of the new text can seem to end in a cut replacement: at the closing quote of the
old text, or at its own. -/
theorem Cut.after_key (hc : Cut o n t) (he : t = A ++ 'w' :: '"' :: B) :
    ∃ q r, n = q ++ '\x7d' :: r ∧
      (B = middle.tail ++ (escaped q ++ ['\x7d']) ∨ B = ':' :: ' ' :: '"' :: (escaped q ++ ['\x7d'])) := by
  have hbrace {C D : List Char} (h : ['\x7d'] = C ++ '"' :: D) : False := by
    have hm : '"' ∈ ['\x7d'] := by rw [h]; simp
    exact absurd hm (by decide)
  cases hc with
  | @old q r h =>
    have hw : opening ++ (escaped q ++ ['\x7d']) = (A ++ ['w']) ++ '"' :: B := by rw [he]; simp
    rcases append_cons_eq_append hw.symm with ⟨_, h1, -⟩ | ⟨A1, hA, h1⟩
    · exact (key_not_in_opening h1).elim
    rcases append_cons_eq_append h1.symm with ⟨_, h2, -⟩ | ⟨A2, rfl, h2⟩
    · exact (key_not_in_text h2 hA).elim
    · exact (hbrace h2).elim
  | @new q r h =>
    refine ⟨q, r, h, ?_⟩
    rcases Answer.after_key he with hB | hB | ⟨C, hC⟩
    · exact .inl hB
    · exact .inr hB
    · exact (hbrace hC).elim

end Key

variable {c : Char}

private theorem count_cut_lt {q r g Y : List Char} (hn : n = q ++ '\x7d' :: r)
    (h : escaped q ++ ['\x7d'] = g ++ '"' :: Y) : g.count '\x7d' < n.count '\x7d' := by
  have hc := congrArg (List.count '\x7d') h
  rcases List.eq_nil_or_concat Y with rfl | ⟨Y, c, rfl⟩
  · exact absurd (List.cons.inj (List.append_inj_right' h rfl)).1 (by decide)
  · rw [List.concat_eq_append, ← List.cons_append, ← List.append_assoc] at h
    obtain rfl : '\x7d' = c := (List.cons.inj (List.append_inj_right' h rfl)).1
    simp only [List.count_append, count_escaped (show Mark '\x7d' by decide), List.concat_eq_append,
      List.count_cons, List.count_nil] at hc
    rw [hn]
    simp at hc ⊢
    omega

theorem eq_of_blank_append {b X Y : List Char} (hb : ∀ d ∈ b, isBlank d = true)
    (hc : isBlank c = false) (h : b ++ X = c :: Y) : X = c :: Y := by
  cases b with
  | nil => exact h
  | cons d b =>
    rw [← (List.cons.inj h).1, hb d List.mem_cons_self] at hc
    cases hc

/-- In a cut replacement, what the key of the new text seems to be followed by has not all braces of
the new text. -/
theorem Cut.field_lt (hc : Cut o n t) {A b1 b2 g r : List Char} (h1 : ∀ c ∈ b1, isBlank c = true)
    (h2 : ∀ c ∈ b2, isBlank c = true)
    (he : t = A ++ 'w' :: '"' :: (b1 ++ ':' :: (b2 ++ '"' :: (g ++ '"' :: r)))) :
    g.count '\x7d' < n.count '\x7d' := by
  obtain ⟨q, s, hn, hB | hB⟩ := hc.after_key he
  · exact absurd (List.cons.inj (eq_of_blank_append h1 rfl hB)).1 (by decide)
  · have h3 := (List.cons.inj (eq_of_blank_append h1 rfl hB)).2
    cases b2 with
    | nil => exact absurd (List.cons.inj h3).1 (by decide)
    | cons d b2 =>
      have h4 := eq_of_blank_append (fun c hc => h2 c (List.mem_cons_of_mem d hc)) rfl
        (List.cons.inj h3).2
      exact count_cut_lt hn (List.cons.inj h4).2.symm

def keyEnd (i : Nat) (p after : Pattern) : Pattern :=
  .seq (.char (.literal 'w')) (.seq (.char (.literal '"')) (.seq (.many true (.char .blank))
    (.seq (.char (.literal ':')) (.seq (.many true (.char .blank)) (.seq (.char (.literal '"'))
      (.seq (.group i p) after))))))

private theorem matches_literal {s t : Cursor}
    (h : (Pattern.char (.literal c)).Matches s t) : s.Reads [c] t := by
  obtain ⟨x, hx, hr⟩ := matches_char.mp h
  obtain rfl : x = c := by simpa [CharClass.holds] using hx
  exact hr

private theorem keyEnd_matches {i : Nat} {p after : Pattern} {s u : Cursor}
    (ha : ∀ v, after.Matches v u → (∃ r, v.rest = '"' :: r) ∧ u.groups = v.groups)
    (h : (keyEnd i p after).Matches s u) : ∃ b1 b2 g r, (∀ c ∈ b1, isBlank c = true) ∧
      (∀ c ∈ b2, isBlank c = true) ∧
      s.rest = 'w' :: '"' :: (b1 ++ ':' :: (b2 ++ '"' :: (g ++ '"' :: r))) ∧
      u.groups.head? = some (i, String.ofList g) := by
  obtain ⟨s1, h1, s2, h2, s3, h3, s4, h4, s5, h5, s6, h6, s7, h7, h8⟩ := h
  obtain ⟨b1, hb1, r3⟩ := matches_many_char.mp h3
  obtain ⟨b2, hb2, r5⟩ := matches_many_char.mp h5
  obtain ⟨v, hv, rfl⟩ := h7
  obtain ⟨g, hg⟩ := hv.passes
  obtain ⟨⟨r, hr⟩, hu⟩ := ha _ h8
  refine ⟨b1, b2, g, r, hb1, hb2, ?_, ?_⟩
  · rw [(matches_literal h1).rest, (matches_literal h2).rest, r3.rest, (matches_literal h4).rest,
      r5.rest, (matches_literal h6).rest, hg.rest, hr]
    simp
  · rw [hu]
    simp [hg.pos, hg.rest]

theorem Cut.group_lt (hc : Cut o n t) {p q after : Pattern} {i k : Nat} {m : Found}
    (hp : p.dropParts k = keyEnd i q after)
    (ha : ∀ v u, after.Matches v u → (∃ r, v.rest = '"' :: r) ∧ u.groups = v.groups)
    (h : p.search (String.ofList t) = some m) :
    (m.group i).toList.count '\x7d' < n.count '\x7d' := by
  obtain ⟨pre, u, v, he, -, hm, hg⟩ := search_eq_some h
  obtain ⟨w, pre', hw, hk⟩ := hm.dropParts k
  rw [hp] at hk
  obtain ⟨b1, b2, g, r, h1, h2, hr, hv⟩ := keyEnd_matches (fun x => ha x v) hk
  have hlt := hc.field_lt (A := pre ++ pre') h1 h2 (by
    rw [← String.toList_ofList (l := t), he, hw, hr, List.append_assoc])
  obtain ⟨gs, hgs⟩ : ∃ gs, m.groups = (i, String.ofList g) :: gs := by
    rw [← hg] at hv
    exact List.head?_eq_some_iff.mp hv
  simpa [Found.group, Found.group?, hgs] using hlt

private theorem newField_parts : newField.dropParts 3 = keyEnd 1
    (.many false (.alt (.char (.except (.union .none (.literal '"'))))
      (.seq (.char (.literal '\\')) (.char (.literal '"'))))) (.char (.literal '"')) := by decide

private theorem plainObject_parts : plainObject.dropParts 19 = keyEnd 2
    (.seq (.char (.except (.union .none (.literal '"'))))
      (.many true (.char (.except (.union .none (.literal '"'))))))
    (.seq (.char (.literal '"')) (.seq (.many true (.char .blank)) (.char (.literal '\x7d')))) := by
  decide

include hc in
theorem fields_ne (hn : n.count '\x7d' = new.toList.count '\x7d') :
    fields? (String.ofList t) ≠ some (.replacement old new) := by
  intro h
  unfold fields? at h
  split at h
  · rename_i m1 m2 h1 h2
    have hnew : unescaped (m2.group 1) = new := by
      simp only [Datum.replacement, Option.some.injEq, Datum.dict.injEq, List.cons.injEq,
        Prod.mk.injEq, Datum.text.injEq, and_true, true_and] at h
      exact h.2
    have hlt := hc.group_lt newField_parts (fun v u h => by
      have hr := matches_literal h
      exact ⟨⟨_, hr.rest⟩, hr.groups⟩) h2
    have hle : (unescaped (m2.group 1)).toList.count '\x7d' ≤ (m2.group 1).toList.count '\x7d' :=
      (count_replace_le (by decide) _ _).trans (count_replace_le (by decide) _ _)
    rw [hnew] at hle
    omega
  · cases h

include hc in
theorem plain_ne (hn : n.count '\x7d' = new.toList.count '\x7d') :
    plain? (String.ofList t) ≠ some (.replacement old new) := by
  intro h
  obtain ⟨m, hm, he⟩ := Option.map_eq_some_iff.mp h
  have hnew : m.group 2 = new := by
    simp only [Datum.replacement, Datum.dict.injEq, List.cons.injEq, Prod.mk.injEq,
      Datum.text.injEq, and_true, true_and] at he
    exact he.2
  have hlt := hc.group_lt plainObject_parts (fun v u h => by
    obtain ⟨x, hx, y, hy, hu⟩ := h
    have h1 := matches_literal hx
    obtain ⟨b, -, h2⟩ := matches_many_char.mp hy
    have h3 := matches_literal hu
    exact ⟨⟨_, h1.rest⟩, by rw [h3.groups, h2.groups, h1.groups]⟩) hm
  rw [hnew] at hlt
  omega

theorem fenced_eq_none {s : String} (h : ¬ ['`', '`', '`'] <:+: s.toList) : fenced? s = none := by
  have hf : fence = .seq (.char (.literal '`')) (.seq (.char (.literal '`'))
      (.seq (.char (.literal '`')) (fence.dropParts 3))) := by decide
  cases hm : fence.search s with
  | none => rw [fenced?, hm]; rfl
  | some m =>
    obtain ⟨pre, u, v, he, -, hu, -⟩ := search_eq_some hm
    rw [hf] at hu
    obtain ⟨s1, h1, s2, h2, s3, h3, -⟩ := hu
    refine absurd ⟨pre, s3.rest, ?_⟩ h
    rw [he, (matches_literal h1).rest, (matches_literal h2).rest, (matches_literal h3).rest]
    simp

theorem closingQuote_cons (h1 : c ≠ '"') (h2 : c ≠ '\\') (cs : List Char) :
    closingQuote? (c :: cs) = (closingQuote? cs).map (· + 1) := by
  rw [closingQuote?.eq_def]
  split
  · rename_i h
    cases h
  · rename_i h
    exact absurd (List.cons.inj h).1 h2
  · rename_i h
    obtain ⟨rfl, rfl⟩ := List.cons.inj h
    simp [h1]

private theorem closingQuote_guarded {u : List Char} (hu : Guarded u) (r : List Char) :
    closingQuote? (u ++ r) = (closingQuote? r).map (· + u.length) := by
  induction hu with
  | nil => simp
  | cons h1 h2 _ _ ih =>
    rw [List.cons_append, closingQuote_cons h1 h2, ih, Option.map_map]
    rfl
  | pair c _ ih =>
    rw [List.cons_append, List.cons_append, closingQuote?, ih, Option.map_map]
    rfl

private theorem behind_eq {s p : String} {start : Nat} {u r : List Char}
    (hp : p.toList = [c]) (h : s.toList.drop start = u ++ c :: r) (hu : c ∉ u) :
    behind s p start = start + u.length + 1 ∧ s.toList.drop (start + u.length + 1) = r := by
  have hlen : ¬ Text.length s < start := by
    intro hlt
    rw [List.drop_eq_nil_of_le (Nat.le_of_lt hlt)] at h
    simp at h
  have hf : findChars [c] start (u ++ c :: r) = some (start + u.length) := by
    clear h hlen
    induction u generalizing start with
    | nil => simp [findChars]
    | cons d u ih =>
      obtain ⟨hd, hu⟩ := not_or.mp (mt List.mem_cons.mpr hu)
      rw [List.cons_append, findChars, if_neg (by simp [hd]), ih hu]
      simp
      omega
  constructor
  · rw [behind, findFrom?, if_neg hlen, hp, h, hf]
  · rw [Nat.add_assoc, ← List.drop_drop, h]
    simp

private theorem fieldText_eq_none {s : String} {i : Nat} {u z : List Char}
    (hi : s.toList.drop i = u ++ ':' :: ' ' :: '"' :: z) (hu : ':' ∉ u)
    (hz : closingQuote? z = none) : fieldText? s i = none := by
  obtain ⟨h1, h2⟩ := behind_eq (p := ":") rfl hi hu
  obtain ⟨h3, h4⟩ := behind_eq (p := "\"") (u := [' ']) rfl h2 (by decide)
  simp only [fieldText?, h1, h3, h4, hz]

include hc in
private theorem scanned_eq_none : scanned? (String.ofList t) = none := by
  unfold scanned?
  split
  · rename_i i j hi hj
    have hn : fieldText? (String.ofList t) j = none := by
      obtain ⟨pre, post, ⟨hs, -⟩, rfl⟩ := find_eq_some hj
      rw [String.toList_ofList] at hs
      have hd : (String.ofList t).toList.drop pre.length = '"' :: 'n' :: 'e' :: 'w' :: '"' :: post := by
        rw [String.toList_ofList, hs, List.append_assoc, List.drop_left]
        rfl
      have hq (q : List Char) : closingQuote? (escaped q ++ ['\x7d']) = none := by
        rw [closingQuote_guarded (guarded_escaped q)]
        rfl
      obtain ⟨q, r, -, hB | hB⟩ := hc.after_key (A := pre ++ ['"', 'n', 'e']) (B := post)
        (by rw [hs]; simp)
      · rw [hB] at hd
        exact fieldText_eq_none (u := "\"new\", \"new\"".toList) hd (by decide) (hq q)
      · rw [hB] at hd
        exact fieldText_eq_none (u := "\"new\"".toList) hd (by decide) (hq q)
    rw [hn]
    split
    · rename_i h
      cases h
    · rfl
  · rfl

private theorem of_orElse {α : Type} {a b : Option α} {x : α} (h : (a <|> b) = some x) :
    a = some x ∨ b = some x := by
  cases a with
  | none => exact .inr h
  | some y => exact .inl h

include hc ht in
private theorem parse_cut_ne (hf : ¬ ['`', '`', '`'] <:+: t)
    (hn : n.count '\x7d' = new.toList.count '\x7d') :
    parse? (String.ofList t) ≠ some (.replacement old new) := by
  have hp : ∀ c ∈ (String.ofList t).toList, Printable c := by
    rw [String.toList_ofList]
    exact hc.printable
  have hw : weight (String.ofList t).toList = weight t := by rw [String.toList_ofList]
  have h1 := parse_ne_of_weight hc ht hp hw
  have h2 := parse_ne_of_weight hc ht (printable_requoted hp) ((weight_requoted hp).trans hw)
  have hd : parseDirect? (String.ofList t) ≠ some (.replacement old new) := by
    unfold parseDirect?
    split
    · rename_i d hd
      exact fun h => h1 (hd.trans (congrArg _ (Option.some.inj h)))
    · split
      · rename_i d hd
        exact fun h => h2 (hd.trans (congrArg _ (Option.some.inj h)))
      · rw [Literal.parse_cut hc]
        exact fields_ne hc hn
  have hr : parseRemains? (String.ofList t) ≠ some (.replacement old new) := by
    intro h
    rcases of_orElse h with h | h
    · exact plain_ne hc hn h
    · rw [scanned_eq_none hc] at h
      cases h
  intro h
  unfold parse? at h
  split at h
  · cases h
  · rw [fenced_eq_none (by rwa [String.toList_ofList])] at h
    rcases of_orElse h with h | h
    · exact hd h
    · exact hr h

end Cut

theorem parse_frame_eq (o n : List Char) :
    parse? (String.ofList (frame (escaped o) (escaped n))) =
      some (.replacement (String.ofList o) (String.ofList n)) := by
  have hne : (String.ofList (frame (escaped o) (escaped n))).isEmpty = false := by
    rw [Bool.eq_false_iff, ne_eq, String.isEmpty_iff, ← String.toList_inj, String.toList_ofList]
    simp [frame, opening]
  rw [parse?, hne, parseDirect?, parse_frame]
  rfl

/-- A replacement is read back from the answer that consists of it exactly if tidying leaves its two
texts alone and their braces, one text after the other, are nested. -/
theorem replacement_survives_iff (old new : String) (ho : contains old "```" = false)
    (hn : contains new "```" = false) :
    parse? (payload (render (.replacement old new))) = some (.replacement old new) ↔
      Tidy old ∧ Tidy new ∧ Nested (old ++ new) := by
  obtain ⟨o, n, htn, htf, he, h⟩ := payload_render ho hn
  have hkeeps (h : o = old.toList ∧ n = new.toList) : Nested (old ++ new) ↔ Keeps 0 (o ++ n) := by
    rw [nested_iff, h.1, h.2, String.toList_append]
  rw [← and_assoc, ← he]
  rcases h with ⟨hk, hp⟩ | ⟨hk, hc⟩
  · rw [← String.ofList_toList (s := payload _), hp, parse_frame_eq]
    have hd : some (Datum.replacement (String.ofList o) (String.ofList n)) =
        some (.replacement old new) ↔ o = old.toList ∧ n = new.toList := by
      simp [Datum.replacement, ← String.toList_inj]
    rw [hd]
    exact ⟨fun h => ⟨h, (hkeeps h).mpr hk⟩, fun h => h.1⟩
  · have hfence : ¬ ['`', '`', '`'] <:+: (payload (render (.replacement old new))).toList := by
      obtain ⟨z, hz, -⟩ := hc.rest
      exact fun h => no_fence_frame ho hn (htf.fence_source (hz ▸ h.trans
        (List.prefix_append ..).isInfix))
    rw [← String.ofList_toList (s := payload _)]
    exact iff_of_false (parse_cut_ne hc htf hfence (htn.count_eq (by decide) (by decide)))
      fun h => hk ((hkeeps h.1).mp h.2)

/-- Code in braces survives; two spaces in a row do not. -/
theorem braces_survive_blanks_do_not :
    parse? (payload (render (.replacement "f() \x7b g(1, 2); \x7d" "\x7b\x7d"))) =
      some (.replacement "f() \x7b g(1, 2); \x7d" "\x7b\x7d") ∧
    parse? (payload (render (.replacement "a  b" "c"))) ≠ some (.replacement "a  b" "c") :=
  ⟨(replacement_survives_iff _ _ (by decide) (by decide)).mpr (by decide),
    fun h => absurd ((replacement_survives_iff _ _ (by decide) (by decide)).mp h).1 (by decide)⟩

end Mender.Answer
