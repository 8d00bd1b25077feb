import Mender.Proofs.Escape
import Mender.Proofs.Place
import Mender.Proofs.Undone

/-! Reading back the text of a fix-it. A compiler writes a fix-it on a line of its own, with the
place in numbers and the text in quotation marks; in the text backslashes, quotation marks, line
feeds and tabs are escaped. The reader ends the text at the first quotation mark, escaped or not,
and takes back the escapes of line feeds and tabs alone. Main statement: it gives the fix-it that
was written just if the text has neither a quotation mark nor a backslash and the numbers are not
too long. -/
namespace Mender.Diagnostic
open Text Pattern

def fixItChar (c : Char) : List Char :=
  if c = '\\' then ['\\', '\\']
  else if c = '"' then ['\\', '"']
  else if c = '\n' then ['\\', 'n']
  else if c = '\t' then ['\\', 't']
  else [c]

def fixItText (cs : List Char) : List Char := cs.flatMap fixItChar

def beforeFile : List Char := "fix-it:\"".toList

def beforeSpan : List Char := "\":\x7b".toList

def beforeText : List Char := "\x7d:\"".toList

def spellSpan (file : List Char) (a b c d : Nat) : List Char :=
  beforeFile ++ (file ++ (beforeSpan ++ (Nat.toDigits 10 a ++ ([':'] ++ (Nat.toDigits 10 b ++
    (['-'] ++ (Nat.toDigits 10 c ++ ([':'] ++ (Nat.toDigits 10 d ++ beforeText)))))))))

def spellFixIt (file : List Char) (a b c d : Nat) (text : List Char) : String :=
  String.ofList (spellSpan file a b c d ++ (fixItText text ++ ['"']))

def numberThen (i : Nat) (w : List Char) (q : Pattern) : Pattern :=
  .seq (.group i (plus .digit)) (spelled w q)

def quotedText : Pattern :=
  .seq (.group 5 (.many true (.char unquoted))) (.char (.literal '"'))

def spanGroups (a b c d : Nat) (text : List Char) : List (Nat × String) :=
  [(5, String.ofList text), (4, String.ofList (Nat.toDigits 10 d)),
    (3, String.ofList (Nat.toDigits 10 c)), (2, String.ofList (Nat.toDigits 10 b)),
    (1, String.ofList (Nat.toDigits 10 a))]

theorem fixItLine_eq : fixItLine = spelled beforeFile (.seq (plus unquoted) (spelled beforeSpan
    (numberThen 1 [':'] (numberThen 2 ['-'] (numberThen 3 [':']
      (numberThen 4 beforeText quotedText)))))) := by
  decide +kernel

section Match
variable {q : Pattern} {s t : Cursor} {i : Nat} {w r file text post : List Char}

private theorem goes_numberThen {n : Nat} (hs : s.rest = Nat.toDigits 10 n ++ (w ++ r))
    (hw : w.head?.any (fun x => !CharClass.digit.holds x) = true)
    (hq : q.Goes ((s.noting i (Nat.toDigits 10 n) (w ++ r)).past w r) t) :
    (numberThen i w q).Goes s t := by
  have hdigits : (group i (plus .digit)).Goes s (s.noting i (Nat.toDigits 10 n) (w ++ r)) :=
    (goes_plus (c := .digit) hs Nat.toDigits_ne_nil (isDecimal_toDigits n)
      (not_holds_head hw r)).group hs i
  exact hdigits.seq (goes_spelled rfl hq)

private theorem goes_quotedText (hs : s.rest = text ++ (['"'] ++ post)) (ht : '"' ∉ text) :
    quotedText.Goes s ((s.noting 5 text (['"'] ++ post)).past ['"'] post) :=
  ((goes_many hs (unquoted_of_not_mem ht) (not_holds_head (by decide) post)).group hs 5).seq
    (goes_char rfl (by decide))

theorem matchAt_fixIt {a b c d : Nat} (hf : file ≠ []) (hq : '"' ∉ file) (ht : '"' ∉ text) :
    ∃ m, fixItLine.matchAt false ⟨[], spellSpan file a b c d ++ (text ++ (['"'] ++ post)), 0, []⟩ =
        some m ∧ m.text.toList = spellSpan file a b c d ++ (text ++ ['"']) ∧
      m.groups = spanGroups a b c d text := by
  have hgoes : ∃ t, fixItLine.Goes
      ⟨[], spellSpan file a b c d ++ (text ++ (['"'] ++ post)), 0, []⟩ t ∧
      t.pos = (spellSpan file a b c d ++ (text ++ ['"'])).length ∧
      t.groups = spanGroups a b c d text := by
    rw [fixItLine_eq]
    simp only [spellSpan, List.append_assoc]
    refine ⟨_, goes_spelled rfl ((goes_plus rfl hf (unquoted_of_not_mem hq)
      (not_holds_head (by decide) _)).seq (goes_spelled rfl (goes_numberThen rfl (by decide)
        (goes_numberThen rfl (by decide) (goes_numberThen rfl (by decide)
          (goes_numberThen rfl (by decide) (goes_quotedText rfl ht))))))), ?_, rfl⟩
    simp only [Cursor.past, Cursor.noting, List.length_append]
    omega
  obtain ⟨t, ht, hpos, hgroups⟩ := hgoes
  refine ⟨_, ht.matchAt, ?_, hgroups⟩
  have hrest : spellSpan file a b c d ++ (text ++ (['"'] ++ post)) =
      (spellSpan file a b c d ++ (text ++ ['"'])) ++ post := by simp only [List.append_assoc]
  dsimp only
  rw [String.toList_ofList, hpos, Nat.sub_zero, hrest, List.take_left]

end Match

def Legible (n : Nat) : Prop := (Nat.toDigits 10 n).length ≤ 4300

instance : DecidablePred Legible := fun n =>
  inferInstanceAs (Decidable ((Nat.toDigits 10 n).length ≤ 4300))

theorem readNumber_toDigits {n : Nat} {k : Int} :
    readNumber (String.ofList (Nat.toDigits 10 n)) = .ok k ↔ Legible n ∧ k = n := by
  have hlength : length (String.ofList (Nat.toDigits 10 n)) = (Nat.toDigits 10 n).length := by
    rw [length, String.toList_ofList]
  rw [readNumber, hlength, String.toList_ofList, digitsValue_toDigits]
  split
  · rename_i hle
    rw [Except.ok.injEq]
    exact ⟨fun h => ⟨hle, h.symm⟩, fun h => h.2.symm⟩
  · rename_i hgt
    exact iff_of_false (by simp) fun h => hgt h.1

def readFixIt (m : Found) : Except Fault FixIt := do
  return { startLine := ← readNumber (m.group 1), startCol := ← readNumber (m.group 2),
           endLine := ← readNumber (m.group 3), endCol := ← readNumber (m.group 4),
           text := unescapeFixIt (m.group 5) }

section Read
variable {file text : List Char} {a b c d : Nat}

theorem readFixIt_eq_ok {m : Found} {f : FixIt}
    (hm : m.groups = spanGroups a b c d text) :
    readFixIt m = .ok f ↔ (∀ n ∈ [a, b, c, d], Legible n) ∧
      f = ⟨a, b, c, d, unescapeFixIt (String.ofList text)⟩ := by
  have hgroup (i : Nat) (n : Nat) (h : m.groups.lookup i = some (String.ofList (Nat.toDigits 10 n)))
      (k : Int) : readNumber (m.group i) = .ok k ↔ Legible n ∧ k = n := by
    rw [Found.group, Found.group?, h, Option.getD_some, readNumber_toDigits]
  have htext : m.group 5 = String.ofList text := by
    rw [Found.group, Found.group?, hm]
    rfl
  unfold readFixIt
  simp only [bind_eq_ok, hgroup 1 a (by rw [hm]; rfl), hgroup 2 b (by rw [hm]; rfl),
    hgroup 3 c (by rw [hm]; rfl), hgroup 4 d (by rw [hm]; rfl), htext]
  constructor
  · rintro ⟨_, ⟨ha, rfl⟩, _, ⟨hb, rfl⟩, _, ⟨hc, rfl⟩, _, ⟨hd, rfl⟩, hf⟩
    exact ⟨by simp [ha, hb, hc, hd], (Except.ok.inj hf).symm⟩
  · rintro ⟨hn, rfl⟩
    simp only [List.forall_mem_cons] at hn
    obtain ⟨ha, hb, hc, hd, -⟩ := hn
    exact ⟨_, ⟨ha, rfl⟩, _, ⟨hb, rfl⟩, _, ⟨hc, rfl⟩, _, ⟨hd, rfl⟩, rfl⟩

/-- The first fix-it of a line is read from its numbers and from its text up to the first quotation
mark; where nothing follows that mark, there is no other. -/
theorem fixIts_line (hf : file ≠ []) (hq : '"' ∉ file) (ht : '"' ∉ text) (post : List Char) :
    ∃ m more, m.groups = spanGroups a b c d text ∧
      fixIts (String.ofList (spellSpan file a b c d ++ (text ++ (['"'] ++ post)))) =
        (m :: more).mapM readFixIt ∧ (post = [] → more = []) := by
  obtain ⟨m, hat, hmatched, hgroups⟩ := matchAt_fixIt (a := a) (b := b) (c := c) (d := d) hf hq ht
  have hmoves : fixItLine.Moves := by
    rw [fixItLine_eq]
    exact moves_spelled _ (by decide)
  have hcut : spellSpan file a b c d ++ (text ++ (['"'] ++ post)) = m.text.toList ++ post := by
    rw [hmatched]
    simp only [List.append_assoc]
  have hall := foundFrom_of_some hmoves hat hcut
  refine ⟨m, fixItLine.foundFrom (m.text.toList.reverse ++ []) (0 + m.text.toList.length) post,
    hgroups, ?_, fun hpost => ?_⟩
  · change (fixItLine.findAll _).mapM readFixIt = _
    rw [findAll_eq, String.toList_ofList, hall]
  · rw [hpost]
    exact foundFrom_nil hmoves

end Read

section Unescape
variable {c : Char} {cs : List Char}

theorem fixItChar_of_ne (hb : c ≠ '\\') (hq : c ≠ '"') (hn : c ≠ '\n') (ht : c ≠ '\t') :
    fixItChar c = [c] := by
  rw [fixItChar, if_neg hb, if_neg hq, if_neg hn, if_neg ht]

theorem fixItChar_cases {P : Char → List Char → Prop} (hb : P '\\' ['\\', '\\'])
    (hq : P '"' ['\\', '"']) (hn : P '\n' ['\\', 'n']) (ht : P '\t' ['\\', 't'])
    (hc : ∀ c, c ≠ '\\' → c ≠ '"' → c ≠ '\n' → c ≠ '\t' → P c [c]) (c : Char) :
    P c (fixItChar c) := by
  by_cases h₁ : c = '\\'
  · exact h₁ ▸ hb
  by_cases h₂ : c = '"'
  · exact h₂ ▸ hq
  by_cases h₃ : c = '\n'
  · exact h₃ ▸ hn
  by_cases h₄ : c = '\t'
  · exact h₄ ▸ ht
  rw [fixItChar_of_ne h₁ h₂ h₃ h₄]
  exact hc c h₁ h₂ h₃ h₄

theorem unescapeFixIt_toList (s : String) : (unescapeFixIt s).toList =
    replaceChars ['\\', 't'] ['\t'] 0 (replaceChars ['\\', 'n'] ['\n'] 0 s.toList) := by
  rw [unescapeFixIt, replace_toList (by decide), replace_toList (by decide)]
  rfl

theorem mem_fixItText {x : Char} (h : x ∈ fixItText cs) :
    x ∈ ['\\', 'n', 't'] ∨ x ∈ cs ∧ x ≠ '\n' ∧ x ≠ '\t' := by
  have hescape {ys : List Char} (hy : ∀ y ∈ ys, y ∈ ['\\', 'n', 't']) (hx : x ∈ ys) :
      x ∈ ['\\', 'n', 't'] ∨ x ∈ cs ∧ x ≠ '\n' ∧ x ≠ '\t' := .inl (hy x hx)
  obtain ⟨c, hcs, hx⟩ := List.mem_flatMap.mp h
  revert hcs hx
  induction c using fixItChar_cases with
  | hb => exact fun _ => hescape (forall_mem_of_all (by decide))
  | hq =>
    intro hcs hx
    rcases List.mem_pair.mp hx with rfl | rfl
    · exact .inl (by decide)
    · exact .inr ⟨hcs, by decide, by decide⟩
  | hn => exact fun _ => hescape (forall_mem_of_all (by decide))
  | ht => exact fun _ => hescape (forall_mem_of_all (by decide))
  | hc c _ _ hn ht =>
    intro hcs hx
    obtain rfl := List.mem_singleton.mp hx
    exact .inr ⟨hcs, hn, ht⟩

theorem quote_not_mem_fixItText (h : '"' ∉ cs) : '"' ∉ fixItText cs := by
  intro hm
  rcases mem_fixItText hm with hm | hm
  · exact absurd hm (by decide)
  · exact h hm.1

theorem length_fixItText (cs : List Char) : (fixItText cs).length =
    cs.length + cs.count '\n' + cs.count '\t' + cs.count '\\' + cs.count '"' := by
  induction cs with
  | nil => rfl
  | cons c cs ih =>
    have hchar : (fixItChar c).length = 1 + [c].count '\n' + [c].count '\t' + [c].count '\\' +
        [c].count '"' := by
      induction c using fixItChar_cases with
      | hb => decide
      | hq => decide
      | hn => decide
      | ht => decide
      | hc c hb hq hn ht => simp [hb, hq, hn, ht]
    rw [fixItText, List.flatMap_cons, List.length_append, ← fixItText, ih, hchar, List.length_cons]
    simp only [List.count_cons, List.count_nil]
    omega

private theorem unescapeFixIt_fixItText (hq : '"' ∉ cs) (hb : '\\' ∉ cs) :
    unescapeFixIt (String.ofList (fixItText cs)) = String.ofList cs := by
  have hne {c x : Char} (hx : x ∉ cs) (hc : c ∈ cs) : c ≠ x := fun he => hx (he ▸ hc)
  have hfeeds : replaceChars ['\\', 'n'] ['\n'] 0 (fixItText cs) =
      cs.flatMap fun c => if c = '\n' then ['\n'] else fixItChar c := by
    apply replaceChars_flatMap rfl
    intro c hc hn
    by_cases ht : c = '\t'
    · subst ht
      exact replaceChars_pair_of_ne (by decide) (by decide)
    · rw [fixItChar_of_ne (hne hb hc) (hne hq hc) hn ht]
      exact replaceChars_cons_of_ne (hne hb hc)
  have htabs : replaceChars ['\\', 't'] ['\t'] 0
      (cs.flatMap fun c => if c = '\n' then ['\n'] else fixItChar c) =
      cs.flatMap fun c =>
        if c = '\t' then ['\t'] else if c = '\n' then ['\n'] else fixItChar c := by
    apply replaceChars_flatMap rfl
    intro c hc ht
    split
    · exact replaceChars_cons_of_ne (by decide)
    · rename_i hn
      rw [fixItChar_of_ne (hne hb hc) (hne hq hc) hn ht]
      exact replaceChars_cons_of_ne (hne hb hc)
  have hall : (cs.flatMap fun c => if c = '\t' then ['\t'] else if c = '\n' then ['\n']
      else fixItChar c) = cs := by
    conv_rhs => rw [← List.flatMap_singleton' cs]
    apply List.flatMap_congr
    intro c hc
    split
    · rename_i ht
      rw [ht]
    · rename_i ht
      split
      · rename_i hn
        rw [hn]
      · rename_i hn
        exact fixItChar_of_ne (hne hb hc) (hne hq hc) hn ht
  rw [← String.toList_inj, unescapeFixIt_toList, String.toList_ofList, hfeeds, htabs, hall,
    String.toList_ofList]

/-- The text up to the first quotation mark gives the text that was written just if that has
nothing but line feeds and tabs escaped. -/
private theorem unescapeFixIt_iff (cs : List Char) :
    unescapeFixIt (String.ofList (beforeQuote (fixItText cs))) = String.ofList cs ↔
      '"' ∉ cs ∧ '\\' ∉ cs := by
  have hall (hq : '"' ∉ cs) : beforeQuote (fixItText cs) = fixItText cs :=
    beforeQuote_eq_self (quote_not_mem_fixItText hq)
  constructor
  · intro h
    rw [← String.toList_inj, unescapeFixIt_toList, String.toList_ofList, String.toList_ofList] at h
    have hfeeds := merges_replaceChars '\\' 'n' '\n' (beforeQuote (fixItText cs))
    have htabs := merges_replaceChars '\\' 't' '\t'
      (replaceChars ['\\', 'n'] ['\n'] 0 (beforeQuote (fixItText cs)))
    rw [h] at htabs
    have hq : '"' ∉ cs := by
      rw [← List.count_eq_zero, htabs.count_eq (by decide) (by decide) (by decide),
        hfeeds.count_eq (by decide) (by decide) (by decide), List.count_eq_zero]
      exact quote_not_mem_beforeQuote
    rw [hall hq] at hfeeds htabs
    -- each pass makes the text shorter by what it brings in, and the escapes were more than that
    have hlength := length_fixItText cs
    have hfeed : (fixItText cs).count '\n' = 0 := List.count_eq_zero.mpr fun hm =>
      (mem_fixItText hm).elim (by decide) fun h => h.2.1 rfl
    have htab : (fixItText cs).count '\t' = 0 := List.count_eq_zero.mpr fun hm =>
      (mem_fixItText hm).elim (by decide) fun h => h.2.2 rfl
    have hfirst := hfeeds.length_eq (by decide) (by decide)
    have hsecond := htabs.length_eq (by decide) (by decide)
    have hkept := htabs.count_eq (c := '\n') (by decide) (by decide) (by decide)
    have hbrought := hfeeds.count_eq (c := '\t') (by decide) (by decide) (by decide)
    refine ⟨hq, List.count_eq_zero.mp ?_⟩
    omega
  · rintro ⟨hq, hb⟩
    rw [hall hq, unescapeFixIt_fixItText hq hb]

end Unescape

/-- A fix-it line gives the fix-it that was written just if the new text has neither a quotation
mark nor a backslash and no number has too many digits. -/
theorem fixIts_spellFixIt_iff {file text : List Char} {a b c d : Nat} (hf : file ≠ [])
    (hq : '"' ∉ file) :
    fixIts (spellFixIt file a b c d text) = .ok [⟨a, b, c, d, String.ofList text⟩] ↔
      ('"' ∉ text ∧ '\\' ∉ text) ∧ ∀ n ∈ [a, b, c, d], Legible n := by
  obtain ⟨post, hcut, hpost⟩ := exists_beforeQuote (fixItText text)
  obtain ⟨m, more, hgroups, hline, hmore⟩ := fixIts_line (a := a) (b := b) (c := c) (d := d) hf hq
    (@quote_not_mem_beforeQuote (fixItText text)) post
  rw [spellFixIt, hcut, hline, List.mapM_cons, bind_eq_ok]
  constructor
  · rintro ⟨f, hread, h⟩
    obtain ⟨fs, -, h⟩ := bind_eq_ok.mp h
    obtain ⟨rfl, -⟩ := List.cons.inj (Except.ok.inj h)
    obtain ⟨hn, hfix⟩ := (readFixIt_eq_ok hgroups).mp hread
    exact ⟨(unescapeFixIt_iff text).mp (congrArg FixIt.text hfix).symm, hn⟩
  · rintro ⟨htext, hn⟩
    have hnone : more = [] := hmore (hpost (quote_not_mem_fixItText htext.1))
    refine ⟨_, (readFixIt_eq_ok hgroups).mpr ⟨hn, rfl⟩, ?_⟩
    rw [hnone, (unescapeFixIt_iff text).mpr htext]
    rfl

/-- Line feeds and tabs are read back, and a quotation mark ends the text at its backslash. -/
theorem escaped_quote_cuts_text :
    fixIts (spellFixIt "a.c".toList 1 2 3 4 "x\n\ty".toList) =
      .ok [⟨1, 2, 3, 4, String.ofList "x\n\ty".toList⟩] ∧
    fixIts (spellFixIt "a.c".toList 1 2 3 4 "\"x\"".toList) ≠
      .ok [⟨1, 2, 3, 4, String.ofList "\"x\"".toList⟩] ∧
    spellFixIt "a.c".toList 1 2 3 4 "\"x\"".toList =
      "fix-it:\"a.c\":\x7b1:2-3:4\x7d:\"\\\"x\\\"\"" ∧
    fixIts "fix-it:\"a.c\":\x7b1:2-3:4\x7d:\"\\\"x\\\"\"" = .ok [⟨1, 2, 3, 4, "\\"⟩] := by
  have hiff (text : List Char) :=
    @fixIts_spellFixIt_iff "a.c".toList text 1 2 3 4 (by decide) (by decide)
  exact ⟨(hiff _).mpr (by decide), (hiff _).not.mpr (by decide), by decide, by decide +kernel⟩

end Mender.Diagnostic
