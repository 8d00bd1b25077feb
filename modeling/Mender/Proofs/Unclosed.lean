import Mender.Proofs.Escape
import Mender.Proofs.Extraction
import Mender.Proofs.Place

/-! Reading back a written replacement that lacks its closing brace. Neither JSON nor a literal is
read from it, and the two fields are looked for; each text ends at its first quotation mark, escaped
or not, and of its escapes only those of line feeds are taken back. Main statement: such an answer
always leads to some replacement, and to the one that was written just if both texts are made of
line feeds and of characters that are written as themselves. -/
namespace Mender.Answer
open Text Json Pattern

section NotData
variable {s : String} {r : List Char}

theorem json_of_quote (hs : ∀ c ∈ s.toList, Printable c) (hopen : s.toList = '\x7b' :: r)
    (hlast : s.toList.getLast? = some '"') : ∃ e, Json.parse s = .error e := by
  cases h : Json.parse s with
  | error e => exact ⟨e, rfl⟩
  | ok d =>
    obtain ⟨w, v, hv, hlayout⟩ := parse_brace hs hopen h
    rw [hv, List.getLast?_append, List.getLast?_cons] at hlast
    rcases List.eq_nil_or_concat v with rfl | ⟨v, c, rfl⟩
    · simp at hlast
    · obtain rfl : c = '"' := by simpa using hlast
      exact absurd (hlayout '"' (by simp)) (by decide)

end NotData

def cutOff (o n : List Char) : String := String.ofList (unclosed (escaped o) (escaped n))

section CutOff
variable (o n : List Char)

theorem cutOff_toList : (cutOff o n).toList = unclosed (escaped o) (escaped n) :=
  String.toList_ofList

theorem printable_cutOff : ∀ c ∈ (cutOff o n).toList, Printable c := by
  rw [cutOff_toList]
  exact printable_unclosed

theorem unclosed_eq_concat : unclosed o n = (opening ++ (o ++ (middle ++ n))) ++ ['"'] := by
  simp [unclosed]

theorem json_cutOff : ∃ e, Json.parse (cutOff o n) = .error e := by
  apply json_of_quote (r := (cutOff o n).toList.tail) (printable_cutOff o n)
  · rw [cutOff_toList]
    rfl
  · rw [cutOff_toList, unclosed_eq_concat, List.getLast?_concat]

theorem json_requoted_cutOff : ∃ e, Json.parse (requoted (cutOff o n)) = .error e := by
  have hmap := requoted_toList (printable_cutOff o n)
  rw [cutOff_toList] at hmap
  apply json_of_quote (r := (requoted (cutOff o n)).toList.tail)
    (printable_requoted (printable_cutOff o n))
  · rw [hmap]
    rfl
  · rw [hmap, unclosed_eq_concat, List.map_append]
    exact List.getLast?_concat

end CutOff

def field (key : List Char) : Pattern :=
  spelled key (.seq (.many true (.char .blank)) (spelled [':'] (.seq (.many true (.char .blank))
    (spelled ['"'] (.seq (.group 1 (.many false (.alt (.char Diagnostic.unquoted)
      (.seq (.char (.literal '\\')) (.char (.literal '"')))))) (.char (.literal '"')))))))

private theorem oldField_eq : oldField = field "\"old\"".toList := by decide +kernel

theorem newField_eq : newField = field "\"new\"".toList := by decide +kernel

section Fields
variable {key text post : List Char} {s t : Cursor}

theorem matchAt_field (hs : s.rest = key ++ (':' :: ' ' :: '"' :: (text ++ '"' :: post)))
    (ht : '"' ∉ text) :
    ∃ m, (field key).matchAt false s = some m ∧ m.group 1 = String.ofList text := by
  have hgoes : ∃ t, (field key).Goes s t ∧ t.groups.lookup 1 = some (String.ofList text) := by
    refine ⟨_, goes_spelled hs <| (goes_many (w := []) rfl (by simp) ?_).seq <|
      goes_spelled (r := ' ' :: '"' :: (text ++ '"' :: post)) rfl <|
      (goes_many (w := [' ']) (r := '"' :: (text ++ '"' :: post)) rfl
        (List.forall_mem_singleton.mpr (by decide)) ?_).seq <|
      goes_spelled (r := text ++ '"' :: post) rfl <|
      goes_lazy rfl (Diagnostic.unquoted_of_not_mem ht) ht 1, rfl⟩
    · exact not_holds_head (w := [':']) (by decide) _
    · exact not_holds_head (w := ['"']) (by decide) _
  obtain ⟨t, hgoes, hgroup⟩ := hgoes
  refine ⟨_, hgoes.matchAt, ?_⟩
  rw [Found.group, Found.group?, hgroup, Option.getD_some]

theorem field_of_matches (h : (field key).Matches s t) :
    ∃ b z, (∀ c ∈ b, isBlank c = true) ∧ s.rest = key ++ (b ++ ':' :: z) := by
  obtain ⟨u, hu, v, hv, hm⟩ := matches_spelled h
  obtain ⟨b, hb, hr⟩ := matches_many_char.mp hv
  obtain ⟨w, hw, -⟩ := matches_spelled hm
  exact ⟨b, w.rest, hb, by rw [hu.rest, hr.rest, hw.rest]; rfl⟩

end Fields

/-- What is left of a text that is read from its written form up to the first quotation mark. -/
def recovered (cs : List Char) : String := unescaped (String.ofList (beforeQuote (escaped cs)))

section Search
variable (o n : List Char)

private theorem exists_post (cs r : List Char) :
    ∃ post, escaped cs ++ '"' :: r = beforeQuote (escaped cs) ++ '"' :: post := by
  obtain ⟨post, hcut, -⟩ := exists_beforeQuote (escaped cs)
  refine ⟨post ++ r, ?_⟩
  simpa using congrArg (· ++ r) hcut

theorem search_oldField : ∃ m, oldField.search (cutOff o n) = some m ∧
    m.group 1 = String.ofList (beforeQuote (escaped o)) := by
  obtain ⟨post, hpost⟩ := exists_post o (middle.tail ++ (escaped n ++ ['"']))
  have htext : unclosed (escaped o) (escaped n) = ['\x7b'] ++
      ("\"old\"".toList ++ (':' :: ' ' :: '"' :: (beforeQuote (escaped o) ++ '"' :: post))) := by
    rw [← hpost]
    rfl
  obtain ⟨m, hm, hgroup⟩ := matchAt_field (s := .between ['\x7b'] _) rfl
    (@quote_not_mem_beforeQuote (escaped o))
  refine ⟨m, ?_, hgroup⟩
  rw [oldField_eq]
  refine search_eq_some_of_first ((cutOff_toList o n).trans htext) hm fun x y t hxy ht => ?_
  obtain ⟨b, z, -, hy⟩ := field_of_matches ht
  change y = _ at hy
  cases x with
  | cons c x => exact Nat.succ_le_succ (Nat.zero_le _)
  | nil =>
    rw [cutOff_toList, htext, hy] at hxy
    exact absurd (List.cons.inj hxy).1 (by decide)

private theorem search_newField : ∃ m, newField.search (cutOff o n) = some m ∧
    m.group 1 = String.ofList (beforeQuote (escaped n)) := by
  obtain ⟨post, hpost⟩ := exists_post n []
  have htext : unclosed (escaped o) (escaped n) = (opening ++ (escaped o ++ ['"', ',', ' '])) ++
      ("\"new\"".toList ++ (':' :: ' ' :: '"' :: (beforeQuote (escaped n) ++ '"' :: post))) := by
    rw [← hpost]
    simp [unclosed, middle]
  obtain ⟨m, hm, hgroup⟩ := matchAt_field (s := .between _ _) rfl
    (@quote_not_mem_beforeQuote (escaped n))
  refine ⟨m, ?_, hgroup⟩
  rw [newField_eq]
  refine search_eq_some_of_first ((cutOff_toList o n).trans htext) hm fun x y t hxy ht => ?_
  obtain ⟨b, z, hb, hy⟩ := field_of_matches ht
  change y = _ at hy
  rw [cutOff_toList] at hxy
  have hkey : unclosed (escaped o) (escaped n) =
      (x ++ ['"', 'n', 'e']) ++ 'w' :: '"' :: (b ++ ':' :: z) := by
    rw [hxy, hy]
    simp
  rcases after_key hkey with hB | hB | ⟨C, hC⟩
  · -- at the closing quote of the old text a comma follows
    exact absurd (List.cons.inj (eq_of_blank_append hb rfl hB)).1 (by decide)
  · have hlength := congrArg List.length (htext.symm.trans hkey)
    rw [hB, ← hpost, List.length_append, List.length_append] at hlength
    simp only [List.length_append, List.length_cons, List.length_nil] at hlength ⊢
    change _ + (5 + _) = _ at hlength
    omega
  · have hlength := congrArg List.length hC
    simp at hlength
    omega

private theorem fields_cutOff :
    fields? (cutOff o n) = some (.replacement (recovered o) (recovered n)) := by
  obtain ⟨a, ha, hold⟩ := search_oldField o n
  obtain ⟨b, hb, hnew⟩ := search_newField o n
  rw [fields?, ha, hb, recovered, recovered, ← hold, ← hnew]

theorem parse_cutOff :
    parse? (cutOff o n) = some (.replacement (recovered o) (recovered n)) := by
  obtain ⟨e, he⟩ := json_cutOff o n
  obtain ⟨f, hf⟩ := json_requoted_cutOff o n
  have hne : (cutOff o n).isEmpty = false := by
    rw [Bool.eq_false_iff, ne_eq, String.isEmpty_iff, ← String.toList_inj, cutOff_toList]
    simp [unclosed, opening]
  have hliteral : Literal.parse? (cutOff o n) = none := Literal.parse_unclosed o n
  rw [parse?, hne, parseDirect?, he]
  simp only [hf, hliteral, fields_cutOff]
  rfl

end Search

section Recovery
variable {cs : List Char}

private theorem unescaped_toList (s : String) : (unescaped s).toList =
    replaceChars ['\\', 'n'] ['\n'] 0 (replaceChars ['\\', '"'] ['"'] 0 s.toList) := by
  rw [unescaped, replace_toList (by decide), replace_toList (by decide)]
  rfl

/-- Up to the first quotation mark no escape of one is left, so line feeds are all that is taken
back. -/
theorem recovered_toList (cs : List Char) :
    (recovered cs).toList = replaceChars ['\\', 'n'] ['\n'] 0 (beforeQuote (escaped cs)) := by
  have hnone : ¬ ['\\', '"'] <:+: beforeQuote (escaped cs) :=
    fun h => quote_not_mem_beforeQuote (h.subset (by decide))
  rw [recovered, unescaped_toList, String.toList_ofList, replaceChars_eq_self hnone]

private theorem eq_quote_of_charText {c : Char} {ds : List Char}
    (h : (charText c).toList = '\\' :: '"' :: ds) : c = '"' := by
  have hunit {n : Nat} (hn : n < 65536) {r : List Char}
      (he : (charText c).toList = (unitEscape n).toList ++ r) : False := by
    rw [unitEscape_eq hn] at he
    exact absurd (List.cons.inj (List.cons.inj (he.symm.trans h)).2).1 (by decide)
  cases writing c with
  | plain hp he => exact absurd (List.cons.inj (he.symm.trans h)).2 (List.cons_ne_nil _ _).symm
  | short d hd hs he =>
    obtain rfl : d = '"' := (List.cons.inj (List.cons.inj (he.symm.trans h)).2).1
    exact (Option.some.inj hs).symm
  | unit hu hp he => exact (hunit hu (he.trans (List.append_nil _).symm)).elim
  | pair hp he =>
    have hlt := toNat_lt c
    exact (hunit (by omega) he).elim

theorem quote_not_mem_escaped (h : '"' ∉ cs) : '"' ∉ escaped cs := by
  intro hm
  obtain ⟨c, hc, hmem⟩ := List.mem_flatMap.mp hm
  have hinner : ¬ Inner '"' := by decide
  rcases charText_shape c with ⟨hp, he⟩ | ⟨-, d, ds, he, -, hds⟩
  · rw [he, List.mem_singleton] at hmem
    exact hp.2.2.1 hmem.symm
  · rw [he, List.mem_cons, List.mem_cons] at hmem
    rcases hmem with hmem | rfl | hmem
    · exact absurd hmem (by decide)
    · exact h (eq_quote_of_charText he ▸ hc)
    · exact hinner (hds _ hmem)

private theorem length_escaped_ge (cs : List Char) :
    cs.length + cs.count '\n' + cs.countP (fun c => ¬ (Plain c ∨ c = '\n')) ≤
      (escaped cs).length := by
  induction cs with
  | nil => simp
  | cons c cs ih =>
    have hchar : 1 + [c].count '\n' + [c].countP (fun c => ¬ (Plain c ∨ c = '\n')) ≤
        (charText c).toList.length := by
      by_cases hn : c = '\n'
      · rw [hn]
        decide
      rcases charText_shape c with ⟨hp, he⟩ | ⟨hp, d, ds, he, -⟩
      · simp [he, hp, hn]
      · simp [he, hp, hn]
    rw [escaped_cons, List.length_append, List.length_cons, List.count_cons, List.countP_cons]
    rw [List.count_singleton, List.countP_singleton] at hchar
    omega

private theorem recovered_of_plain (h : ∀ c ∈ cs, Plain c ∨ c = '\n') :
    recovered cs = String.ofList cs := by
  have hquote : '"' ∉ cs := fun hm => absurd (h _ hm) (by decide)
  have hplain {c : Char} (hc : c ∈ cs) (hn : c ≠ '\n') : Plain c := (h c hc).resolve_right hn
  have hfeeds : replaceChars ['\\', 'n'] ['\n'] 0 (escaped cs) =
      cs.flatMap fun c => if c = '\n' then ['\n'] else (charText c).toList := by
    apply replaceChars_flatMap (f := fun c => (charText c).toList) (by decide)
    intro c hc hn
    rw [(hplain hc hn).charText]
    exact replaceChars_cons_of_ne (hplain hc hn).2.2.2
  have hall : (cs.flatMap fun c => if c = '\n' then ['\n'] else (charText c).toList) = cs := by
    conv_rhs => rw [← List.flatMap_singleton' cs]
    apply List.flatMap_congr
    intro c hc
    split
    · rename_i hn
      rw [hn]
    · rename_i hn
      exact (hplain hc hn).charText
  rw [← String.toList_inj, recovered_toList, beforeQuote_eq_self (quote_not_mem_escaped hquote),
    hfeeds, hall, String.toList_ofList]

/-- A text whose written form is read up to its first quotation mark comes back just if it has
nothing but line feeds escaped. -/
private theorem recovered_eq_iff (cs : List Char) :
    recovered cs = String.ofList cs ↔ ∀ c ∈ cs, Plain c ∨ c = '\n' := by
  refine ⟨fun h => ?_, recovered_of_plain⟩
  rw [← String.toList_inj, recovered_toList, String.toList_ofList] at h
  have hmerge := merges_replaceChars '\\' 'n' '\n' (beforeQuote (escaped cs))
  rw [h] at hmerge
  have hquote : '"' ∉ cs := by
    rw [← List.count_eq_zero, hmerge.count_eq (by decide) (by decide) (by decide),
      List.count_eq_zero]
    exact quote_not_mem_beforeQuote
  rw [beforeQuote_eq_self (quote_not_mem_escaped hquote)] at hmerge
  -- what was added to the length was added for line feeds alone
  have hfeed : (escaped cs).count '\n' = 0 := List.count_eq_zero.mpr fun hm =>
    absurd (printable_escaped hm) (by decide)
  have hlength := hmerge.length_eq (by decide) (by decide)
  have hge := length_escaped_ge cs
  have hnone : cs.countP (fun c => ¬ (Plain c ∨ c = '\n')) = 0 := by omega
  intro c hc
  exact of_not_not fun hn => List.countP_eq_zero.mp hnone c hc (decide_eq_true hn)

end Recovery

/-- A replacement that lacks its closing brace leads to what is left of its two texts, and to the
texts themselves just if these have nothing escaped but line feeds. -/
theorem replacement_recovered_iff (old new : String) :
    parse? (upTo (-1) (render (.replacement old new))) =
      some (.replacement (recovered old.toList) (recovered new.toList)) ∧
    (parse? (upTo (-1) (render (.replacement old new))) = some (.replacement old new) ↔
      ∀ c ∈ old.toList ++ new.toList, Plain c ∨ c = '\n') := by
  have htext : upTo (-1) (render (.replacement old new)) = cutOff old.toList new.toList :=
    upTo_concat ((render_replacement old new).trans (frame_eq_unclosed ..))
  have hsame : some (Datum.replacement (recovered old.toList) (recovered new.toList)) =
      some (.replacement old new) ↔ recovered old.toList = old ∧ recovered new.toList = new := by
    simp [Datum.replacement]
  have hiff (s : String) : recovered s.toList = s ↔ ∀ c ∈ s.toList, Plain c ∨ c = '\n' := by
    rw [← recovered_eq_iff, String.ofList_toList]
  rw [htext, parse_cutOff, hsame, hiff, hiff, List.forall_mem_append]
  exact ⟨rfl, Iff.rfl⟩

/-- A line feed comes back; a quotation mark ends its text, and the backslash before it stays. -/
theorem unclosed_quote_lost :
    parse? (upTo (-1) (render (.replacement "a\nb" "c"))) = some (.replacement "a\nb" "c") ∧
    upTo (-1) (render (.replacement "a\"b" "c")) = "\x7b\"old\": \"a\\\"b\", \"new\": \"c\"" ∧
    parse? (upTo (-1) (render (.replacement "a\"b" "c"))) = some (.replacement "a\\" "c") := by
  have hold : recovered "a\"b".toList = "a\\" := by decide
  have hnew : recovered "c".toList = "c" := by decide
  refine ⟨(replacement_recovered_iff _ _).2.mpr (forall_mem_of_all (by decide)), by decide, ?_⟩
  rw [(replacement_recovered_iff _ _).1, hold, hnew]

end Mender.Answer
