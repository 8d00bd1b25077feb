import Mathlib.Data.List.Forall2
import Mender.Proofs.NumberText
import Mender.Proofs.Storable

/-! Data as a line of JSON. What is read from JSON is written on one line, and this line is read
again: a number may come back as another one and halves of pairs may be joined, but all else comes
back as it was. -/
namespace Mender.Json
open Text Number

/-- The second datum is what the first one comes back as. -/
inductive Back : Datum → Datum → Prop
  | null : Back .null .null
  | bool (b : Bool) : Back (.bool b) (.bool b)
  | int (i : Int) : Back (.int i) (.int i)
  | float (x y : Float) : Back (.float x) (.float y)
  | text (s : String) : Back (.text s) (.text s)
  | torn (ns ms : List Nat) : Back (.torn ns) (.ofCodes ms)
  | list {xs ys : List Datum} (h : List.Forall₂ Back xs ys) : Back (.list xs) (.list ys)
  | dict {es fs : List (Datum × Datum)}
      (hk : List.Forall₂ Back (es.map (·.1)) (fs.map (·.1)))
      (hv : List.Forall₂ Back (es.map (·.2)) (fs.map (·.2))) : Back (.dict es) (.ofEntries fs)

def Ended (r : List Char) : Prop := ∀ c ∈ r.head?, c = ',' ∨ c = ']' ∨ c = '\x7d'

private theorem ended_cons {c : Char} {r : List Char} (h : c = ',' ∨ c = ']' ∨ c = '\x7d') :
    Ended (c :: r) := fun _ hd => Option.some.inj hd ▸ h

section Numbers
variable {pos : Nat} {ds fs ex r cs : List Char}

private def Continues (c : Char) : Prop := c.isDigit = true ∨ c = '.' ∨ c = 'e' ∨ c = 'E'

private theorem Ended.not_continues {c : Char} (h : Ended (c :: cs)) : ¬ Continues c := by
  rcases h c rfl with rfl | rfl | rfl <;> simp [Continues]

private theorem head_of_ended (hr : Ended r) : ∀ c ∈ r.head?, c.isDigit = false := by
  intro c hc
  rcases hr c hc with rfl | rfl | rfl <;> rfl

private theorem leadingDigits_append (hd : ∀ c ∈ ds, c.isDigit = true)
    (hr : ∀ c ∈ r.head?, c.isDigit = false) : leadingDigits (ds ++ r) = ds := by
  rw [leadingDigits, List.takeWhile_append_of_pos hd]
  cases r with
  | nil => rw [List.takeWhile_nil, List.append_nil]
  | cons c r => rw [List.takeWhile_cons_of_neg (by simp [hr c rfl]), List.append_nil]

private theorem wholeDigits_append (hd : Whole ds) (hr : ∀ c ∈ r.head?, c.isDigit = false) :
    wholeDigits (ds ++ r) = ds := by
  cases hd with
  | zero => rfl
  | @digits c cs h hc =>
    have hw : wholeDigits (c :: cs ++ r) = leadingDigits (c :: cs ++ r) := by
      unfold wholeDigits
      split
      · rename_i he
        exact absurd (List.cons.inj he).1 hc
      · rfl
    rw [hw, leadingDigits_append h.digit hr]

private theorem readNumber_digit {c : Char} (h : c ≠ '-') :
    readNumber ⟨pos, c :: cs⟩ = numberFrom ⟨pos, c :: cs⟩ false (c :: cs) := by
  rw [readNumber]
  split
  · rename_i hc
    exact absurd (List.cons.inj hc).1 h
  · rfl

private def signText (negative : Bool) : List Char := if negative then ['-'] else []

private theorem readNumber_signed (pos : Nat) (negative : Bool) (hd : Whole ds) (r : List Char) :
    readNumber ⟨pos, signText negative ++ (ds ++ r)⟩ =
      numberFrom ⟨pos, signText negative ++ (ds ++ r)⟩ negative (ds ++ r) := by
  cases negative with
  | true => rfl
  | false =>
    obtain ⟨c, cs, rfl⟩ := List.exists_cons_of_ne_nil hd.toDigits_digits.ne_nil
    refine readNumber_digit ?_
    rintro rfl
    exact absurd (hd.toDigits_digits.digit '-' List.mem_cons_self) (by decide)

private theorem skip_append (pre r : List Char) {n : Nat} (h : n = pre.length) :
    Place.skip ⟨pos, pre ++ r⟩ n = ⟨pos + n, r⟩ := by
  rw [Place.skip, h, List.drop_left]

private theorem exponentPart_ended (hr : Ended r) : exponentPart r = none := by
  cases r with
  | nil => rfl
  | cons c r =>
    have hc := hr.not_continues
    have h1 : (c == 'e') = false := beq_eq_false_iff_ne.mpr fun h => hc (.inr (.inr (.inl h)))
    have h2 : (c == 'E') = false := beq_eq_false_iff_ne.mpr fun h => hc (.inr (.inr (.inr h)))
    simp [exponentPart, h1, h2]

private theorem exponentPart_append (he : Exponent ex) (hne : ex ≠ []) (hr : Ended r) :
    ∃ e, exponentPart (ex ++ r) = some (ex.length, e) := by
  cases he with
  | none => exact absurd rfl hne
  | @some s es hs h =>
    have hl : leadingDigits (es ++ r) = es := leadingDigits_append h.digit (head_of_ended hr)
    have hes : es.isEmpty = false := by simpa using h.ne_nil
    rcases hs with rfl | rfl
    · refine ⟨(digitsValue es : Int), ?_⟩
      simp [exponentPart, hl, hes]
      omega
    · refine ⟨-(digitsValue es : Int), ?_⟩
      simp [exponentPart, hl, hes]
      omega

private theorem fractionDigits_ended (hr : Ended r) : fractionDigits r = [] := by
  cases r with
  | nil => rfl
  | cons c r =>
    unfold fractionDigits
    split
    · rename_i he
      obtain ⟨rfl, -⟩ := List.cons.inj he
      exact absurd (.inr (.inl rfl)) hr.not_continues
    · rfl

private theorem toString_toList (i : Int) :
    (toString i).toList = signText (decide (i < 0)) ++ Nat.toDigits 10 i.natAbs := by
  cases i with
  | ofNat n => exact String.toList_ofList
  | negSucc n =>
    have h : toString (Int.negSucc n) = "-" ++ (n + 1).repr := rfl
    have hn : ((n + 1).repr).toList = Nat.toDigits 10 (n + 1) := String.toList_ofList
    rw [h, String.toList_append, hn, signText, decide_eq_true (Int.negSucc_lt_zero n), if_pos rfl]
    rfl

theorem readNumber_int (pos : Nat) (i : Int) (hi : Legible i) (hr : Ended r) :
    ∃ n, readNumber ⟨pos, (toString i).toList ++ r⟩ = .ok (.int i, ⟨pos + n, r⟩) := by
  have htext := toString_toList i
  generalize hneg : decide (i < 0) = negative at htext
  have hw := whole_toDigits i.natAbs
  have hne : (Nat.toDigits 10 i.natAbs).isEmpty = false := by simp
  have hvalue : (if negative then -(digitsValue (Nat.toDigits 10 i.natAbs) : Int)
      else digitsValue (Nat.toDigits 10 i.natAbs)) = i := by
    rw [digitsValue_toDigits]
    subst hneg
    by_cases h : i < 0
    · simp only [h, decide_true, if_true]
      omega
    · simp only [h, decide_false, Bool.false_eq_true, if_false]
      omega
  rw [htext, List.append_assoc, readNumber_signed pos negative hw, numberFrom,
    wholeDigits_append hw (head_of_ended hr)]
  simp only [hne, Bool.false_eq_true, if_false, List.drop_left, fractionDigits_ended hr,
    List.isEmpty_nil, if_true, exponentPart_ended hr, Option.isNone_none, Bool.and_self,
    if_pos (show (Nat.toDigits 10 i.natAbs).length ≤ 4300 from hi), hvalue]
  rw [← List.append_assoc]
  refine ⟨_, congrArg (fun q => Except.ok (Datum.int i, q)) (skip_append _ r ?_)⟩
  rw [List.length_append]
  cases negative <;> rfl

theorem readNumber_fractional (pos : Nat) (negative : Bool) (h : Fractional cs)
    (hr : Ended r) : ∃ x n, readNumber ⟨pos, (if negative then ['-'] else []) ++ (cs ++ r)⟩ =
      .ok (.float x, ⟨pos + n, r⟩) := by
  cases h with
  | @mk ds fs ex hd hf he hne =>
    have hds : ds.isEmpty = false := by simpa using hd.toDigits_digits.ne_nil
    have hexdigit : ∀ c ∈ (ex ++ r).head?, c.isDigit = false := by
      cases he with
      | none => exact head_of_ended hr
      | some hs h =>
        intro c hc
        cases hc
        rfl
    have hfrac : fractionDigits (pointed fs ++ (ex ++ r)) = fs := by
      unfold pointed
      split
      · rename_i hfs
        rw [List.isEmpty_iff.mp hfs, List.nil_append]
        cases he with
        | none => exact fractionDigits_ended hr
        | some hs h => rfl
      · exact leadingDigits_append hf hexdigit
    have hwhole : wholeDigits (ds ++ (pointed fs ++ (ex ++ r))) = ds := by
      refine wholeDigits_append hd fun c hc => ?_
      unfold pointed at hc
      split at hc
      · exact hexdigit c hc
      · cases hc
        rfl
    have hafter : (if fs.isEmpty then pointed fs ++ (ex ++ r)
        else (pointed fs ++ (ex ++ r)).drop (fs.length + 1)) = ex ++ r := by
      unfold pointed
      split
      · rfl
      · exact List.drop_left
    have hsize : (pointed fs).length = if fs.isEmpty then 0 else fs.length + 1 := by
      unfold pointed
      split <;> rfl
    have hexp : ((exponentPart (ex ++ r)).map (·.1)).getD 0 = ex.length ∧
        (fs.isEmpty && (exponentPart (ex ++ r)).isNone) = false := by
      by_cases hex : ex = []
      · subst hex
        rw [List.nil_append, exponentPart_ended hr]
        have hfs : fs ≠ [] := hne.resolve_right (by simp)
        exact ⟨rfl, by simpa using hfs⟩
      · obtain ⟨e, hep⟩ := exponentPart_append he hex hr
        rw [hep]
        exact ⟨rfl, by simp⟩
    have hnum := readNumber_signed pos negative hd (pointed fs ++ (ex ++ r))
    rw [signText] at hnum
    rw [List.append_assoc, List.append_assoc, hnum, numberFrom, hwhole]
    simp only [hds, Bool.false_eq_true, if_false, List.drop_left, hfrac, hafter, hexp.1, hexp.2]
    rw [← List.append_assoc, ← List.append_assoc, ← List.append_assoc]
    refine ⟨_, _, congrArg (fun q => Except.ok (Datum.float _, q)) (skip_append _ r ?_)⟩
    rw [List.length_append, List.length_append, List.length_append, hsize]
    cases negative <;> rfl

end Numbers

section Codes
variable {start fuel pos : Nat} {acc ns : List Nat} {r : List Char}

def escapedCodes (ns : List Nat) : List Char := ns.flatMap fun n => (codeText n).toList

private theorem escapedCodes_cons (n : Nat) (ns : List Nat) :
    escapedCodes (n :: ns) = (codeText n).toList ++ escapedCodes ns := rfl

private theorem code_cases {n : Nat} (h : n < 0x110000) :
    (∃ c : Char, c.toNat = n ∧ codeText n = charText c) ∨
      (0xd800 ≤ n ∧ n < 0xe000) ∧ codeText n = unitEscape n := by
  by_cases hv : n.isValidChar
  · refine .inl ⟨Char.ofNat n, ?_, if_pos hv⟩
    rw [Char.ofNat, dif_pos hv]
    rfl
  · refine .inr ⟨?_, if_neg hv⟩
    simp only [Nat.isValidChar] at hv
    omega

private theorem lowUnit_escape {m : Nat} {rest : List Char} (hm : m < 65536) (hr : rest ≠ []) :
    lowUnit ((unitEscape m).toList ++ rest) =
      .ok (if 0xdc00 ≤ m ∧ m < 0xe000 then some m else none) := by
  obtain ⟨x, rest, rfl⟩ := List.exists_cons_of_ne_nil hr
  rw [unitEscape_eq hm]
  simp only [List.cons_append, List.nil_append, lowUnit, hexDigits_unitEscape hm]

private theorem lowUnit_codes (h : AreCodes ns) :
    lowUnit (escapedCodes ns ++ '"' :: r) = .ok none ∨ ∃ low ms, ns = low :: ms ∧
      (0xdc00 ≤ low ∧ low < 0xe000) ∧ codeText low = unitEscape low ∧
      lowUnit (escapedCodes ns ++ '"' :: r) = .ok (some low) := by
  cases ns with
  | nil => exact .inl rfl
  | cons m ms =>
    have hrest : escapedCodes ms ++ '"' :: r ≠ [] := by simp
    rw [escapedCodes_cons, List.append_assoc]
    rcases code_cases (h m List.mem_cons_self) with ⟨c, hc, ht⟩ | ⟨hs, ht⟩
    · have hlt := toNat_lt c
      rw [ht]
      refine .inl ?_
      cases writing c with
      | plain hp he =>
        rw [he]
        unfold lowUnit
        split
        · rename_i hx
          exact absurd (List.cons.inj hx).1 hp.2.2.2
        · rfl
      | short d hd hs he =>
        rw [he]
        unfold lowUnit
        split
        · rename_i hx
          obtain ⟨rfl, -⟩ := List.cons.inj (List.cons.inj hx).2
          cases hs
        · rfl
      | unit hu hp he =>
        rw [he, lowUnit_escape hu hrest, if_neg]
        have hv := c.valid
        simp only [UInt32.isValidChar, Nat.isValidChar] at hv
        change ¬ (0xdc00 ≤ c.val.toNat ∧ c.val.toNat < 0xe000)
        omega
      | pair hu he =>
        rw [he, List.append_assoc, lowUnit_escape (by omega) (by simp), if_neg (by omega)]
    · rw [ht, lowUnit_escape (by omega) hrest]
      split
      · rename_i hl
        exact .inr ⟨m, ms, rfl, hl, ht, rfl⟩
      · exact .inl rfl

private theorem readString_half {n : Nat} {rest : List Char} (hr : rest ≠ [])
    (hn : 0xd800 ≤ n ∧ n < 0xdc00) (hl : lowUnit rest = .ok none) :
    readString start (fuel + 1) acc ⟨pos, (unitEscape n).toList ++ rest⟩ =
      readString start fuel (n :: acc) ⟨pos + 6, rest⟩ := by
  obtain ⟨x, rest, rfl⟩ := List.exists_cons_of_ne_nil hr
  have hu : n < 65536 := by omega
  rw [unitEscape_eq hu]
  simp only [List.cons_append, List.nil_append, readString, hexDigits_unitEscape hu, if_pos hn, hl]
  rfl

theorem readString_escapedCodes (start pos : Nat) (acc : List Nat) (r : List Char)
    (h : AreCodes ns) (hf : ns.length < fuel) : ∃ ms pos',
    readString start fuel acc ⟨pos, escapedCodes ns ++ '"' :: r⟩ =
      .ok (.ofCodes ms, ⟨pos', r⟩) := by
  -- along the fuel, since two codes may be taken up in one step
  induction fuel generalizing ns acc pos with
  | zero => exact absurd hf (Nat.not_lt_zero _)
  | succ fuel ih =>
    cases ns with
    | nil => exact ⟨acc.reverse, _, rfl⟩
    | cons n ns =>
      obtain ⟨hn, hns⟩ := List.forall_mem_cons.mp h
      have hlen : ns.length < fuel := Nat.lt_of_succ_lt_succ hf
      have hrest : escapedCodes ns ++ '"' :: r ≠ [] := by simp
      rw [escapedCodes_cons, List.append_assoc]
      rcases code_cases hn with ⟨c, -, ht⟩ | ⟨hs, ht⟩
      · rw [ht, readString_charText c hrest]
        exact ih _ _ hns hlen
      have hu : n < 65536 := by omega
      rw [ht]
      by_cases hhigh : 0xd800 ≤ n ∧ n < 0xdc00
      · rcases lowUnit_codes (r := r) hns with hl | ⟨low, ms, rfl, hlow, hlt, -⟩
        · rw [readString_half hrest hhigh hl]
          exact ih _ _ hns hlen
        · have hul : low < 65536 := by omega
          rw [escapedCodes_cons, hlt, unitEscape_eq hu, unitEscape_eq hul]
          simp only [List.cons_append, List.nil_append]
          rw [readString_pair (by simp) (hexDigits_unitEscape hu) hhigh (hexDigits_unitEscape hul)
            hlow]
          exact ih _ _ (List.forall_mem_cons.mp hns).2 (Nat.lt_of_succ_lt hlen)
      · rw [unitEscape_eq hu]
        simp only [List.cons_append, List.nil_append]
        rw [readString_unit hrest (hexDigits_unitEscape hu) hhigh]
        exact ih _ _ hns hlen

private theorem length_le_escapedCodes (h : AreCodes ns) :
    ns.length ≤ (escapedCodes ns).length := by
  induction ns with
  | nil => exact Nat.zero_le _
  | cons n ns ih =>
    obtain ⟨hn, hns⟩ := List.forall_mem_cons.mp h
    have hpos : 0 < (codeText n).toList.length := by
      rcases code_cases hn with ⟨c, -, ht⟩ | ⟨hs, ht⟩ <;> rw [ht]
      · rcases charText_shape c with ⟨-, he⟩ | ⟨-, d, ds, he, -⟩ <;> simp [he]
      · simp [unitEscape_eq (show n < 65536 by omega)]
    have hlen := ih hns
    rw [escapedCodes_cons, List.length_append, List.length_cons]
    omega

private theorem codesText_toList (ns : List Nat) :
    (codesText ns).toList = '"' :: (escapedCodes ns ++ ['"']) := by
  simp [codesText, escapedCodes, String.toList_join, List.flatMap, Function.comp_def]

private theorem printable_escapedCodes {c : Char} (h : AreCodes ns) (hc : c ∈ escapedCodes ns) :
    Printable c := by
  obtain ⟨n, hn, hc⟩ := List.mem_flatMap.mp hc
  rcases code_cases (h n hn) with ⟨x, -, ht⟩ | ⟨hs, ht⟩ <;> rw [ht] at hc
  · have hx : c ∈ escaped [x] := by simpa [escaped] using hc
    exact printable_escaped hx
  · have hdigit : ∀ d < 16, Printable (Nat.digitChar d) := by decide
    rw [unitEscape_eq (by omega)] at hc
    simp only [List.mem_cons, List.not_mem_nil, or_false] at hc
    rcases hc with rfl | rfl | rfl | rfl | rfl | rfl
    · decide
    · decide
    all_goals exact hdigit _ (by omega)

theorem keyText_shape {k : Datum} (h : IsText k) :
    ∃ body, (keyText k).toList = '"' :: (body ++ ['"']) ∧ (∀ c ∈ body, Printable c) ∧
      ∀ (start fuel pos : Nat) (r : List Char), body.length < fuel → ∃ k' pos', Back k k' ∧
        readString start fuel [] ⟨pos, body ++ '"' :: r⟩ = .ok (k', ⟨pos', r⟩) := by
  cases k with
  | text s =>
    refine ⟨escaped s.toList, stringText_toList s, fun c hc => printable_escaped hc,
      fun start fuel pos r hf => ?_⟩
    have hl := length_le_escaped s.toList
    refine ⟨.text s, pos + (escaped s.toList).length + 1, .text s, ?_⟩
    rw [readString_escaped s.toList (by omega), String.ofList_toList]
  | torn ns =>
    refine ⟨escapedCodes ns, codesText_toList ns, fun c hc => printable_escapedCodes h hc,
      fun start fuel pos r hf => ?_⟩
    have hl := length_le_escapedCodes h
    obtain ⟨ms, pos', hr⟩ := readString_escapedCodes start pos [] r h (Nat.lt_of_le_of_lt hl hf)
    exact ⟨_, pos', .torn ns ms, hr⟩
  | _ => exact h.elim

end Codes

section Values
variable {depth fuel pos : Nat} {d : Datum} {r cs : List Char} {c : Char}

/-- A value as it is written is read as what it comes back as, if it ends there. -/
def ReadBack (depth : Nat) (d : Datum) : Prop :=
  ∀ (fuel pos : Nat) (r : List Char), (render d).toList.length ≤ fuel → Ended r →
    ∃ d' pos', Back d d' ∧
      readValue fuel depth ⟨pos, (render d).toList ++ r⟩ = .ok (d', ⟨pos', r⟩)

/-- A value as it is written begins with no blank and no closing bracket, and it stays on its
line. -/
structure Lined (cs : List Char) : Prop where
  head : ∃ c rest, cs = c :: rest ∧ isLayout c = false ∧ c ≠ ']'
  printable : ∀ c ∈ cs, Printable c

private theorem lined_enclosed {o c : Char} {cs : List Char} (hl : isLayout o = false)
    (hne : o ≠ ']') (ho : Printable o) (hc : Printable c) (h : ∀ x ∈ cs, Printable x) :
    Lined (o :: (cs ++ [c])) := by
  refine ⟨⟨o, _, rfl, hl, hne⟩, List.forall_mem_cons.mpr ⟨ho, fun x hx => ?_⟩⟩
  rcases List.mem_append.mp hx with hx | hx
  · exact h x hx
  · exact List.mem_singleton.mp hx ▸ hc

private theorem lined_of_quotes {body : List Char} (h : ∀ c ∈ body, Printable c) :
    Lined ('"' :: (body ++ ['"'])) :=
  lined_enclosed rfl (by decide) (by decide) (by decide) h

private theorem readValue_quotes {body : List Char} :
    readValue (fuel + 1) depth ⟨pos, '"' :: (body ++ '"' :: r)⟩ =
      readString pos ((body ++ '"' :: r).length + 2) [] ⟨pos + 1, body ++ '"' :: r⟩ := rfl

private theorem fuel_succ (hne : cs ≠ []) (hf : cs.length ≤ fuel) : ∃ n, fuel = n + 1 :=
  Nat.exists_eq_succ_of_ne_zero
    (Nat.ne_of_gt (Nat.lt_of_lt_of_le (List.length_pos_iff.mpr hne) hf))

private theorem readBack_text (h : IsText d) (hd : (render d).toList = (keyText d).toList) :
    ReadBack depth d ∧ Lined (render d).toList := by
  obtain ⟨body, hbody, hprint, hread⟩ := keyText_shape h
  rw [hd, hbody]
  refine ⟨fun fuel pos r hf hr => ?_, lined_of_quotes hprint⟩
  rw [hd, hbody] at hf ⊢
  obtain ⟨fuel, rfl⟩ := fuel_succ (List.cons_ne_nil _ _) hf
  obtain ⟨k', pos', hk, hs⟩ := hread pos ((body ++ '"' :: r).length + 2) (pos + 1) r
    (by simp; omega)
  refine ⟨k', pos', hk, ?_⟩
  rw [List.cons_append, List.append_assoc, List.singleton_append, readValue_quotes, hs]

private def Numeric (cs : List Char) : Prop :=
  ∃ negative ds, Digits ds ∧ ∃ more, cs = signText negative ++ (ds ++ more)

private theorem readValue_other (hq : c ≠ '"') (hb : c ≠ '\x7b')
    (hl : c ≠ '[') (hw : readWord? ⟨pos, c :: cs⟩ = none) :
    readValue (fuel + 1) depth ⟨pos, c :: cs⟩ = readNumber ⟨pos, c :: cs⟩ := by
  unfold readValue
  split
  · rename_i he
    cases he
  · rename_i he
    exact absurd (List.cons.inj he).1 hq
  · rename_i he
    exact absurd (List.cons.inj he).1 hb
  · rename_i he
    exact absurd (List.cons.inj he).1 hl
  · rw [hw]

private theorem readValue_numeric (h : Numeric cs) :
    readValue (fuel + 1) depth ⟨pos, cs⟩ = readNumber ⟨pos, cs⟩ := by
  obtain ⟨negative, ds, hd, more, rfl⟩ := h
  obtain ⟨c, ds, rfl⟩ := List.exists_cons_of_ne_nil hd.ne_nil
  have hc : c.isDigit = true := hd.digit c List.mem_cons_self
  have hne {x : Char} (hx : x.isDigit = false) : c ≠ x := by
    rintro rfl
    rw [hc] at hx
    cases hx
  have hword : readWord? ⟨pos, signText negative ++ (c :: ds ++ more)⟩ = none := by
    rw [readWord?, Option.map_eq_none_iff, List.find?_eq_none]
    intro w hw
    simp only [words, List.mem_cons, List.not_mem_nil, or_false] at hw
    cases negative <;> rcases hw with rfl | rfl | rfl | rfl | rfl | rfl <;> simp [signText] <;>
      rintro rfl <;> cases hc
  cases negative with
  | true => exact readValue_other (by decide) (by decide) (by decide) hword
  | false => exact readValue_other (hne rfl) (hne rfl) (hne rfl) hword

private theorem printable_digit (h : c.isDigit = true) : Printable c :=
  Inner.printable (.inr (by rw [Char.isAlphanum, h, Bool.or_true]))

private theorem printable_signed {negative : Bool} (h : ∀ c ∈ cs, Printable c) :
    ∀ c ∈ signText negative ++ cs, Printable c := by
  cases negative with
  | true => exact List.forall_mem_cons.mpr ⟨by decide, h⟩
  | false => exact h

private theorem solid_of_digit (h : c.isDigit = true) : isLayout c = false ∧ c ≠ ']' := by
  refine ⟨?_, by rintro rfl; cases h⟩
  rw [← Bool.not_eq_true, isLayout]
  simp only [Bool.or_eq_true, beq_iff_eq, not_or]
  refine ⟨⟨⟨?_, ?_⟩, ?_⟩, ?_⟩ <;> rintro rfl <;> cases h

private theorem lined_of_numeric (h : Numeric cs) (hp : ∀ c ∈ cs, Printable c) : Lined cs := by
  refine ⟨?_, hp⟩
  obtain ⟨negative, ds, hd, more, rfl⟩ := h
  obtain ⟨c, ds, rfl⟩ := List.exists_cons_of_ne_nil hd.ne_nil
  cases negative with
  | true => exact ⟨'-', _, rfl, rfl, by decide⟩
  | false => exact ⟨c, _, rfl, solid_of_digit (hd.digit c List.mem_cons_self)⟩

theorem Lined.ne_nil (h : Lined cs) : cs ≠ [] := by
  obtain ⟨c, rest, rfl, -⟩ := h.head
  exact List.cons_ne_nil c rest

private theorem readBack_int (i : Int) (h : Legible i) :
    ReadBack depth (.int i) ∧ Lined (render (.int i)).toList := by
  have hd := digits_toDigits i.natAbs
  have hrender : (render (.int i)).toList =
      signText (decide (i < 0)) ++ Nat.toDigits 10 i.natAbs := toString_toList i
  have hlined : Lined (render (.int i)).toList := by
    rw [hrender]
    exact lined_of_numeric ⟨_, _, hd, [], by rw [List.append_nil]⟩
      (printable_signed fun c hc => printable_digit (hd.digit c hc))
  refine ⟨fun fuel pos r hf hr => ?_, hlined⟩
  obtain ⟨fuel, rfl⟩ := fuel_succ hlined.ne_nil hf
  obtain ⟨n, hn⟩ := readNumber_int pos i h hr
  refine ⟨_, pos + n, .int i, ?_⟩
  rw [hrender, readValue_numeric ⟨_, _, hd, r, List.append_assoc ..⟩, ← toString_toList, hn]

private theorem Fractional.digits (h : Fractional cs) :
    (∃ ds more, Digits ds ∧ cs = ds ++ more) ∧ ∀ c ∈ cs, Printable c := by
  cases h with
  | @mk ds fs ex hd hf he hne =>
    refine ⟨⟨ds, _, hd.toDigits_digits, rfl⟩, fun c hc => ?_⟩
    rcases List.mem_append.mp hc with hc | hc
    · exact printable_digit (hd.toDigits_digits.digit c hc)
    rcases List.mem_append.mp hc with hc | hc
    · unfold pointed at hc
      split at hc
      · cases hc
      · rcases List.mem_cons.mp hc with rfl | hc
        · decide
        · exact printable_digit (hf c hc)
    · cases he with
      | none => cases hc
      | some hs hd =>
        rcases List.mem_cons.mp hc with rfl | hc
        · decide
        · rcases List.mem_cons.mp hc with rfl | hc
          · rcases hs with rfl | rfl <;> decide
          · exact printable_digit (hd.digit c hc)

private theorem floatText_cases (x : Float) :
    floatText x = "NaN" ∨ floatText x = "Infinity" ∨ floatText x = "-Infinity" ∨
      ∃ negative cs, Fractional cs ∧ (floatText x).toList = signText negative ++ cs := by
  unfold floatText
  split
  · exact .inl rfl
  rename_i hnan
  split
  · split
    · exact .inr (.inr (.inl rfl))
    · exact .inr (.inl rfl)
  rename_i hinf
  refine .inr (.inr (.inr ?_))
  cases hb : Binary.ofFloat? x with
  | none =>
    rcases isNaN_or_isInf hb with h | h
    · exact absurd h hnan
    · exact absurd h hinf
  | some b =>
    have hsign : (if b.negative then "-" else "").toList = signText b.negative := by
      cases b.negative <;> rfl
    rw [Number.floatText, hb]
    dsimp only
    rw [String.toList_append, hsign]
    split
    · have hzero : Fractional (['0'] ++ (pointed ['0'] ++ [])) :=
        .mk .zero (by simp) .none (.inl (by simp))
      exact ⟨_, _, hzero, rfl⟩
    · exact ⟨_, _, Decimal.fractional_text b.shortest_digits, rfl⟩

private theorem readBack_word {w : String × Datum} (hw : w ∈ words)
    (hd : (render d).toList = w.1.toList) (hb : Back d w.2) :
    ReadBack depth d ∧ Lined (render d).toList := by
  have hread (fuel pos : Nat) (r : List Char) :
      readValue (fuel + 1) depth ⟨pos, w.1.toList ++ r⟩ =
        .ok (w.2, ⟨pos + w.1.toList.length, r⟩) := by
    simp only [words, List.mem_cons, List.not_mem_nil, or_false] at hw
    rcases hw with rfl | rfl | rfl | rfl | rfl | rfl <;> rfl
  have hlined : Lined w.1.toList := by
    simp only [words, List.mem_cons, List.not_mem_nil, or_false] at hw
    rcases hw with rfl | rfl | rfl | rfl | rfl | rfl <;>
      exact ⟨⟨_, _, rfl, by decide, by decide⟩, forall_mem_of_all (by decide)⟩
  refine ⟨fun fuel pos r hf hr => ?_, hd ▸ hlined⟩
  obtain ⟨fuel, rfl⟩ := fuel_succ (hd ▸ hlined.ne_nil) hf
  exact ⟨w.2, _, hb, hd ▸ hread fuel pos r⟩

private theorem readBack_null : ReadBack depth .null ∧ Lined (render .null).toList :=
  readBack_word (w := ("null", .null)) (by simp [words]) rfl .null

private theorem readBack_bool (b : Bool) :
    ReadBack depth (.bool b) ∧ Lined (render (.bool b)).toList := by
  cases b with
  | true => exact readBack_word (w := ("true", .bool true)) (by simp [words]) rfl (.bool _)
  | false => exact readBack_word (w := ("false", .bool false)) (by simp [words]) rfl (.bool _)

private theorem readBack_float (x : Float) :
    ReadBack depth (.float x) ∧ Lined (render (.float x)).toList := by
  have hrender : render (.float x) = floatText x := by rw [render]
  rcases floatText_cases x with h | h | h | ⟨negative, cs, hcs, h⟩
  · exact readBack_word (w := ("NaN", .float (0.0 / 0.0))) (by simp [words])
      (by rw [hrender, h]) (.float _ _)
  · exact readBack_word (w := ("Infinity", .float (1.0 / 0.0))) (by simp [words])
      (by rw [hrender, h]) (.float _ _)
  · exact readBack_word (w := ("-Infinity", .float (-1.0 / 0.0))) (by simp [words])
      (by rw [hrender, h]) (.float _ _)
  · obtain ⟨⟨ds, more, hd, rfl⟩, hprint⟩ := Fractional.digits hcs
    have hnumeric : Numeric (signText negative ++ (ds ++ more)) := ⟨negative, ds, hd, more, rfl⟩
    have hlined := lined_of_numeric hnumeric (printable_signed hprint)
    rw [hrender, h]
    refine ⟨fun fuel pos r hf hr => ?_, hlined⟩
    rw [hrender, h] at hf ⊢
    obtain ⟨fuel, rfl⟩ := fuel_succ hlined.ne_nil hf
    obtain ⟨y, n, hy⟩ := readNumber_fractional pos negative hcs hr
    refine ⟨_, pos + n, .float x y, ?_⟩
    rw [readValue_numeric ⟨negative, ds, hd, more ++ r, by simp⟩, List.append_assoc]
    exact hy

end Values

section Collections
variable {depth fuel pos : Nat} {r cs : List Char}

private def listed (pieces : List String) : List Char := (join ", " pieces).toList

private theorem listed_cons (p q : String) (ps : List String) :
    listed (p :: q :: ps) = p.toList ++ ',' :: ' ' :: listed (q :: ps) := by
  have h : join ", " (p :: q :: ps) = p ++ ", " ++ join ", " (q :: ps) :=
    String.intercalate_cons_cons
  rw [listed, h]
  simp [listed]

private theorem listed_single (p : String) : listed [p] = p.toList := by simp [listed, join]

private theorem listed_head {p : String} (ps : List String) {c : Char} {rest : List Char}
    (h : p.toList = c :: rest) : ∃ more, listed (p :: ps) = c :: more := by
  cases ps with
  | nil => exact ⟨rest, (listed_single p).trans h⟩
  | cons q ps =>
    rw [listed_cons, h]
    exact ⟨_, rfl⟩

private theorem printable_listed {pieces : List String}
    (h : ∀ p ∈ pieces, ∀ c ∈ p.toList, Printable c) : ∀ c ∈ listed pieces, Printable c := by
  induction pieces with
  | nil => simp [listed, join]
  | cons p ps ih =>
    obtain ⟨hp, hps⟩ := List.forall_mem_cons.mp h
    cases ps with
    | nil => rwa [listed_single]
    | cons q ps =>
      rw [listed_cons]
      intro c hc
      rcases List.mem_append.mp hc with hc | hc
      · exact hp c hc
      rcases List.mem_cons.mp hc with rfl | hc
      · decide
      rcases List.mem_cons.mp hc with rfl | hc
      · decide
      · exact ih hps c hc

theorem renderItems_eq (xs : List Datum) : renderItems xs = xs.map render := by
  induction xs with
  | nil => rfl
  | cons x xs ih => rw [renderItems, ih, List.map_cons]

def entryText (e : Datum × Datum) : String := keyText e.1 ++ ": " ++ render e.2

theorem renderEntries_eq (es : List (Datum × Datum)) : renderEntries es = es.map entryText := by
  induction es with
  | nil => rfl
  | cons e es ih => rw [renderEntries, ih, List.map_cons, entryText]

private theorem layout_lined (h : Lined cs) : Place.layout ⟨pos, cs ++ r⟩ = ⟨pos, cs ++ r⟩ ∧
      Place.layout ⟨pos, ' ' :: (cs ++ r)⟩ = ⟨pos + 1, cs ++ r⟩ := by
  obtain ⟨c, rest, rfl, hc, -⟩ := h.head
  exact ⟨layout_of_solid hc, layout_of_space hc⟩

private theorem readItems_item {y : Datum} {acc : List Datum} {pos' : Nat}
    (h : readValue fuel depth ⟨pos, cs⟩ = .ok (y, ⟨pos', ']' :: r⟩)) :
    readItems (fuel + 1) depth acc ⟨pos, cs⟩ = .ok (.list (y :: acc).reverse, ⟨pos' + 1, r⟩) := by
  simp only [readItems, h, layout_of_solid (show isLayout ']' = false from rfl)]
  rfl

private theorem readItems_comma {y : Datum} {acc : List Datum} {cs more : List Char} {pos' : Nat}
    (h : readValue fuel depth ⟨pos, cs⟩ = .ok (y, ⟨pos', ',' :: ' ' :: more⟩)) :
    readItems (fuel + 1) depth acc ⟨pos, cs⟩ =
      readItems fuel depth (y :: acc) (Place.layout ⟨pos' + 1, ' ' :: more⟩) := by
  simp only [readItems, h, layout_of_solid (show isLayout ',' = false from rfl)]
  rfl

private theorem readItems_listed (pos : Nat) {x : Datum} {xs : List Datum} (acc : List Datum)
    (h : ∀ y ∈ x :: xs, ReadBack depth y ∧ Lined (render y).toList)
    (hf : (listed ((x :: xs).map render)).length < fuel) : ∃ ys pos',
      List.Forall₂ Back (x :: xs) ys ∧
      readItems fuel depth acc ⟨pos, listed ((x :: xs).map render) ++ ']' :: r⟩ =
        .ok (.list (acc.reverse ++ ys), ⟨pos', r⟩) := by
  induction xs generalizing x acc fuel pos with
  | nil =>
    obtain ⟨hx, -⟩ := h x List.mem_cons_self
    rw [List.map_singleton, listed_single] at hf ⊢
    obtain ⟨fuel, rfl⟩ := Nat.exists_eq_succ_of_ne_zero (Nat.ne_zero_of_lt hf)
    obtain ⟨y, pos', hy, hread⟩ := hx fuel pos (']' :: r) (Nat.le_of_lt_succ hf)
      (ended_cons (.inr (.inl rfl)))
    refine ⟨[y], pos' + 1, .cons hy .nil, ?_⟩
    rw [readItems_item hread, List.reverse_cons]
  | cons z xs ih =>
    obtain ⟨hx, hrest⟩ := List.forall_mem_cons.mp h
    rw [List.map_cons, List.map_cons, listed_cons] at hf ⊢
    rw [List.length_append, List.length_cons, List.length_cons] at hf
    obtain ⟨fuel, rfl⟩ := Nat.exists_eq_succ_of_ne_zero (Nat.ne_zero_of_lt hf)
    rw [List.append_assoc, List.cons_append, List.cons_append]
    obtain ⟨y, pos', hy, hread⟩ := hx.1 fuel pos
      (',' :: ' ' :: (listed (render z :: xs.map render) ++ ']' :: r)) (by omega)
      (ended_cons (.inl rfl))
    rw [readItems_comma hread]
    -- the next item begins behind the blank
    have hlayout : Place.layout ⟨pos' + 1, ' ' :: (listed (render z :: xs.map render) ++ ']' :: r)⟩
        = ⟨pos' + 1 + 1, listed (render z :: xs.map render) ++ ']' :: r⟩ := by
      obtain ⟨c, rest, hc, hl, -⟩ := (hrest z List.mem_cons_self).2.head
      obtain ⟨more, hmore⟩ := listed_head (xs.map render) hc
      rw [hmore]
      exact layout_of_space hl
    rw [hlayout]
    have hlen : (listed ((z :: xs).map render)).length < fuel := by
      rw [List.map_cons]
      omega
    obtain ⟨ys, pos'', hys, hitems⟩ := ih (pos' + 1 + 1) (y :: acc) hrest hlen
    refine ⟨y :: ys, pos'', .cons hy hys, hitems.trans ?_⟩
    rw [List.reverse_cons, List.append_assoc, List.singleton_append]

private theorem entryText_head {e : Datum × Datum} (h : IsText e.1) :
    ∃ rest, (entryText e).toList = '"' :: rest := by
  obtain ⟨body, hbody, -⟩ := keyText_shape h
  rw [entryText, String.toList_append, String.toList_append, hbody]
  exact ⟨_, rfl⟩

private theorem readMembers_entry_back {e : Datum × Datum} (hkey : IsText e.1)
    (hvalue : ReadBack depth e.2) (hlined : Lined (render e.2).toList) (fuel pos : Nat)
    {more : List Char} (hf : (entryText e).toList.length ≤ fuel) (hmore : Ended more) :
    ∃ k v pos', Back e.1 k ∧ Back e.2 v ∧ ∀ acc r,
      (more = '\x7d' :: r →
        readMembers (fuel + 1) depth acc ⟨pos, (entryText e).toList ++ more⟩ =
          .ok (.ofEntries ((k, v) :: acc).reverse, ⟨pos' + 1, r⟩)) ∧
      (more = ',' :: r →
        readMembers (fuel + 1) depth acc ⟨pos, (entryText e).toList ++ more⟩ =
          readMembers fuel depth ((k, v) :: acc) (Place.layout ⟨pos' + 1, r⟩)) := by
  obtain ⟨body, hbody, -, hread⟩ := keyText_shape hkey
  generalize hbehind : ':' :: ' ' :: ((render e.2).toList ++ more) = behind
  have htext : (entryText e).toList ++ more = '"' :: (body ++ '"' :: behind) := by
    simp [entryText, hbody, ← hbehind]
  have hlen : (render e.2).toList.length ≤ (entryText e).toList.length := by
    simp [entryText, hbody]
    omega
  obtain ⟨k, q, hk, hks⟩ := hread pos (('"' :: (body ++ '"' :: behind)).length + 1) (pos + 1) behind
    (by simp; omega)
  obtain ⟨v, q', hv, hvs⟩ := hvalue fuel (q + 1 + 1) more (hlen.trans hf) hmore
  have hquote : Place.skip ⟨pos, '"' :: (body ++ '"' :: behind)⟩ 1 =
      ⟨pos + 1, body ++ '"' :: behind⟩ := rfl
  have hcolon : Place.skip ⟨q, ':' :: ' ' :: ((render e.2).toList ++ more)⟩ 1 =
      ⟨q + 1, ' ' :: ((render e.2).toList ++ more)⟩ := rfl
  refine ⟨k, v, q', hk, hv, fun acc r => ?_⟩
  rw [htext]
  simp only [readMembers, hquote, hks]
  simp only [← hbehind, layout_of_solid (show isLayout ':' = false from rfl), hcolon,
    (layout_lined hlined).2, hvs]
  constructor <;>
    · rintro rfl
      rw [layout_of_solid rfl]
      rfl

private theorem readMembers_listed (pos : Nat) {e : Datum × Datum} {es : List (Datum × Datum)}
    (acc : List (Datum × Datum))
    (h : ∀ f ∈ e :: es, IsText f.1 ∧ ReadBack depth f.2 ∧ Lined (render f.2).toList)
    (hf : (listed ((e :: es).map entryText)).length < fuel) : ∃ fs pos',
      List.Forall₂ Back ((e :: es).map (·.1)) (fs.map (·.1)) ∧
      List.Forall₂ Back ((e :: es).map (·.2)) (fs.map (·.2)) ∧
      readMembers fuel depth acc ⟨pos, listed ((e :: es).map entryText) ++ '\x7d' :: r⟩ =
        .ok (.ofEntries (acc.reverse ++ fs), ⟨pos', r⟩) := by
  induction es generalizing e acc fuel pos with
  | nil =>
    obtain ⟨hkey, hvalue, hlined⟩ := h e List.mem_cons_self
    have htext : listed ([e].map entryText) = (entryText e).toList := listed_single _
    rw [htext] at hf ⊢
    obtain ⟨fuel, rfl⟩ := Nat.exists_eq_succ_of_ne_zero (Nat.ne_zero_of_lt hf)
    obtain ⟨k, v, q, hk, hv, hread⟩ := readMembers_entry_back hkey hvalue hlined fuel pos
      (Nat.le_of_lt_succ hf) (ended_cons (r := r) (.inr (.inr rfl)))
    refine ⟨[(k, v)], q + 1, .cons hk .nil, .cons hv .nil, ?_⟩
    rw [(hread acc r).1 rfl, List.reverse_cons]
  | cons g es ih =>
    obtain ⟨⟨hkey, hvalue, hlined⟩, hrest⟩ := List.forall_mem_cons.mp h
    have htext : listed ((e :: g :: es).map entryText) =
        (entryText e).toList ++ ',' :: ' ' :: listed ((g :: es).map entryText) := listed_cons ..
    rw [htext, List.length_append, List.length_cons, List.length_cons] at hf
    obtain ⟨fuel, rfl⟩ := Nat.exists_eq_succ_of_ne_zero (Nat.ne_zero_of_lt hf)
    generalize hnext : listed ((g :: es).map entryText) ++ '\x7d' :: r = next
    obtain ⟨k, v, q, hk, hv, hread⟩ := readMembers_entry_back hkey hvalue hlined fuel pos
      (by omega) (ended_cons (r := ' ' :: next) (.inl rfl))
    have hlayout : Place.layout ⟨q + 1, ' ' :: next⟩ = ⟨q + 1 + 1, next⟩ := by
      obtain ⟨_, hquote⟩ := entryText_head (hrest g List.mem_cons_self).1
      obtain ⟨rest, hhead⟩ := listed_head (es.map entryText) hquote
      rw [← hnext, List.map_cons, hhead]
      exact layout_of_space rfl
    obtain ⟨fs, pos', hfk, hfv, hmembers⟩ := ih (q + 1 + 1) ((k, v) :: acc) hrest
      (show (listed ((g :: es).map entryText)).length < fuel by omega)
    refine ⟨(k, v) :: fs, pos', .cons hk hfk, .cons hv hfv, ?_⟩
    rw [htext, List.append_assoc, List.cons_append, List.cons_append, hnext,
      (hread acc (' ' :: next)).2 rfl, hlayout, ← hnext, hmembers, List.reverse_cons,
      List.append_assoc, List.singleton_append]

end Collections

section Storable
variable {depth : Nat} {d : Datum}

private theorem readBack_list {xs : List Datum}
    (h : ∀ x ∈ xs, ReadBack depth x ∧ Lined (render x).toList) :
    ReadBack (depth + 1) (.list xs) ∧ Lined (render (.list xs)).toList := by
  have htext : (render (.list xs)).toList = '[' :: (listed (xs.map render) ++ [']']) := by
    rw [render, renderItems_eq]
    simp [listed]
  have hprint : ∀ c ∈ listed (xs.map render), Printable c :=
    printable_listed (List.forall_mem_map.mpr fun x hx => (h x hx).2.printable)
  constructor
  · intro fuel pos r hf hr
    rw [htext] at hf ⊢
    rw [List.length_cons, List.length_append, List.length_singleton] at hf
    obtain ⟨fuel, rfl⟩ := Nat.exists_eq_succ_of_ne_zero (Nat.ne_zero_of_lt hf)
    rw [List.cons_append, List.append_assoc, List.singleton_append]
    cases xs with
    | nil => exact ⟨.list [], pos + 2, .list .nil, rfl⟩
    | cons x xs =>
      obtain ⟨ys, pos', hys, hread⟩ := readItems_listed (r := r) (pos + 1) [] h
        (show _ < fuel by omega)
      refine ⟨.list ys, pos', .list hys, ?_⟩
      obtain ⟨c, rest, hc, hl, hne⟩ := (h x List.mem_cons_self).2.head
      obtain ⟨more, hmore⟩ := listed_head (xs.map render) hc
      rw [List.map_cons, hmore] at hread ⊢
      refine Eq.trans ?_ hread
      have hskip : Place.skip ⟨pos, '[' :: (c :: more ++ ']' :: r)⟩ 1 =
          ⟨pos + 1, c :: (more ++ ']' :: r)⟩ := rfl
      simp only [readValue, hskip, layout_of_solid hl]
      split
      · rename_i he
        exact absurd (List.cons.inj he).1 hne
      · rfl
  · rw [htext]
    exact lined_enclosed rfl (by decide) (by decide) (by decide) hprint

private theorem printable_entryText {e : Datum × Datum} (hkey : IsText e.1)
    (hlined : Lined (render e.2).toList) : ∀ c ∈ (entryText e).toList, Printable c := by
  obtain ⟨body, hbody, hprint, -⟩ := keyText_shape hkey
  have hcolon : ∀ c ∈ (": ").toList, Printable c := forall_mem_of_all (by decide)
  intro c hc
  rw [entryText, String.toList_append, String.toList_append, hbody] at hc
  rcases List.mem_append.mp hc with hc | hc
  · rcases List.mem_append.mp hc with hc | hc
    · exact (lined_of_quotes hprint).printable c hc
    · exact hcolon c hc
  · exact hlined.printable c hc

private theorem readBack_dict {es : List (Datum × Datum)}
    (h : ∀ e ∈ es, IsText e.1 ∧ ReadBack depth e.2 ∧ Lined (render e.2).toList) :
    ReadBack (depth + 1) (.dict es) ∧ Lined (render (.dict es)).toList := by
  have htext : (render (.dict es)).toList = '\x7b' :: (listed (es.map entryText) ++ ['\x7d']) := by
    rw [render, renderEntries_eq]
    simp [listed]
  have hprint : ∀ c ∈ listed (es.map entryText), Printable c :=
    printable_listed (List.forall_mem_map.mpr fun e he =>
      printable_entryText (h e he).1 (h e he).2.2)
  constructor
  · intro fuel pos r hf hr
    rw [htext] at hf ⊢
    rw [List.length_cons, List.length_append, List.length_singleton] at hf
    obtain ⟨fuel, rfl⟩ := Nat.exists_eq_succ_of_ne_zero (Nat.ne_zero_of_lt hf)
    rw [List.cons_append, List.append_assoc, List.singleton_append]
    cases es with
    | nil => exact ⟨.ofEntries [], pos + 2, .dict .nil .nil, rfl⟩
    | cons e es =>
      obtain ⟨fs, pos', hk, hv, hread⟩ := readMembers_listed (r := r) (pos + 1) [] h
        (show _ < fuel by omega)
      refine ⟨.ofEntries fs, pos', .dict hk hv, ?_⟩
      obtain ⟨_, hquote⟩ := entryText_head (h e List.mem_cons_self).1
      obtain ⟨more, hmore⟩ := listed_head (es.map entryText) hquote
      rw [List.map_cons, hmore] at hread ⊢
      exact hread
  · rw [htext]
    exact lined_enclosed rfl (by decide) (by decide) (by decide) hprint

private theorem readBack_leaf (h : Storable depth d) (hlist : ∀ xs, d ≠ .list xs)
    (hdict : ∀ es, d ≠ .dict es) : ReadBack depth d ∧ Lined (render d).toList := by
  cases d with
  | null => exact readBack_null
  | bool b => exact readBack_bool b
  | int i => exact readBack_int i (by simpa only [Storable] using h)
  | float x => exact readBack_float x
  | text s => exact readBack_text (d := .text s) trivial rfl
  | torn ns => exact readBack_text (d := .torn ns) (by simpa only [Storable, IsText] using h) rfl
  | list xs => exact absurd rfl (hlist xs)
  | dict es => exact absurd rfl (hdict es)
  | _ => simp only [Storable] at h

private theorem readBack_of_storable (h : Storable depth d) :
    ReadBack depth d ∧ Lined (render d).toList := by
  induction depth generalizing d with
  | zero =>
    refine readBack_leaf h (fun xs => ?_) fun es => ?_ <;>
      (rintro rfl; simp only [Storable] at h)
  | succ depth ih =>
    cases d with
    | list xs => exact readBack_list fun x hx => ih (by simp only [Storable] at h; exact h x hx)
    | dict es =>
      simp only [Storable] at h
      exact readBack_dict fun e he => ⟨(h e he).1, ih (h e he).2⟩
    | _ => exact readBack_leaf h (fun _ => by simp) fun _ => by simp

theorem parse_render (h : Storable depth d) : (∀ c ∈ (render d).toList, Printable c) ∧
    ∃ d', Back d d' ∧ parse (render d) depth = .ok d' := by
  obtain ⟨hread, hlined⟩ := readBack_of_storable h
  refine ⟨hlined.printable, ?_⟩
  obtain ⟨d', pos, hback, hvalue⟩ := hread (2 * (render d).toList.length + 2) 0 [] (by omega)
    (fun c hc => by cases hc)
  refine ⟨d', hback, ?_⟩
  have hmark : (render d).toList.head? ≠ some '\ufeff' := by
    obtain ⟨c, rest, hc, -⟩ := hlined.head
    rw [hc]
    intro he
    have hp := hlined.printable c (hc ▸ List.mem_cons_self)
    rw [Option.some.inj he] at hp
    exact absurd hp (by decide)
  have hlayout : Place.layout ⟨0, (render d).toList ++ []⟩ = ⟨0, (render d).toList ++ []⟩ :=
    (layout_lined hlined).1
  rw [List.append_nil] at hvalue hlayout
  simp only [parse, if_neg hmark, hlayout, hvalue]
  rfl

end Storable

section Keys
variable {es fs : List (Datum × Datum)} {names : List String}

private theorem foldl_insert_texts (acc : List (Datum × Datum)) (seen : List String)
    (hs : acc.map (·.1) = seen.map .text) (hf : fs.map (·.1) = names.map .text)
    (hn : (seen ++ names).Nodup) :
    fs.foldl (fun d e => Datum.insert d e.1 e.2) acc = acc ++ fs := by
  induction fs generalizing acc seen names with
  | nil => exact (List.append_nil acc).symm
  | cons f fs ih =>
    cases names with
    | nil => cases hf
    | cons name names =>
      have hkey : f.1 = .text name := (List.cons.inj hf).1
      have hnew : (acc.any fun e => e.1.same f.1) = false := by
        rw [List.any_eq_false]
        intro e he hsame
        obtain ⟨k, hk, hek⟩ := List.mem_map.mp (hs ▸ List.mem_map_of_mem he)
        rw [← hek, hkey] at hsame
        have hname : k = name := eq_of_beq hsame
        exact (List.nodup_append.mp hn).2.2 k hk name List.mem_cons_self hname
      have hinsert : Datum.insert acc f.1 f.2 = acc ++ [f] := by
        rw [Datum.insert, hnew]
        rfl
      rw [List.foldl_cons, hinsert, ih (acc ++ [f]) (seen ++ [name]) (by simp [hs, hkey])
        (List.cons.inj hf).2 (by simpa using hn), List.append_assoc, List.singleton_append]

private theorem ofEntries_texts (hf : fs.map (·.1) = names.map .text) (hn : names.Nodup) :
    Datum.ofEntries fs = .dict fs := by
  rw [Datum.ofEntries, foldl_insert_texts [] [] rfl hf hn, List.nil_append]

private theorem texts_of_back {ks : List Datum} (h : List.Forall₂ Back (names.map .text) ks) :
    ks = names.map .text := by
  rw [List.forall₂_map_left_iff] at h
  induction h with
  | nil => rfl
  | cons hb _ ih =>
    cases hb
    rw [List.map_cons, ih]

private theorem get_of_values {key : String} {value : Datum} (hk : es.map (·.1) = names.map .text)
    (hf : fs.map (·.1) = names.map .text)
    (hv : List.Forall₂ Back (es.map (·.2)) (fs.map (·.2)))
    (h : Datum.get? (.dict es) key = some value) :
    ∃ value', Back value value' ∧ Datum.get? (.dict fs) key = some value' := by
  induction names generalizing es fs with
  | nil =>
    rw [List.map_eq_nil_iff.mp hk] at h
    cases h
  | cons name names ih =>
    obtain ⟨⟨_, v⟩, es, rfl, rfl, hes⟩ := List.map_eq_cons_iff.mp hk
    obtain ⟨⟨_, u⟩, fs, rfl, rfl, hfs⟩ := List.map_eq_cons_iff.mp hf
    obtain ⟨hvu, hvs⟩ := List.forall₂_cons.mp hv
    simp only [Datum.get?, List.find?_cons] at h ⊢
    split
    · rename_i hkey
      rw [hkey] at h
      cases h
      exact ⟨u, hvu, rfl⟩
    · rename_i hkey
      rw [hkey] at h
      exact ih hes hfs hvs h

private theorem Back.of_dict {d : Datum} (hb : Back (.dict es) d)
    (hk : es.map (·.1) = names.map .text) (hn : names.Nodup) :
    ∃ fs, d = .dict fs ∧ fs.map (·.1) = names.map .text ∧
      List.Forall₂ Back (es.map (·.2)) (fs.map (·.2)) := by
  cases hb with
  | @dict _ fs hkeys hvalues =>
    have hf := texts_of_back (hk ▸ hkeys)
    exact ⟨fs, ofEntries_texts hf hn, hf, hvalues⟩

theorem get_of_back {key : String} {value d : Datum} (hk : es.map (·.1) = names.map .text)
    (hn : names.Nodup) (hb : Back (.dict es) d) (h : Datum.get? (.dict es) key = some value) :
    ∃ value', Back value value' ∧ d.get? key = some value' := by
  obtain ⟨fs, rfl, hf, hvalues⟩ := hb.of_dict hk hn
  exact get_of_values hk hf hvalues h

end Keys

end Mender.Json
