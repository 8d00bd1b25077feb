import Mender.Proofs.Json

/-! The written form of a replacement is the lightest text that is read as it, where commas and
blanks weigh nothing. -/
namespace Mender.Json
open Text
variable {p q : Place} {es : List (Datum × Datum)} {e : Datum × Datum} {r : List Char} {n : Nat}
  {d : Datum} {c : Char}
variable {start fuel : Nat} {t : Datum}

def isSolid (c : Char) : Bool := c != ',' && c != ' '

def weight (cs : List Char) : Nat := cs.countP isSolid

@[simp] theorem weight_nil : weight [] = 0 := rfl

theorem weight_append (xs ys : List Char) : weight (xs ++ ys) = weight xs + weight ys :=
  List.countP_append

theorem weight_cons_of_solid {cs : List Char} (h : isSolid c = true) :
    weight (c :: cs) = weight cs + 1 := List.countP_cons_of_pos h

theorem weight_le_length (cs : List Char) : weight cs ≤ cs.length := List.countP_le_length

/-- On the way from the place `p` to the place `q` at least the weight `n` is passed. -/
def Place.Passes (p : Place) (n : Nat) (q : Place) : Prop :=
  ∃ w, p.rest = w ++ q.rest ∧ n ≤ weight w

theorem Place.Passes.trans {p q r : Place} {m n : Nat} (h : p.Passes m q) (k : q.Passes n r) :
    p.Passes (m + n) r := by
  obtain ⟨v, hv, hm⟩ := h
  obtain ⟨w, hw, hn⟩ := k
  exact ⟨v ++ w, by rw [hv, hw, List.append_assoc], by rw [weight_append]; omega⟩

theorem Place.Passes.mono {m n : Nat} (h : p.Passes n q) (hm : m ≤ n) : p.Passes m q := by
  obtain ⟨w, hw, hn⟩ := h
  exact ⟨w, hw, Nat.le_trans hm hn⟩

theorem Place.passes_skip (p : Place) (n : Nat) : p.Passes 0 (p.skip n) :=
  ⟨p.rest.take n, (List.take_append_drop n p.rest).symm, Nat.zero_le _⟩

theorem Place.passes_layout (p : Place) : p.Passes 0 p.layout := p.passes_skip _

theorem Place.passes_skip_one (h : p.rest = c :: r)
    (hc : isSolid c = true) : p.Passes 1 (p.skip 1) :=
  ⟨[c], by simp [Place.skip, h], by simp [weight_cons_of_solid hc]⟩

theorem passes_skip_of_weight {v r : List Char} (h : p.rest = v ++ r)
    (hn : weight v = n) : p.Passes n (p.skip v.length) :=
  ⟨v, by simp [Place.skip, h], Nat.le_of_eq hn.symm⟩

def Place.Clear (p : Place) : Prop := ∀ c ∈ p.rest, Printable c

theorem Place.Clear.of_passes (hp : p.Clear) (h : p.Passes n q) : q.Clear := by
  obtain ⟨w, hw, -⟩ := h
  exact fun c hc => hp c (hw ▸ List.mem_append_right w hc)

private theorem solid_of_ne (h1 : c ≠ ',') (h2 : c ≠ ' ') : isSolid c = true := by
  simp [isSolid, h1, h2]

private theorem hexValue_solid (h : hexValue? c = some n) :
    isSolid c = true := solid_of_ne (by rintro rfl; cases h) (by rintro rfl; cases h)

private theorem hexDigits_weight {a b c d : Char} (h : hexDigits? [a, b, c, d] = some n) :
    weight [a, b, c, d] = 4 := by
  obtain ⟨w, x, y, z, hw, hx, hy, hz, -⟩ := hexDigits_eq_some h
  simp [weight, hexValue_solid hw, hexValue_solid hx, hexValue_solid hy, hexValue_solid hz]

private theorem length_charText_unit (h : c.toNat < 65536) : (charText c).toList.length ≤ 6 := by
  cases writing c with
  | plain _ he => simp [he]
  | short _ _ _ he => simp [he]
  | unit h _ he => simp [he, unitEscape_eq h]
  | pair hl _ => omega

private theorem length_charText (c : Char) : (charText c).toList.length ≤ 12 := by
  cases writing c with
  | plain _ he => simp [he]
  | short _ _ _ he => simp [he]
  | unit h _ he => simp [he, unitEscape_eq h]
  | pair _ he =>
    have hm := toNat_lt c
    rw [he, unitEscape_eq (by omega), unitEscape_eq (by omega)]
    simp

/-- The weight of the character with a code as it is written; halves of pairs are not weighed. -/
def codeWeight (n : Nat) : Nat :=
  if n.isValidChar then weight (charText (Char.ofNat n)).toList else 0

private theorem toNat_ofNat (h : n.isValidChar) : (Char.ofNat n).toNat = n := by
  rw [Char.ofNat, dif_pos h]
  rfl

private theorem codeWeight_le (n : Nat) : codeWeight n ≤ 12 := by
  unfold codeWeight
  split
  · exact (weight_le_length _).trans (length_charText _)
  · exact Nat.zero_le _

private theorem codeWeight_le_of_lt (h : n < 65536) : codeWeight n ≤ 6 := by
  unfold codeWeight
  split
  · rename_i hv
    exact (weight_le_length _).trans (length_charText_unit (by rwa [toNat_ofNat hv]))
  · exact Nat.zero_le _

private theorem codeWeight_toNat (c : Char) : codeWeight c.toNat = weight (charText c).toList := by
  rw [codeWeight, if_pos (show c.toNat.isValidChar from c.valid), Char.ofNat_toNat]

private theorem length_simple {c d : Char} (h : simpleEscape? d = some c) :
    (charText c).toList.length ≤ 2 ∧ isSolid d = true := by
  unfold simpleEscape? at h
  split at h <;> cases h <;> decide

/-- What a step of reading a string can do: it ends at the closing quote, or takes up one character
from a text that is at least as heavy as the one it is written as. -/
theorem readString_cases {acc : List Nat}
    (hp : p.Clear) (h : readString start (fuel + 1) acc p = .ok (t, q)) :
    (t = .ofCodes acc.reverse ∧ p.Passes 1 q) ∨
      ∃ n r, p.Passes (codeWeight n) r ∧ readString start fuel (n :: acc) r = .ok (t, q) := by
  unfold readString at h
  split at h
  · cases h
  · rename_i r hr
    cases h
    exact .inl ⟨rfl, p.passes_skip_one hr rfl⟩
  · cases h
  · rename_i a b c d next after hr
    split at h
    · cases h
    · rename_i n hn
      have hlt := hexDigits_lt hn
      have hw := hexDigits_weight hn
      have hu : p.Passes 6 (p.skip 6) := passes_skip_of_weight (v := ['\\', 'u', a, b, c, d]) hr
        (by rw [weight_cons_of_solid rfl, weight_cons_of_solid rfl, hw])
      have hsix : p.Passes (codeWeight n) (p.skip 6) := hu.mono (codeWeight_le_of_lt hlt)
      split at h
      · split at h
        · cases h
        · rename_i low hlow
          obtain ⟨e, f, g, i, r, hcs, hl, -⟩ := lowUnit_eq_some hlow
          rw [hcs] at hr
          refine .inr ⟨_, _, ?_, h⟩
          refine (passes_skip_of_weight (v := ['\\', 'u', a, b, c, d] ++ ['\\', 'u', e, f, g, i])
            hr (n := 12) ?_).mono (codeWeight_le _)
          simp only [weight_append, weight_cons_of_solid (show isSolid '\\' = true from rfl),
            weight_cons_of_solid (show isSolid 'u' = true from rfl), hw, hexDigits_weight hl]
        · exact .inr ⟨_, _, hsix, h⟩
      · exact .inr ⟨_, _, hsix, h⟩
  · cases h
  · rename_i c _ _ _ hr
    split at h
    · rename_i x hx
      obtain ⟨hl, hs⟩ := length_simple hx
      refine .inr ⟨x.toNat, _, ?_, h⟩
      rw [codeWeight_toNat]
      exact (passes_skip_of_weight (v := ['\\', c]) hr
        (by rw [weight_cons_of_solid rfl, weight_cons_of_solid hs]; rfl)).mono
        ((weight_le_length _).trans hl)
    · cases h
  · rename_i c r hq hb _ _ hs hr
    split at h
    · cases h
    · have hne : c ≠ '\\' := fun hc => by
        cases r with
        | nil => exact hb hc rfl
        | cons d r => exact hs d r hc rfl
      have hc := hp c (hr ▸ List.mem_cons_self)
      refine .inr ⟨c.toNat, _, ?_, h⟩
      rw [codeWeight_toNat, Plain.charText ⟨hc.1, hc.2, hq, hne⟩]
      exact passes_skip_of_weight (v := [c]) hr rfl

def codesWeight (ns : List Nat) : Nat := ns.foldr (fun n m => codeWeight n + m) 0

private theorem readString_codesWeight {acc : List Nat}
    (hp : p.Clear) (h : readString start fuel acc p = .ok (t, q)) :
    ∃ ns, t = .ofCodes (acc.reverse ++ ns) ∧ p.Passes (codesWeight ns + 1) q := by
  induction fuel generalizing acc p with
  | zero => cases h
  | succ fuel ih =>
    rcases readString_cases hp h with ⟨rfl, hq⟩ | ⟨n, r, hr, h⟩
    · exact ⟨[], by simp, hq⟩
    · obtain ⟨ns, rfl, hq⟩ := ih (hp.of_passes hr) h
      refine ⟨n :: ns, by simp, ?_⟩
      exact (hr.trans hq).mono (by simp only [codesWeight, List.foldr_cons]; omega)

def textWeight : Datum → Nat
  | .text s => weight (escaped s.toList) + 2
  | _ => 0

private theorem textWeight_ofCodes (ns : List Nat) :
    textWeight (.ofCodes ns) ≤ codesWeight ns + 2 := by
  unfold Datum.ofCodes
  split
  · rename_i hvalid
    have hsum : weight (escaped (ns.map Char.ofNat)) = codesWeight ns := by
      induction ns with
      | nil => rfl
      | cons n ns ih =>
        obtain ⟨hn, hns⟩ := Bool.and_eq_true_iff.mp ((List.all_cons ..).symm.trans hvalid)
        change _ = codeWeight n + codesWeight ns
        rw [List.map_cons, escaped_cons, weight_append, ih hns, codeWeight,
          if_pos (of_decide_eq_true hn)]
    rw [textWeight, String.toList_ofList, hsum]
  · exact Nat.zero_le _

/-- A string that is read weighs no more, as it is written, than the text it is read from with its
closing quote. -/
theorem readString_weight (hp : p.Clear) (h : readString start fuel [] p = .ok (t, q)) :
    (∃ ns, t = .ofCodes ns) ∧ ∃ n, p.Passes (n + 1) q ∧ textWeight t ≤ n + 2 := by
  obtain ⟨ns, rfl, hq⟩ := readString_codesWeight hp h
  exact ⟨⟨ns, rfl⟩, codesWeight ns, hq, textWeight_ofCodes ns⟩

theorem ofCodes_ne_dict {ns : List Nat} : Datum.ofCodes ns ≠ .dict es := by
  unfold Datum.ofCodes
  split <;> intro h <;> cases h

def entryWeight (e : Datum × Datum) : Nat := textWeight e.1 + 1 + textWeight e.2

def Other (d : Datum) : Prop := textWeight d = 0 ∧ ∀ es, d ≠ .dict es

private theorem readNumber_passes (h : readNumber p = .ok (d, q)) : Other d ∧ p.Passes 0 q := by
  obtain ⟨n, ⟨i, -, rfl⟩ | ⟨x, rfl⟩, rfl⟩ := readNumber_cases h
  · exact ⟨⟨rfl, fun _ hd => by cases hd⟩, p.passes_skip n⟩
  · exact ⟨⟨rfl, fun _ hd => by cases hd⟩, p.passes_skip n⟩

private theorem readWord_passes (h : readWord? p = some (d, q)) : Other d ∧ p.Passes 0 q := by
  obtain ⟨w, hw, he⟩ := Option.map_eq_some_iff.mp h
  cases he
  have hm : w ∈ words := List.mem_of_find?_eq_some hw
  refine ⟨?_, p.passes_skip _⟩
  simp only [words, List.mem_cons, List.not_mem_nil, or_false] at hm
  rcases hm with rfl | rfl | rfl | rfl | rfl | rfl <;> exact ⟨rfl, fun _ hd => by cases hd⟩

def totalWeight (es : List (Datum × Datum)) : Nat := es.foldr (fun e n => entryWeight e + n) 0

private theorem entryWeight_le_total (h : e ∈ es) : entryWeight e ≤ totalWeight es := by
  induction es with
  | nil => cases h
  | cons x es ih =>
    change _ ≤ entryWeight x + totalWeight es
    rcases List.mem_cons.mp h with rfl | h
    · omega
    · have := ih h
      omega

theorem add_le_total {a b : Datum × Datum} (ha : a ∈ es) (hb : b ∈ es)
    (hne : a ≠ b) : entryWeight a + entryWeight b ≤ totalWeight es := by
  induction es with
  | nil => cases ha
  | cons x es ih =>
    change _ ≤ entryWeight x + totalWeight es
    rcases List.mem_cons.mp ha with rfl | ha' <;> rcases List.mem_cons.mp hb with rfl | hb'
    · exact absurd rfl hne
    · have := entryWeight_le_total hb'
      omega
    · have := entryWeight_le_total ha'
      omega
    · have := ih ha' hb'
      omega

/-- The object has entries, with texts for keys, that weigh `n` together. -/
def Holds (d : Datum) (n : Nat) : Prop :=
  ∃ es, d = .ofEntries es ∧ (∀ e ∈ es, ∃ k, e.1 = .ofCodes k) ∧ totalWeight es = n

/-- What is read weighs no more, as it is written, than the text it is read from: a text, and an
object that is not empty, with its braces. -/
def ValueWeighs (fuel : Nat) : Prop :=
  ∀ {depth p d q}, p.Clear → readValue fuel depth p = .ok (d, q) → p.Passes (textWeight d) q ∧
    ∀ e es, d = .dict (e :: es) → ∃ n, Holds d n ∧ p.Passes (n + 2) q

/-- The members of an object with their closing brace, too. -/
def MembersWeigh (fuel : Nat) : Prop :=
  ∀ {depth acc p d q}, p.Clear → readMembers fuel depth acc p = .ok (d, q) →
    ∃ es, d = .ofEntries (acc.reverse ++ es) ∧ (∀ e ∈ es, ∃ k, e.1 = .ofCodes k) ∧
      p.Passes (totalWeight es + 1) q

def ItemsPass (fuel : Nat) : Prop :=
  ∀ {depth acc p d q}, p.Clear → readItems fuel depth acc p = .ok (d, q) → Other d ∧ p.Passes 0 q

private theorem readItems_step (hv : ValueWeighs fuel) (hi : ItemsPass fuel) :
    ItemsPass (fuel + 1) := by
  intro depth acc p d q hp h
  simp only [readItems] at h
  split at h
  · cases h
  · rename_i v r hr
    have hpr := (hv hp hr).1.mono (Nat.zero_le _)
    have hpl := hpr.trans r.passes_layout
    split at h
    · cases h
      exact ⟨⟨rfl, fun _ hd => by cases hd⟩, hpl.trans (r.layout.passes_skip 1)⟩
    · have hpn := (hpl.trans (r.layout.passes_skip 1)).trans (Place.passes_layout _)
      obtain ⟨hd, hq⟩ := hi (hp.of_passes hpn) h
      exact ⟨hd, hpn.trans hq⟩
    · cases h

private theorem readMembers_step (hv : ValueWeighs fuel) (hm : MembersWeigh fuel) :
    MembersWeigh (fuel + 1) := by
  intro depth acc p d q hp h
  simp only [readMembers] at h
  split at h
  · rename_i r hr
    have h1 := p.passes_skip_one hr rfl
    split at h
    · cases h
    · rename_i key k hk
      obtain ⟨hcodes, n, h2, hn⟩ := readString_weight (hp.of_passes h1) hk
      have h2 := (h1.trans h2).trans k.passes_layout
      split at h
      · rename_i r' hr'
        have h3 := (h2.trans (Place.passes_skip_one hr' rfl)).trans (Place.passes_layout _)
        split at h
        · cases h
        · rename_i v r hr
          have h4 := (h3.trans (hv (hp.of_passes h3) hr).1).trans r.passes_layout
          generalize he : (key, v) = e at h
          have hk : ∃ k, e.1 = .ofCodes k := he ▸ hcodes
          have h5 : p.Passes (entryWeight e) r.layout := by
            subst he
            exact h4.mono (by simp only [entryWeight]; omega)
          split at h
          · rename_i hr
            cases h
            refine ⟨[e], by simp, by simpa using hk, ?_⟩
            exact h5.trans (Place.passes_skip_one hr rfl)
          · have h6 := (h5.trans (r.layout.passes_skip 1)).trans (Place.passes_layout _)
            obtain ⟨es, rfl, hes, hq⟩ := hm (hp.of_passes h6) h
            refine ⟨e :: es, by simp, List.forall_mem_cons.mpr ⟨hk, hes⟩, ?_⟩
            exact (h6.trans hq).mono (by simp only [totalWeight, List.foldr_cons]; omega)
          · cases h
      · cases h
  · cases h

private theorem readValue_step (hm : MembersWeigh fuel) (hi : ItemsPass fuel) :
    ValueWeighs (fuel + 1) := by
  intro depth p d q hp h
  have hother (hd : Other d) (hq : p.Passes 0 q) : p.Passes (textWeight d) q ∧
      ∀ e es, d = .dict (e :: es) → ∃ n, Holds d n ∧ p.Passes (n + 2) q :=
    ⟨hd.1 ▸ hq, fun e es he => absurd he (hd.2 _)⟩
  simp only [readValue] at h
  split at h
  · cases h
  · rename_i r hr
    have h1 := p.passes_skip_one hr rfl
    obtain ⟨⟨ns, rfl⟩, n, h2, hn⟩ := readString_weight (hp.of_passes h1) h
    exact ⟨(h1.trans h2).mono (by omega), fun _ _ hd => absurd hd ofCodes_ne_dict⟩
  · rename_i r hr
    split at h
    · cases h
    · have h1 := (p.passes_skip_one hr rfl).trans (Place.passes_layout _)
      split at h
      · cases h
        exact ⟨(h1.trans (Place.passes_skip _ 1)).mono (Nat.zero_le _),
          fun _ _ hd => by cases hd⟩
      · obtain ⟨es, hd, hk, hq⟩ := hm (hp.of_passes h1) h
        have hq := h1.trans hq
        refine ⟨hd ▸ hq.mono (Nat.zero_le _), fun _ _ _ => ⟨_, ⟨es, hd, hk, rfl⟩, ?_⟩⟩
        exact hq.mono (by omega)
  · split at h
    · cases h
    · have h1 := (p.passes_skip 1).trans (Place.passes_layout _)
      split at h
      · cases h
        exact hother ⟨rfl, fun _ hd => by cases hd⟩ (h1.trans (Place.passes_skip _ 1))
      · obtain ⟨hd, hq⟩ := hi (hp.of_passes h1) h
        exact hother hd (h1.trans hq)
  · split at h
    · rename_i hw
      cases h
      obtain ⟨hd, hq⟩ := readWord_passes hw
      exact hother hd hq
    · obtain ⟨hd, hq⟩ := readNumber_passes h
      exact hother hd hq

private theorem readers_weigh (fuel : Nat) :
    ValueWeighs fuel ∧ MembersWeigh fuel ∧ ItemsPass fuel := by
  induction fuel with
  | zero =>
    refine ⟨fun _ h => ?_, fun _ h => ?_, fun _ h => ?_⟩ <;>
      simp [readValue, readMembers, readItems] at h
  | succ fuel ih =>
    obtain ⟨hv, hm, hi⟩ := ih
    exact ⟨readValue_step hm hi, readMembers_step hv hm, readItems_step hv hi⟩

def Place.Closes (p q : Place) : Prop := ∃ w, p.rest = w ++ '\x7d' :: q.rest

theorem Place.Passes.closes {p q r : Place} (h : p.Passes n q) (hq : q.Closes r) : p.Closes r := by
  obtain ⟨v, hv, -⟩ := h
  obtain ⟨w, hw⟩ := hq
  exact ⟨v ++ w, by rw [hv, hw, List.append_assoc]⟩

theorem Place.closes_skip (h : p.rest = '\x7d' :: r) :
    p.Closes (p.skip 1) := ⟨[], by rw [Place.skip, h]; rfl⟩

private theorem readMembers_closes {fuel depth : Nat} {acc : List (Datum × Datum)}
    (hp : p.Clear) (h : readMembers fuel depth acc p = .ok (d, q)) : p.Closes q := by
  induction fuel generalizing acc p with
  | zero => simp [readMembers] at h
  | succ fuel ih =>
    simp only [readMembers] at h
    split at h
    · rename_i r hr
      have h1 := p.passes_skip_one hr rfl
      split at h
      · cases h
      · rename_i key k hk
        obtain ⟨-, n, h2, -⟩ := readString_weight (hp.of_passes h1) hk
        have h2 := (h1.trans h2).trans k.passes_layout
        split at h
        · have h3 := (h2.trans (Place.passes_skip _ 1)).trans (Place.passes_layout _)
          split at h
          · cases h
          · rename_i v r hr
            have h4 := (h3.trans ((readers_weigh fuel).1 (hp.of_passes h3) hr).1).trans
              r.passes_layout
            split at h
            · rename_i hbrace
              cases h
              exact h4.closes (Place.closes_skip hbrace)
            · have h5 := (h4.trans (r.layout.passes_skip 1)).trans (Place.passes_layout _)
              exact h5.closes (ih (hp.of_passes h5) h)
            · cases h
        · cases h
    · cases h

private theorem readValue_closes {fuel depth : Nat}
    (hp : p.Clear) (hopen : p.rest = '\x7b' :: r) (h : readValue fuel depth p = .ok (d, q)) :
    p.Closes q := by
  cases fuel with
  | zero => simp [readValue] at h
  | succ fuel =>
    simp only [readValue, hopen] at h
    split at h
    · cases h
    · have h1 := (p.passes_skip 1).trans (Place.passes_layout _)
      split at h
      · rename_i hbrace
        cases h
        exact h1.closes (Place.closes_skip hbrace)
      · exact h1.closes (readMembers_closes (hp.of_passes h1) h)

theorem parse_brace {s : String} (hs : ∀ c ∈ s.toList, Printable c)
    (hopen : s.toList = '\x7b' :: r) (h : parse s = .ok d) :
    ∃ w v, s.toList = w ++ '\x7d' :: v ∧ ∀ c ∈ v, isLayout c = true := by
  have hstart : Place.layout ⟨0, s.toList⟩ = ⟨0, s.toList⟩ := by
    rw [Place.layout, hopen]
    rfl
  simp only [parse, hstart] at h
  split at h
  · cases h
  · split at h
    · cases h
    · rename_i q hq
      split at h
      · rename_i hempty
        have hclear : Place.Clear ⟨0, s.toList⟩ := hs
        obtain ⟨w, hw⟩ := readValue_closes hclear hopen hq
        -- nothing but blanks follows the brace
        have hrest : q.rest.takeWhile isLayout = q.rest :=
          (List.takeWhile_prefix isLayout).eq_of_length_le
            (List.drop_eq_nil_iff.mp (List.isEmpty_iff.mp hempty))
        refine ⟨w, q.rest, hw, fun c hc => ?_⟩
        rw [← hrest] at hc
        exact List.all_eq_true.mp List.all_takeWhile c hc
      · cases h

private theorem eq_of_same {j k : List Nat}
    (h : (Datum.ofCodes j).same (.ofCodes k) = true) : Datum.ofCodes j = .ofCodes k := by
  unfold Datum.ofCodes at h ⊢
  split at h <;> split at h <;> simp_all [Datum.same, Datum.number?]

private theorem mem_insert {entries : List (Datum × Datum)} {k : List Nat} {v : Datum}
    (hk : ∀ e ∈ entries, ∃ k, e.1 = .ofCodes k)
    (he : e ∈ Datum.insert entries (.ofCodes k) v) : e ∈ entries ∨ e = (.ofCodes k, v) := by
  unfold Datum.insert at he
  split at he
  · obtain ⟨x, hx, rfl⟩ := List.mem_map.mp he
    obtain ⟨j, hj⟩ := hk x hx
    split
    · rename_i hs
      rw [hj] at hs
      exact .inr (by rw [hj, eq_of_same hs])
    · exact .inl hx
  · simpa using he

private theorem mem_ofEntries {es d : List (Datum × Datum)}
    (hk : ∀ e ∈ es, ∃ k, e.1 = .ofCodes k) (hd : Datum.ofEntries es = .dict d) (he : e ∈ d) :
    e ∈ es := by
  have hall {es acc : List (Datum × Datum)} (hk : ∀ e ∈ es, ∃ k, e.1 = .ofCodes k)
      (ha : ∀ e ∈ acc, ∃ k, e.1 = .ofCodes k) :
      ∀ e ∈ es.foldl (fun d e => Datum.insert d e.1 e.2) acc, e ∈ acc ∨ e ∈ es := by
    induction es generalizing acc with
    | nil => exact fun e he => .inl he
    | cons x es ih =>
      intro e he
      obtain ⟨hx, hk⟩ := List.forall_mem_cons.mp hk
      obtain ⟨k, hkx⟩ := hx
      have hm (e) (he : e ∈ Datum.insert acc x.1 x.2) : e ∈ acc ∨ e = x := by
        rw [hkx] at he
        have := mem_insert ha he
        rwa [← hkx] at this
      have ha' : ∀ e ∈ Datum.insert acc x.1 x.2, ∃ k, e.1 = .ofCodes k := fun e he =>
        (hm e he).elim (ha e) fun h => h ▸ ⟨k, hkx⟩
      rcases ih hk ha' e he with h | h
      · rcases hm e h with h | rfl
        · exact .inl h
        · exact .inr List.mem_cons_self
      · exact .inr (List.mem_cons_of_mem x h)
  cases hd
  exact (hall hk (by simp) e he).resolve_left (by simp)

private theorem weight_frame (o n : List Char) : weight (frame o n) = weight o + weight n + 18 := by
  simp only [frame, weight_append]
  have h1 : weight opening = 8 := rfl
  have h2 : weight middle = 8 := rfl
  have h3 : weight closing = 2 := rfl
  omega

private theorem le_entries {old new : String} (h : Holds (.replacement old new) n) :
    weight (frame (escaped old.toList) (escaped new.toList)) ≤ n + 2 := by
  obtain ⟨es, he, hk, rfl⟩ := h
  have ho := mem_ofEntries hk he.symm List.mem_cons_self
  have hn := mem_ofEntries hk he.symm (List.mem_cons_of_mem _ List.mem_cons_self)
  have hs := add_le_total ho hn (by simp)
  have h1 : weight (escaped "old".toList) = 3 := by decide
  have h2 : weight (escaped "new".toList) = 3 := by decide
  simp only [entryWeight, textWeight, h1, h2] at hs
  rw [weight_frame]
  omega

theorem weight_frame_le {s old new : String} (hs : ∀ c ∈ s.toList, Printable c)
    (h : parse s = .ok (.replacement old new)) :
    weight (frame (escaped old.toList) (escaped new.toList)) ≤ weight s.toList := by
  have hp : Place.Clear ⟨0, s.toList⟩ := hs
  have hl := Place.passes_layout ⟨0, s.toList⟩
  simp only [parse] at h
  split at h
  · cases h
  · split at h
    · cases h
    · rename_i d q hq
      split at h
      · cases h
        obtain ⟨n, hn, hw⟩ := ((readers_weigh _).1 (hp.of_passes hl) hq).2 _ _ rfl
        obtain ⟨w, hw, hle⟩ := hl.trans hw
        calc
          _ ≤ 0 + (n + 2) := by rw [Nat.zero_add]; exact le_entries hn
          _ ≤ weight w := hle
          _ ≤ weight (w ++ q.rest) := by rw [weight_append]; exact Nat.le_add_right ..
          _ = weight s.toList := by rw [← hw]
      · cases h

end Mender.Json
