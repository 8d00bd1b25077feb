import Mender.Datum.Json
import Mender.Proofs.Text

/-! Numbers as text. The text of a finite number is a sign, a whole number without needless zeros,
and a fraction or an exponent; so it is read as a number again, and as one that is not whole. -/
namespace Mender.Number
open Text

structure Digits (cs : List Char) : Prop where
  ne_nil : cs ≠ []
  digit : ∀ c ∈ cs, c.isDigit = true

/-- A whole number as it is written: no zero stands before other digits. -/
inductive Whole : List Char → Prop where
  | zero : Whole ['0']
  | digits {c : Char} {cs : List Char} (h : Digits (c :: cs)) (hc : c ≠ '0') : Whole (c :: cs)

inductive Exponent : List Char → Prop where
  | none : Exponent []
  | some {s : Char} {es : List Char} (hs : s = '+' ∨ s = '-') (h : Digits es) :
      Exponent ('e' :: s :: es)

def pointed (fs : List Char) : List Char := if fs.isEmpty then [] else '.' :: fs

/-- The text of a number that has a fraction or an exponent. -/
inductive Fractional : List Char → Prop where
  | mk {ds fs ex : List Char} (hd : Whole ds) (hf : ∀ c ∈ fs, c.isDigit = true) (he : Exponent ex)
      (hne : fs ≠ [] ∨ ex ≠ []) : Fractional (ds ++ (pointed fs ++ ex))

theorem Whole.toDigits_digits {ds : List Char} (h : Whole ds) : Digits ds := by
  cases h with
  | zero => exact ⟨by simp, by simp⟩
  | digits h _ => exact h

theorem digits_toDigits (n : Nat) : Digits (Nat.toDigits 10 n) :=
  ⟨Nat.toDigits_ne_nil, fun _ hc => Nat.isDigit_of_mem_toDigits (by decide) (by decide) hc⟩

private theorem toDigits_cons {n : Nat} (h : n ≠ 0) :
    ∃ c cs, Nat.toDigits 10 n = c :: cs ∧ c ≠ '0' := by
  have hdigit : ∀ d < 10, d ≠ 0 → d.digitChar ≠ '0' := by decide
  induction n using Nat.strongRecOn with
  | ind n ih =>
    by_cases hn : n < 10
    · exact ⟨_, [], Nat.toDigits_of_lt_base hn, hdigit n hn h⟩
    · obtain ⟨c, cs, hcs, hc⟩ := ih (n / 10) (by omega) (by omega)
      refine ⟨c, cs ++ [(n % 10).digitChar], ?_, hc⟩
      rw [Nat.toDigits_of_base_le (by decide) (by omega), hcs]
      rfl

theorem whole_toDigits (n : Nat) : Whole (Nat.toDigits 10 n) := by
  by_cases h : n = 0
  · rw [h, Nat.toDigits_zero]
    exact .zero
  · obtain ⟨c, cs, hcs, hc⟩ := toDigits_cons h
    have hd := digits_toDigits n
    rw [hcs] at hd ⊢
    exact .digits hd hc

private theorem Digits.append {xs ys : List Char} (hx : Digits xs)
    (hy : ∀ c ∈ ys, c.isDigit = true) : Digits (xs ++ ys) := by
  refine ⟨by simp [hx.ne_nil], fun c hc => ?_⟩
  rcases List.mem_append.mp hc with hc | hc
  · exact hx.digit c hc
  · exact hy c hc

private theorem digit_zeros (n : Nat) : ∀ c ∈ List.replicate n '0', c.isDigit = true := by
  intro c hc
  rw [(List.mem_replicate.mp hc).2]
  rfl

private theorem toString_nat (n : Nat) : (toString n).toList = Nat.toDigits 10 n :=
  String.toList_ofList

private theorem digits_padLeft (width n : Nat) :
    Digits (padLeft width '0' (toString n)).toList := by
  rw [padLeft, String.toList_append, replicate, String.toList_ofList, toString_nat]
  have hd := digits_toDigits n
  refine ⟨by simp [hd.ne_nil], fun c hc => ?_⟩
  rcases List.mem_append.mp hc with hc | hc
  · exact digit_zeros _ c hc
  · exact hd.digit c hc

section Decimal
variable {n k : Nat}

private theorem fractional_below (n k : Nat) :
    Fractional ("0." ++ replicate k '0' ++ toString n).toList := by
  have hd := digits_toDigits n
  have hne : List.replicate k '0' ++ Nat.toDigits 10 n ≠ [] := by simp [hd.ne_nil]
  have htext : ("0." ++ replicate k '0' ++ toString n).toList =
      ['0'] ++ (pointed (List.replicate k '0' ++ Nat.toDigits 10 n) ++ []) := by
    rw [pointed, if_neg (by simp [hd.ne_nil])]
    simp [replicate]
  rw [htext]
  refine .mk .zero (fun c hc => ?_) .none (.inl hne)
  exact (List.mem_append.mp hc).elim (digit_zeros _ c) (hd.digit c)

private theorem fractional_whole (h : n ≠ 0) (k : Nat) :
    Fractional (toString n ++ replicate k '0' ++ ".0").toList := by
  obtain ⟨c, cs, hcs, hc⟩ := toDigits_cons h
  have hw : Digits (c :: (cs ++ List.replicate k '0')) := by
    rw [← List.cons_append, ← hcs]
    exact (digits_toDigits n).append (digit_zeros _)
  have htext : (toString n ++ replicate k '0' ++ ".0").toList =
      c :: (cs ++ List.replicate k '0') ++ (pointed ['0'] ++ []) := by
    simp [replicate, hcs, pointed]
  rw [htext]
  exact .mk (.digits hw hc) (by simp) .none (.inl (by simp))

private theorem fractional_inside (h : n ≠ 0) (hlt : k + 1 < (Nat.toDigits 10 n).length) :
    Fractional (take (k + 1) (toString n) ++ "." ++ drop (k + 1) (toString n)).toList := by
  obtain ⟨c, cs, hcs, hc⟩ := toDigits_cons h
  have hdigit : ∀ d ∈ c :: cs, d.isDigit = true := hcs ▸ (digits_toDigits n).digit
  obtain ⟨hfirst, hrest⟩ := List.forall_mem_cons.mp hdigit
  have hw : Digits (c :: cs.take k) :=
    ⟨by simp, List.forall_mem_cons.mpr ⟨hfirst, fun d hd => hrest d (List.mem_of_mem_take hd)⟩⟩
  have hne : cs.drop k ≠ [] := by
    rw [hcs, List.length_cons] at hlt
    exact fun he => absurd (List.drop_eq_nil_iff.mp he) (by omega)
  have htext : (take (k + 1) (toString n) ++ "." ++ drop (k + 1) (toString n)).toList =
      c :: cs.take k ++ (pointed (cs.drop k) ++ []) := by
    rw [pointed, if_neg (by simpa using hne)]
    simp [take, drop, hcs]
  rw [htext]
  exact .mk (.digits hw hc) (fun d hd => hrest d (List.mem_of_mem_drop hd)) .none (.inl hne)

private theorem fractional_exponent (h : n ≠ 0) (e : Int) :
    Fractional ((if (Nat.toDigits 10 n).length = 1 then toString n
      else take 1 (toString n) ++ "." ++ drop 1 (toString n)) ++ "e" ++
        (if e < 0 then "-" else "+") ++ padLeft 2 '0' (toString e.natAbs)).toList := by
  obtain ⟨c, cs, hcs, hc⟩ := toDigits_cons h
  have hdigit : ∀ d ∈ c :: cs, d.isDigit = true := hcs ▸ (digits_toDigits n).digit
  obtain ⟨hfirst, hrest⟩ := List.forall_mem_cons.mp hdigit
  generalize hs : (if e < 0 then "-" else "+") = s
  obtain ⟨d, hsd, hd⟩ : ∃ d, s.toList = [d] ∧ (d = '+' ∨ d = '-') := by
    subst hs
    split
    · exact ⟨'-', rfl, .inr rfl⟩
    · exact ⟨'+', rfl, .inl rfl⟩
  have hone : Digits [c] := ⟨by simp, by simpa using hfirst⟩
  have htext : ((if (Nat.toDigits 10 n).length = 1 then toString n
        else take 1 (toString n) ++ "." ++ drop 1 (toString n)) ++ "e" ++ s ++
        padLeft 2 '0' (toString e.natAbs)).toList =
      [c] ++ (pointed cs ++ 'e' :: d :: (padLeft 2 '0' (toString e.natAbs)).toList) := by
    cases cs with
    | nil => simp [hcs, pointed, hsd]
    | cons b cs => simp [hcs, pointed, hsd, take, drop]
  rw [htext]
  exact .mk (.digits hone hc) hrest (.some hd (digits_padLeft _ _)) (.inr (by simp))

/-- A decimal without leading zeros, or zero itself, is written as a number with a fraction or an
exponent. -/
theorem Decimal.fractional_text {x : Decimal} (h : x.digits ≠ 0 ∨ x.point = 0) :
    Fractional x.text.toList := by
  obtain ⟨n, p⟩ := x
  have hlength : length (toString n) = (Nat.toDigits 10 n).length := by rw [length, toString_nat]
  simp only [Decimal.text, hlength]
  split
  · split
    · exact fractional_below n _
    · rename_i hpos
      have hn : n ≠ 0 := h.resolve_right (by simp only; omega)
      split
      · exact fractional_whole hn _
      · rename_i hlt
        obtain ⟨k, hk⟩ : ∃ k, p.toNat = k + 1 := ⟨p.toNat - 1, by omega⟩
        rw [hk] at hlt ⊢
        exact fractional_inside hn (Nat.lt_of_not_le hlt)
  · rename_i hrange
    have hn : n ≠ 0 := h.resolve_right (by simp only; omega)
    exact fractional_exponent hn _

end Decimal

private theorem stripZeros_ne_zero {fuel n : Nat} (h : n ≠ 0) : stripZeros fuel n ≠ 0 := by
  induction fuel generalizing n with
  | zero => exact h
  | succ fuel ih =>
    unfold stripZeros
    split
    · exact ih (by omega)
    · exact h

private theorem onGrid_ne_zero {num den low high count n : Nat} {closed : Bool} {point : Int}
    (h : onGrid num den low high closed point count = some n) : n ≠ 0 := by
  unfold onGrid at h
  extract_lets _ _ _ _ down _ _ inside downHit upHit at h
  have hdown (hd : downHit = true) : down ≠ 0 := by
    have := (Bool.and_eq_true_iff.mp hd).1
    exact Nat.ne_of_gt (of_decide_eq_true this)
  split at h
  · rename_i hboth
    split at h
    · exact Option.some.inj h ▸ hdown (Bool.and_eq_true_iff.mp hboth).1
    · exact Option.some.inj h ▸ Nat.succ_ne_zero _
  split at h
  · rename_i hhit
    exact Option.some.inj h ▸ hdown hhit
  split at h
  · exact Option.some.inj h ▸ Nat.succ_ne_zero _
  · cases h

private theorem firstGrid_ne_zero {num den low high fuel count : Nat} {closed : Bool} {point : Int}
    {found : Nat × Nat} (h : firstGrid num den low high closed point fuel count = some found) :
    found.1 ≠ 0 := by
  induction fuel generalizing count with
  | zero => cases h
  | succ fuel ih =>
    unfold firstGrid at h
    split at h
    · rename_i n hn
      exact Option.some.inj h ▸ onGrid_ne_zero hn
    · exact ih h

theorem Binary.shortest_digits (b : Binary) : b.shortest.digits ≠ 0 ∨ b.shortest.point = 0 := by
  unfold Binary.shortest
  dsimp only
  split
  · exact .inr rfl
  · rename_i hfound
    exact .inl (stripZeros_ne_zero (firstGrid_ne_zero hfound))

theorem isNaN_or_isInf {x : Float} (h : Binary.ofFloat? x = none) :
    x.isNaN = true ∨ x.isInf = true := by
  unfold Binary.ofFloat? at h
  dsimp only at h
  split at h
  · rename_i hbits
    have hexponent : @Float.Model.UnpackedFloat.unpackExponent .binary64
        x.toModel.toBits.toBitVec = -1#11 := by
      apply BitVec.eq_of_toNat_eq
      simp only [Float.Model.UnpackedFloat.unpackExponent, BitVec.toNat_cast,
        BitVec.extractLsb_toNat]
      have hx : x.toModel.toBits.toBitVec.toNat = x.toBits.toNat := rfl
      rw [hx, Nat.shiftRight_eq_div_pow]
      exact hbits
    have hunpack : x.toModel.unpack = .notANumber ∨ ∃ s, x.toModel.unpack = .infinity s := by
      unfold Float.Model.unpack Float.Model.UnpackedFloat.unpack
      dsimp only
      rw [if_pos hexponent]
      split
      · exact .inr ⟨_, rfl⟩
      · exact .inl rfl
    rcases hunpack with hu | ⟨s, hu⟩
    · exact .inl (by rw [Float.isNaN, Float.Model.isNaN, hu]; rfl)
    · exact .inr (by rw [Float.isInf, Float.Model.isInf, hu]; rfl)
  · split at h <;> cases h

end Mender.Number
