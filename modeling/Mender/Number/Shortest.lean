import Mender.Number.Binary

/-! The fewest decimal digits that read back as a number, and of those the nearest. -/
namespace Mender.Number

/-- A positive number in decimal: `0.d₁d₂d₃… * 10 ^ point`, with the digits as a whole number. -/
structure Decimal where
  digits : Nat
  point : Int
  deriving Repr, DecidableEq

def digitCount (n : Nat) : Nat := (Nat.toDigits 10 n).length

/-- The `point` of a quotient: the least power of ten above it. `fuel` bounds the correction of the
estimate. -/
def pointOf (num den : Nat) : Nat → Int → Int
  | 0, k => k
  | fuel + 1, k =>
    let below := if 0 ≤ k then num < den * Nat.pow 10 k.toNat else num * Nat.pow 10 (-k).toNat < den
    if below then
      let k' := k - 1
      let below' :=
        if 0 ≤ k' then num < den * Nat.pow 10 k'.toNat else num * Nat.pow 10 (-k').toNat < den
      if below' then pointOf num den fuel k' else k
    else pointOf num den fuel (k + 1)

/-- Removes the zeros at the end of a whole number. `fuel` bounds their number. -/
def stripZeros : Nat → Nat → Nat
  | 0, n => n
  | fuel + 1, n => if n ≠ 0 ∧ n % 10 = 0 then stripZeros fuel (n / 10) else n

/-- The decimals with `count` digits around a number that read back as it: the nearer one, if there
is one. The number is `num / den`; `low` and `high` are how far below and above it (in units of
`1 / den`) a decimal may lie, the ends included if `closed`. -/
def onGrid (num den low high : Nat) (closed : Bool) (point : Int) (count : Nat) : Option Nat :=
  let shift := point - count
  let n := if 0 ≤ shift then num else num * Nat.pow 10 (-shift).toNat
  let d := if 0 ≤ shift then den * Nat.pow 10 shift.toNat else den
  let scale := if 0 ≤ shift then 1 else Nat.pow 10 (-shift).toNat
  let down := n / d
  let below := n - down * d
  let above := (down + 1) * d - n
  let inside (gap limit : Nat) : Bool := gap < limit * scale || (closed && gap == limit * scale)
  let downHit := 0 < down && inside below low
  let upHit := inside above high
  if downHit && upHit then
    if below < above || (below == above && down % 2 == 0) then some down else some (down + 1)
  else if downHit then some down
  else if upHit then some (down + 1)
  else none

def firstGrid (num den low high : Nat) (closed : Bool) (point : Int) :
    Nat → Nat → Option (Nat × Nat)
  | 0, _ => none
  | fuel + 1, count =>
    match onGrid num den low high closed point count with
    | some digits => some (digits, count)
    | none => firstGrid num den low high closed point fuel (count + 1)

def Binary.shortest (b : Binary) : Decimal :=
  let (n, d) := b.quotient
  let num := 4 * n
  let den := 4 * d
  let unit := if 0 ≤ b.exponent then Nat.pow 2 b.exponent.toNat else 1
  let high := 2 * unit
  let low := if b.significand = Nat.pow 2 52 ∧ b.exponent ≠ -1074 then unit else 2 * unit
  let estimate := (digitCount n : Int) - digitCount d
  let point := pointOf num den 5 estimate
  match firstGrid num den low high (b.significand % 2 == 0) point 18 1 with
  | none => ⟨0, 0⟩
  | some (digits, count) =>
    ⟨stripZeros 20 digits, point + ((digitCount digits : Int) - count)⟩

end Mender.Number
