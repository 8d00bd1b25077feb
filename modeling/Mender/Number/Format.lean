import Mender.Number.Shortest
import Mender.Text.Basic

/-! Numbers as text: the shortest form, and forms with a fixed number of places. -/
namespace Mender.Number
open Text

def padLeft (width : Nat) (c : Char) (s : String) : String := replicate (width - length s) c ++ s

/-- A decimal with its point: positional from `10 ^ -4` up to `10 ^ 16`, with an exponent of two
digits or more outside. -/
def Decimal.text (x : Decimal) : String :=
  let ds := toString x.digits
  let n := length ds
  if -4 < x.point ∧ x.point ≤ 16 then
    if x.point ≤ 0 then "0." ++ replicate (-x.point).toNat '0' ++ ds
    else if n ≤ x.point.toNat then ds ++ replicate (x.point.toNat - n) '0' ++ ".0"
    else take x.point.toNat ds ++ "." ++ drop x.point.toNat ds
  else
    let e := x.point - 1
    let mantissa := if n = 1 then ds else take 1 ds ++ "." ++ drop 1 ds
    mantissa ++ "e" ++ (if e < 0 then "-" else "+") ++ padLeft 2 '0' (toString e.natAbs)

def floatText (x : Float) : String :=
  match Binary.ofFloat? x with
  | none => if x.isNaN then "nan" else if x < 0.0 then "-inf" else "inf"
  | some b =>
    (if b.negative then "-" else "") ++ if b.significand = 0 then "0.0" else b.shortest.text

def roundDiv (num den : Nat) : Nat :=
  let q := num / den
  let r := num % den
  if 2 * r < den then q
  else if den < 2 * r then q + 1
  else if q % 2 = 0 then q else q + 1

def Binary.scaled (b : Binary) (places : Nat) : Nat :=
  let (n, d) := b.quotient
  roundDiv (n * Nat.pow 10 places) d

/-- A number with a fixed number of places, rounded from its exact value, a tie to the even one. -/
def fixedText (places : Nat) (x : Float) : String :=
  match Binary.ofFloat? x with
  | none => floatText x
  | some b =>
    let s := padLeft (places + 1) '0' (toString (b.scaled places))
    let whole := take (length s - places) s
    (if b.negative then "-" else "") ++
      if places = 0 then whole else whole ++ "." ++ drop (length s - places) s

def roundTo (places : Nat) (x : Float) : Float :=
  match Binary.ofFloat? x with
  | none => x
  | some b =>
    let y := ofDecimal (b.scaled places) (-places)
    if b.negative then -y else y

end Mender.Number
