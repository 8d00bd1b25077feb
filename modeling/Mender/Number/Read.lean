import Mender.Number.Binary
import Mender.Text.Basic

/-! Reading double-precision numbers from text. -/
namespace Mender.Number
open Text

def groupedDigits : List Char → List Char × List Char
  | [] => ([], [])
  | c :: cs =>
    if isDecimal c then
      let (ds, rest) := groupedDigits cs
      (c :: ds, rest)
    else if c == '_' then
      match cs with
      | d :: _ => if isDecimal d then groupedDigits cs else ([], c :: cs)
      | [] => ([], [c])
    else ([], c :: cs)

def leadingDigits (cs : List Char) : List Char × List Char :=
  match cs with
  | c :: _ => if isDecimal c then groupedDigits cs else ([], cs)
  | [] => ([], [])

def sign (cs : List Char) : Bool × List Char :=
  match cs with
  | '-' :: rest => (true, rest)
  | '+' :: rest => (false, rest)
  | rest => (false, rest)

def exponent? : List Char → Option Int
  | [] => some 0
  | c :: cs =>
    if c == 'e' || c == 'E' then
      let (negative, rest) := sign cs
      match leadingDigits rest with
      | ([], _) => none
      | (ds, []) =>
        let n : Int := digitsValue ds
        some (if negative then -n else n)
      | _ => none
    else none

def unsigned? (cs : List Char) : Option Float :=
  let word := lower (String.ofList cs)
  if word = "inf" || word = "infinity" then some (1.0 / 0.0)
  else if word = "nan" then some (0.0 / 0.0)
  else
    let (whole, rest) := leadingDigits cs
    let (fraction, rest) := match rest with
      | '.' :: more => leadingDigits more
      | _ => ([], rest)
    if whole.isEmpty && fraction.isEmpty then none
    else
      (exponent? rest).map fun e =>
        ofDecimal (digitsValue (whole ++ fraction)) (e - fraction.length)

def read? (s : String) : Option Float :=
  let (negative, rest) := sign (trim s).toList
  (unsigned? rest).map fun x => if negative then -x else x

end Mender.Number
