/-! Reading bytes as UTF-8. Each longest beginning of a character that goes wrong counts as one
fault and is read as the replacement character. -/
namespace Mender.Text

def replacement : Char := '\ufffd'

/-- For a first byte: the number of bytes that have to follow, the least and the greatest second
byte, and the bits that the first byte contributes. -/
def leadByte (b : Nat) : Option (Nat × Nat × Nat × Nat) :=
  if b < 0x80 then some (0, 0, 0, b)
  else if b < 0xc2 then none
  else if b < 0xe0 then some (1, 0x80, 0xbf, b - 0xc0)
  else if b = 0xe0 then some (2, 0xa0, 0xbf, 0)
  else if b = 0xed then some (2, 0x80, 0x9f, b - 0xe0)
  else if b < 0xf0 then some (2, 0x80, 0xbf, b - 0xe0)
  else if b = 0xf0 then some (3, 0x90, 0xbf, 0)
  else if b < 0xf4 then some (3, 0x80, 0xbf, b - 0xf0)
  else if b = 0xf4 then some (3, 0x80, 0x8f, b - 0xf0)
  else none

/-- A reader of bytes: the characters so far, last first, whether all bytes were good, and the
character under way (bytes still owed, bounds of the next one, bits so far). -/
structure Utf8State where
  chars : List Char := []
  valid : Bool := true
  pending : Option (Nat × Nat × Nat × Nat) := none

def Utf8State.fault (s : Utf8State) : Utf8State :=
  { chars := replacement :: s.chars, valid := false, pending := none }

def Utf8State.start (s : Utf8State) (b : Nat) : Utf8State :=
  match leadByte b with
  | none => s.fault
  | some (0, _, _, bits) => { s with chars := Char.ofNat bits :: s.chars, pending := none }
  | some lead => { s with pending := some lead }

def Utf8State.step (s : Utf8State) (b : Nat) : Utf8State :=
  match s.pending with
  | none => s.start b
  | some (owed, lo, hi, bits) =>
    if lo ≤ b ∧ b ≤ hi then
      let bits := bits * 64 + (b - 0x80)
      if owed ≤ 1 then { s with chars := Char.ofNat bits :: s.chars, pending := none }
      else { s with pending := some (owed - 1, 0x80, 0xbf, bits) }
    else s.fault.start b

def decodeUtf8 (bytes : List UInt8) : String × Bool :=
  let s := bytes.foldl (fun s b => s.step b.toNat) ({} : Utf8State)
  let s := if s.pending.isSome then s.fault else s
  (String.ofList s.chars.reverse, s.valid)

end Mender.Text
