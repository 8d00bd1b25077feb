import Mender.Text.Range

/-! Blank characters: what trimming removes and what separates words. -/
namespace Mender.Text

/-- The blank characters: ASCII layout and information separators, and the blanks of Unicode. -/
def blankRanges : List (Nat × Nat) :=
  [(0x9, 0xd), (0x1c, 0x20), (0x85, 0x85), (0xa0, 0xa0), (0x1680, 0x1680), (0x2000, 0x200a),
   (0x2028, 0x2029), (0x202f, 0x202f), (0x205f, 0x205f), (0x3000, 0x3000)]

def isBlank (c : Char) : Bool := inRanges blankRanges c.toNat

end Mender.Text
