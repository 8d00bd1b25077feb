import Mender.Text.Basic

/-! Rows of a text: every character that ends a line divides them, and the end of the text ends the
last one. -/
namespace Mender.Text

def isRowEnd (c : Char) : Bool :=
  c == '\n' || c == '\r' || c == '\x0b' || c == '\x0c' || c == '\x1c' || c == '\x1d' ||
    c == '\x1e' || c == '\u0085' || c == '\u2028' || c == '\u2029'

/-- The rows of a text; `row` holds the characters of the present row, last one first. -/
def rowsFrom (row : List Char) : List Char → List String
  | [] => if row.isEmpty then [] else [String.ofList row.reverse]
  | '\r' :: '\n' :: cs => String.ofList row.reverse :: rowsFrom [] cs
  | c :: cs =>
    if isRowEnd c then String.ofList row.reverse :: rowsFrom [] cs else rowsFrom (c :: row) cs

def rows (s : String) : List String := rowsFrom [] s.toList

def padRight (width : Nat) (s : String) : String := s ++ replicate (width - length s) ' '

end Mender.Text
