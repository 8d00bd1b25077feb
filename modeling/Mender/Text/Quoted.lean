import Mender.Text.Basic
import Mender.Text.Printable

/-! Texts in quotes, as messages show file names, keys and command words. -/
namespace Mender.Text

def hex (width n : Nat) : String :=
  let digits := Nat.toDigits 16 n
  replicate (width - digits.length) '0' ++ String.ofList digits

/-- A character inside quotes: an escape for the quote, the backslash and what cannot be shown. -/
def quotedChar (quote c : Char) : String :=
  if c == quote || c == '\\' then String.ofList ['\\', c]
  else if c == '\n' then "\\n"
  else if c == '\r' then "\\r"
  else if c == '\t' then "\\t"
  else if isPrintable c then String.singleton c
  else if c.toNat < 0x100 then "\\x" ++ hex 2 c.toNat
  else if c.toNat < 0x10000 then "\\u" ++ hex 4 c.toNat
  else "\\U" ++ hex 8 c.toNat

def quoteFor (s : String) : Char :=
  if s.toList.contains '\'' && !s.toList.contains '"' then '"' else '\''

def quoted (s : String) : String :=
  let q := quoteFor s
  String.singleton q ++ String.join (s.toList.map (quotedChar q)) ++ String.singleton q

def quotedList (ss : List String) : String := "[" ++ join ", " (ss.map quoted) ++ "]"

end Mender.Text
