import Mender.Text.Letter
import Mender.Text.Numeral

/-! Word characters: letters, numerals and the underscore. -/
namespace Mender.Text

def isWord (c : Char) : Bool := isLetter c || isNumeral c || c == '_'

end Mender.Text
