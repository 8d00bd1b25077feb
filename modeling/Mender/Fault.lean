import Mender.Text.Quoted
import Mender.Pattern.Template

/-! What can go wrong in a run: the causes, and the text shown for each. -/
namespace Mender

/-- The cause that ends a computation without a result. -/
inductive Fault where
  | outOfRange
  | outOfText
  /-- A look-up of a language or key that is not known; the key is given in quotes where it is a
  text. -/
  | unknownKey (shown : String)
  | missingFile (path : String)
  | isDirectory (path : String)
  | notDirectory (path : String)
  | fileExists (path : String)
  /-- A value of a kind that the operation does not take, with the reason where one is shown. -/
  | wrongType (reason : String := "")
  /-- A value that lacks the operation asked for, with the reason where one is shown. -/
  | noOperation (reason : String := "")
  /-- A replacement template with an escape or a reference that does not exist. -/
  | badTemplate
  | unknownGroup (name : String)
  | notUtf8
  /-- A text that cannot be shown or written, since it holds half of a pair of code units. -/
  | unencodable
  | tooManyDigits (digits : Nat)
  | badValue (reason : String)
  | failed (reason : String)
  | timedOut (words : List String) (seconds : Option Int)
  | system (reason : String)
  | notJson (reason : String)
  deriving Repr, DecidableEq

def Fault.message : Fault → String
  | .outOfRange => "list index out of range"
  | .outOfText => "string index out of range"
  | .unknownKey shown => shown
  | .missingFile path => s!"[Errno 2] No such file or directory: {Text.quoted path}"
  | .isDirectory path => s!"[Errno 21] Is a directory: {Text.quoted path}"
  | .notDirectory path => s!"[Errno 20] Not a directory: {Text.quoted path}"
  | .fileExists path => s!"[Errno 17] File exists: {Text.quoted path}"
  | .wrongType reason => reason
  | .noOperation reason => reason
  | .badTemplate => ""
  | .unknownGroup name => s!"unknown group name {Text.quoted name}"
  | .notUtf8 => ""
  | .unencodable => ""
  | .tooManyDigits n =>
    s!"Exceeds the limit (4300 digits) for integer string conversion: value has {n} digits; " ++
      "use sys.set_int_max_str_digits() to increase the limit"
  | .badValue reason => reason
  | .failed reason => reason
  | .timedOut words seconds =>
    let limit := match seconds with
      | some n => toString n
      | none => "None"
    s!"Command '{Text.quotedList words}' timed out after {limit} seconds"
  | .system reason => reason
  | .notJson reason => reason

def Fault.kind : Fault → String
  | .outOfRange => "IndexError"
  | .outOfText => "IndexError"
  | .unknownKey _ => "KeyError"
  | .missingFile _ => "FileNotFoundError"
  | .isDirectory _ => "IsADirectoryError"
  | .notDirectory _ => "NotADirectoryError"
  | .fileExists _ => "FileExistsError"
  | .wrongType _ => "TypeError"
  | .noOperation _ => "AttributeError"
  | .badTemplate => "error"
  | .unknownGroup _ => "IndexError"
  | .notUtf8 => "UnicodeDecodeError"
  | .unencodable => "UnicodeEncodeError"
  | .tooManyDigits _ => "ValueError"
  | .badValue _ => "ValueError"
  | .failed _ => "RuntimeError"
  | .timedOut _ _ => "TimeoutExpired"
  | .system _ => "OSError"
  | .notJson _ => "JSONDecodeError"

def Fault.ofTemplate : Pattern.TemplateError → Fault
  | .badEscape => .badTemplate
  | .unknownName name => .unknownGroup name

/-- The number written by decimal digits of any script; more than 4300 digits are refused. -/
def readNumber (digits : String) : Except Fault Int :=
  let n := Text.length digits
  if n ≤ 4300 then .ok (Text.digitsValue digits.toList) else .error (.tooManyDigits n)

end Mender
