import Mender.Pattern.Search
import Mender.Text.Basic

/-! The data part of a language model's answer: the text that should hold a JSON object, freed of
the prose, the code fence and the defects around it. -/
namespace Mender.Answer
open Text

/-- The part of an answer that holds data: the inside of a code fence, else what stands between the
first opening and the last closing brace, else all of it. -/
def dataPart (reply : String) : String :=
  if contains reply "```json" then
    trim ((splitOnText "```" ((splitOnText "```json" reply).getD 1 "")).getD 0 "")
  else if contains reply "```" then
    trim ((splitOnText "```" reply).getD 1 "")
  else
    match find? reply "\x7b" with
    | some start =>
      let stop := match findLast? reply "\x7d" with
        | some i => i + 1
        | none => 0
      between start stop reply
    | none => trim reply

def commaBrace : Pattern := .read ",\\s*\x7d"

def commaBracket : Pattern := .read ",\\s*]"

def braceBrace : Pattern := .read "\x7d\\s*\x7b"

/-- A text without superfluous commas, with a comma between neighbouring objects, and with single
spaces between its words. -/
def tidy (s : String) : String :=
  let s := commaBrace.replaceAll "\x7d" s
  let s := commaBracket.replaceAll "]" s
  let s := braceBrace.replaceAll "\x7d,\x7b" s
  join " " (words s)

/-- The characters up to the brace that closes as many braces as have been opened; all of them if
there is none. `depth` counts the braces open before. -/
def balanced (depth : Int) : List Char → List Char
  | [] => []
  | c :: cs =>
    if c == '\x7b' then c :: balanced (depth + 1) cs
    else if c == '\x7d' then
      if depth - 1 = 0 then [c] else c :: balanced (depth - 1) cs
    else c :: balanced depth cs

def firstObject (s : String) : String :=
  if startsWith s "\x7b" then String.ofList (balanced 0 s.toList) else s

def payload (reply : String) : String := trim (firstObject (tidy (dataPart reply)))

end Mender.Answer
