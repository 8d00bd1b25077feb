import Mender.Answer.Parse
import Mender.Answer.Payload

/-! Answers of a model in any number, in the forms that models give them. -/
namespace Mender.Bench
open Text

/-- Answers in each form: plain, in a code fence, with other quotes, over several lines, with prose
around them, with other fields, and without data. -/
def answerForms : List String :=
  ["\x7b\"old\": \"x = 1\", \"new\": \"x = 1;\"\x7d",
   "```json\n\x7b\"old\": \"if x > 0\", \"new\": \"if x > 0:\"\x7d\n```",
   "```\n\x7b\"old\": \"foo(\", \"new\": \"foo()\"\x7d\n```",
   "\x7b'old': 'a', 'new': 'b'\x7d",
   "\x7b\"old\": \"line1\nline2\", \"new\": \"fixed1\nfixed2\"\x7d",
   "Here is the fix: \x7b\"old\": \"p(\", \"new\": \"p()\"\x7d Done.",
   "\x7b\"old\": \"if len(parts < 3:\", \"new\": \"if len(parts) < 3:\",\x7d",
   "\x7b\"search\": \"abc\", \"replace\": \"abd\"\x7d",
   "no data at all",
   "\x7b\"old\": \"v\\\"q\", \"new\": \"w\\\"q\"\x7d",
   "\x7b\"old\": \"a\", \"new\": \"b\"\x7d \x7b\"old\": \"c\", \"new\": \"d\"\x7d"]

/-- An answer that is cut off before its closing brace and has a word before each colon, with texts
of some length. Only scanning for the two fields reads it. -/
def cutAnswer (i : Nat) : String :=
  let old := replicate (30 + i) 'a'
  let new := replicate (30 + i) 'b'
  s!"\x7b\"old\" text: \"{old}\\\"x\", \"new\" text: \"{new}\\\"y\""

def quotedText (n : Nat) : String :=
  join "" (List.replicate (400 * max 1 (n / 8)) "a\\\"") ++ "\""

structure AnswersRead where
  /-- The data of the answers, of those cut off, and of an empty one. -/
  answers : List (Option Datum)
  stop : Option Int

def answers (n : Nat) : Except Fault AnswersRead := do
  let whole := (List.range n).map fun i =>
    Answer.parse? (Answer.payload (answerForms.getD (i % answerForms.length) ""))
  let cut := (List.range n).map fun i => Answer.parse? (cutAnswer i)
  return ⟨whole ++ cut ++ [Answer.parse? ""], ← Answer.stringEnd (quotedText n) 0⟩

end Mender.Bench
