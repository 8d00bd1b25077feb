import Mender.Text.Word
import Mender.Text.Blank

/-! Text patterns: what a piece of text may look like. A pattern is a tree of character classes,
sequence, ordered choice, repetition, groups and conditions on the surroundings. -/
namespace Mender

inductive CharClass where
  | literal (c : Char)
  | letter (c : Char)
  | range (lo hi : Char)
  | word
  | digit
  | blank
  | any
  | none
  | union (a b : CharClass)
  | except (a : CharClass)
  deriving Repr, DecidableEq

/-- Whether a character is the small ASCII letter `c` in either case. The dotted and the dotless i,
the long s and the Kelvin sign are cases of their ASCII letters. -/
def sameLetter (c x : Char) : Bool :=
  x.toLower == c || (c == 'i' && (x == 'ı' || x == 'İ')) || (c == 's' && x == 'ſ') ||
    (c == 'k' && x == 'K')

def CharClass.holds : CharClass → Char → Bool
  | .literal c, x => x == c
  | .letter c, x => sameLetter c x
  | .range lo hi, x => lo.toNat ≤ x.toNat && x.toNat ≤ hi.toNat
  | .word, x => Text.isWord x
  | .digit, x => Text.isDecimal x
  | .blank, x => Text.isBlank x
  | .any, _ => true
  | .none, _ => false
  | .union a b, x => a.holds x || b.holds x
  | .except a, x => !a.holds x

/-- A place in a text that a pattern can ask for. -/
inductive Anchor where
  | textStart
  /-- The end of the text, or the place before a line feed that ends it. -/
  | textEnd
  | lineStart
  | lineEnd
  | wordEdge
  deriving Repr, DecidableEq

inductive Pattern where
  | empty
  | char (k : CharClass)
  | seq (a b : Pattern)
  /-- The first pattern if the whole can match with it, the second otherwise. -/
  | alt (a b : Pattern)
  /-- Any number of repetitions, as many as possible or as few as possible. -/
  | many (greedy : Bool) (p : Pattern)
  | group (i : Nat) (p : Pattern)
  | anchor (a : Anchor)
  | notAhead (p : Pattern)
  | notBehind (w : List Char)
  deriving Repr, DecidableEq

namespace Pattern

def fail : Pattern := .char .none

def concat : List Pattern → Pattern
  | [] => .empty
  | [p] => p
  | p :: ps => .seq p (concat ps)

def choice : List Pattern → Pattern
  | [] => .empty
  | [p] => p
  | p :: ps => .alt p (choice ps)

def text (s : String) : Pattern := concat (s.toList.map fun c => .char (.literal c))

def wordEdge : Pattern := .anchor .wordEdge

def wholeWord (s : String) : Pattern := .seq wordEdge (.seq (text s) wordEdge)

end Pattern

end Mender
