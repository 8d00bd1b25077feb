import Mender.Pattern.Basic

/-! Matching a pattern at a place of a text. Alternatives are tried in order and the first way in
which the whole succeeds is taken, so a match is unique. -/
namespace Mender.Pattern

/-- A place in a text with the groups remembered on the way to it. -/
structure Cursor where
  before : List Char
  rest : List Char
  pos : Nat
  groups : List (Nat × String)

def Cursor.ofChars (cs : List Char) : Cursor := ⟨[], cs, 0, []⟩

def Cursor.advance (s : Cursor) (c : Char) (rest : List Char) : Cursor :=
  { s with before := c :: s.before, rest := rest, pos := s.pos + 1 }

def wordAt : List Char → Bool
  | [] => false
  | c :: _ => Text.isWord c

end Pattern

def Anchor.holds (a : Anchor) (s : Pattern.Cursor) : Bool :=
  match a with
  | .textStart => s.before.isEmpty
  | .textEnd => s.rest.isEmpty || s.rest == ['\n']
  | .lineStart => s.before.isEmpty || s.before.head? == some '\n'
  | .lineEnd => s.rest.isEmpty || s.rest.head? == some '\n'
  | .wordEdge => Pattern.wordAt s.before != Pattern.wordAt s.rest

namespace Pattern

abbrev Continuation := Cursor → Option Cursor

/-- Repetitions of a step before the continuation. A repetition has to move on; `fuel` is the text
still ahead and bounds their number. -/
def iterate (greedy : Bool) (step : Continuation → Cursor → Option Cursor) (k : Continuation) :
    List Char → Cursor → Option Cursor
  | [], s => k s
  | _ :: fuel, s =>
    let more (_ : Unit) :=
      step (fun t => if s.pos < t.pos then iterate greedy step k fuel t else none) s
    if greedy then
      match more () with
      | some t => some t
      | none => k s
    else
      match k s with
      | some t => some t
      | none => more ()

def run : Pattern → Continuation → Cursor → Option Cursor
  | .empty, k, s => k s
  | .char c, k, s =>
    match s.rest with
    | [] => none
    | x :: rest => if c.holds x then k (s.advance x rest) else none
  | .seq a b, k, s => a.run (b.run k) s
  | .alt a b, k, s =>
    match a.run k s with
    | some t => some t
    | none => b.run k s
  | .many greedy p, k, s => iterate greedy p.run k s.rest s
  | .group i p, k, s =>
    p.run (fun t =>
      k { t with groups := (i, String.ofList (s.rest.take (t.pos - s.pos))) :: t.groups }) s
  | .anchor a, k, s => if a.holds s then k s else none
  | .notAhead p, k, s =>
    match p.run some s with
    | some _ => none
    | none => k s
  | .notBehind w, k, s => if w.reverse.isPrefixOf s.before then none else k s

/-- A place where a pattern matches, with the text it covers. -/
structure Found where
  start : Nat
  text : String
  groups : List (Nat × String)

def Found.stop (m : Found) : Nat := m.start + m.text.toList.length

def Found.group? (m : Found) (i : Nat) : Option String := m.groups.lookup i

def Found.group (m : Found) (i : Nat) : String := (m.group? i).getD ""

def matchAt (p : Pattern) (nonempty : Bool) (s : Cursor) : Option Found :=
  match p.run (fun t => if nonempty && t.pos == s.pos then none else some t) s with
  | none => none
  | some t => some ⟨s.pos, String.ofList (s.rest.take (t.pos - s.pos)), t.groups⟩

end Mender.Pattern
