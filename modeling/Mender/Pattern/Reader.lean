import Mender.Pattern.Basic

/-! The usual notation of patterns: `\w`, `\d`, `\s` and their negations, `.`, classes in square
brackets, `*`, `+`, `?` with lazy forms, `|`, groups, `^`, `$`, `\b` and the negative conditions
`(?!…)` and `(?<!…)`. Braces stand for themselves. -/
namespace Mender.Pattern

structure Options where
  caseless : Bool := false
  dotAll : Bool := false
  perLine : Bool := false

inductive Bracket where
  | group (i : Nat)
  | plain
  | notAhead
  | notBehind

/-- An open parenthesis: finished alternatives and the items of the current one, last first. -/
structure Frame where
  bracket : Bracket
  alternatives : List Pattern
  items : List Pattern

def Frame.body (f : Frame) : Pattern :=
  choice ((concat f.items.reverse :: f.alternatives).reverse)

def literals (items : List Pattern) : List Char :=
  items.reverse.filterMap fun
    | .char (.literal c) => some c
    | _ => none

def Frame.close (f : Frame) : Pattern :=
  match f.bracket with
  | .group i => .group i f.body
  | .plain => f.body
  | .notAhead => .notAhead f.body
  | .notBehind => .notBehind (literals f.items)

def Options.literal (o : Options) (c : Char) : CharClass :=
  if o.caseless && c.isAlpha then .letter c.toLower else .literal c

def escapeClass (c : Char) : CharClass :=
  match c with
  | 'w' => .word
  | 'd' => .digit
  | 's' => .blank
  | 'W' => .except .word
  | 'D' => .except .digit
  | 'S' => .except .blank
  | 'n' => .literal '\n'
  | 't' => .literal '\t'
  | 'r' => .literal '\r'
  | _ => .literal c

def readClass : List Char → CharClass → Option (CharClass × List Char)
  | [], _ => none
  | ']' :: rest, k => some (k, rest)
  | '\\' :: c :: rest, k => readClass rest (.union k (escapeClass c))
  | a :: '-' :: b :: rest, k =>
    if b == ']' then some (.union (.union k (.literal a)) (.literal '-'), rest)
    else readClass rest (.union k (.range a b))
  | c :: rest, k => readClass rest (.union k (.literal c))

def readBracketed : List Char → Option (CharClass × List Char)
  | '^' :: rest => (readClass rest .none).map fun (k, after) => (.except k, after)
  | rest => readClass rest .none

def repeatLast (mark : Char) (lazy : Bool) : List Pattern → Option (List Pattern)
  | [] => none
  | p :: items =>
    match mark with
    | '*' => some (.many (!lazy) p :: items)
    | '+' => some (.seq p (.many (!lazy) p) :: items)
    | _ => some ((if lazy then .alt .empty p else .alt p .empty) :: items)

/-- Reads the notation from left to right. `fuel` bounds the number of steps, `groups` counts the
groups opened so far, and the frames are the parentheses still open, innermost first. -/
def readFrom (o : Options) : Nat → Nat → Frame → List Frame → List Char → Option Pattern
  | 0, _, _, _, _ => none
  | _ + 1, _, f, outer, [] => if outer.isEmpty then some f.body else none
  | fuel + 1, groups, f, outer, c :: rest =>
    let item (p : Pattern) (after : List Char) :=
      readFrom o fuel groups { f with items := p :: f.items } outer after
    match c, rest with
    | '\\', 'b' :: after => item wordEdge after
    | '\\', e :: after =>
      item (.char (if e.isAlpha then escapeClass e else o.literal e)) after
    | '\\', [] => none
    | '(', '?' :: ':' :: after => readFrom o fuel groups ⟨.plain, [], []⟩ (f :: outer) after
    | '(', '?' :: '!' :: after => readFrom o fuel groups ⟨.notAhead, [], []⟩ (f :: outer) after
    | '(', '?' :: '<' :: '!' :: after =>
      readFrom o fuel groups ⟨.notBehind, [], []⟩ (f :: outer) after
    | '(', after =>
      readFrom o fuel (groups + 1) ⟨.group (groups + 1), [], []⟩ (f :: outer) after
    | ')', after =>
      match outer with
      | [] => none
      | g :: outer => readFrom o fuel groups { g with items := f.close :: g.items } outer after
    | '|', after =>
      readFrom o fuel groups
        { f with alternatives := concat f.items.reverse :: f.alternatives, items := [] } outer after
    | '[', after =>
      match readBracketed after with
      | none => none
      | some (k, after) => item (.char k) after
    | '.', after => item (.char (if o.dotAll then .any else .except (.literal '\n'))) after
    | '^', after => item (.anchor (if o.perLine then .lineStart else .textStart)) after
    | '$', after => item (.anchor (if o.perLine then .lineEnd else .textEnd)) after
    | c, after =>
      if c == '*' || c == '+' || c == '?' then
        let (lazy, after) := match after with
          | '?' :: after => (true, after)
          | after => (false, after)
        match repeatLast c lazy f.items with
        | none => none
        | some items => readFrom o fuel groups { f with items := items } outer after
      else item (.char (o.literal c)) after

def read? (s : String) (o : Options) : Option Pattern :=
  readFrom o (s.toList.length + 1) 0 ⟨.plain, [], []⟩ [] s.toList

/-- The pattern that a notation stands for; a malformed notation matches nowhere. -/
def read (s : String) (o : Options := {}) : Pattern := (read? s o).getD fail

end Mender.Pattern
