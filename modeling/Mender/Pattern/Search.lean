import Mender.Pattern.Match
import Mender.Pattern.Reader

/-! Searching a text for a pattern: the first match, all matches from left to right, and the text
with its matches replaced. -/
namespace Mender.Pattern

def matchStart (p : Pattern) (s : String) : Option Found :=
  matchAt p false (Cursor.ofChars s.toList)

def searchFrom (p : Pattern) (before : List Char) (pos : Nat) : List Char → Option Found
  | [] => matchAt p false ⟨before, [], pos, []⟩
  | c :: rest =>
    match matchAt p false ⟨before, c :: rest, pos, []⟩ with
    | some m => some m
    | none => searchFrom p (c :: before) (pos + 1) rest

def search (p : Pattern) (s : String) : Option Found := searchFrom p [] 0 s.toList

def occurs (p : Pattern) (s : String) : Bool := (p.search s).isSome

/-- A text cut into matches and the characters between them. -/
inductive Piece where
  | char (c : Char)
  | found (m : Found)

/-- The matches that begin at a place: one, or an empty one and then one that is not empty. -/
def matchesAt (p : Pattern) (s : Cursor) : List Found :=
  match matchAt p false s with
  | none => []
  | some m =>
    if m.text.isEmpty then
      match matchAt p true s with
      | none => [m]
      | some n => [m, n]
    else [m]

/-- Cuts a text into matches and other characters, from left to right; `skip` counts the characters
that the last match still covers. -/
def piecesFrom (p : Pattern) : Nat → List Char → Nat → List Char → List Piece
  | 0, before, pos, [] => (matchesAt p ⟨before, [], pos, []⟩).map .found
  | _ + 1, _, _, [] => []
  | skip + 1, before, pos, c :: rest => piecesFrom p skip (c :: before) (pos + 1) rest
  | 0, before, pos, c :: rest =>
    let ms := matchesAt p ⟨before, c :: rest, pos, []⟩
    let covered := ms.foldr (fun m n => m.text.toList.length + n) 0
    ms.map .found ++
      match covered with
      | 0 => .char c :: piecesFrom p 0 (c :: before) (pos + 1) rest
      | n + 1 => piecesFrom p n (c :: before) (pos + 1) rest

def pieces (p : Pattern) (s : String) : List Piece := piecesFrom p 0 [] 0 s.toList

def findAll (p : Pattern) (s : String) : List Found :=
  (p.pieces s).filterMap fun
    | .char _ => none
    | .found m => some m

/-- The text of pieces with up to `limit` matches replaced; without a limit, all of them. -/
def assemble (f : Found → String) : Option Nat → List Piece → List Char
  | _, [] => []
  | limit, .char c :: rest => c :: assemble f limit rest
  | none, .found m :: rest => (f m).toList ++ assemble f none rest
  | some 0, .found m :: rest => m.text.toList ++ assemble f (some 0) rest
  | some (n + 1), .found m :: rest => (f m).toList ++ assemble f (some n) rest

def replaceBy (p : Pattern) (f : Found → String) (s : String) : String :=
  String.ofList (assemble f none (p.pieces s))

def replaceAll (p : Pattern) (new : String) (s : String) : String := p.replaceBy (fun _ => new) s

def replaceOnce (p : Pattern) (f : Found → String) (s : String) : String :=
  String.ofList (assemble f (some 1) (p.pieces s))

def beforeFirst (p : Pattern) (s : String) : String :=
  match p.search s with
  | none => s
  | some m => String.ofList (s.toList.take m.start)

end Mender.Pattern
