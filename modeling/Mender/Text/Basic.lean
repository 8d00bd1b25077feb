import Mender.Text.Blank
import Mender.Text.Numeral

/-! Operations on texts: trimming, splitting, searching for a piece and replacing it. Each is
defined on the list of characters, so that its laws are facts about lists. Positions count
characters. -/
namespace Mender.Text

def length (s : String) : Nat := s.toList.length

def trimStart (s : String) : String := String.ofList (s.toList.dropWhile isBlank)

def dropEndWhile (p : Char → Bool) (cs : List Char) : List Char :=
  (cs.reverse.dropWhile p).reverse

def trimEnd (s : String) : String := String.ofList (dropEndWhile isBlank s.toList)

def trim (s : String) : String := trimEnd (trimStart s)

def startsWith (s piece : String) : Bool := piece.toList.isPrefixOf s.toList

def endsWith (s piece : String) : Bool := piece.toList.isSuffixOf s.toList

def splitChars (sep : Char) : List Char → List (List Char)
  | [] => [[]]
  | c :: cs =>
    if c = sep then [] :: splitChars sep cs
    else match splitChars sep cs with
      | [] => [[c]]
      | piece :: pieces => (c :: piece) :: pieces

def splitOn (sep : Char) (s : String) : List String :=
  (splitChars sep s.toList).map String.ofList

def wordChars : List Char → List (List Char)
  | [] => []
  | c :: cs =>
    if isBlank c then wordChars cs
    else match cs with
      | [] => [[c]]
      | d :: _ =>
        if isBlank d then [c] :: wordChars cs
        else match wordChars cs with
          | [] => [[c]]
          | w :: ws => (c :: w) :: ws

def words (s : String) : List String := (wordChars s.toList).map String.ofList

def join (sep : String) (pieces : List String) : String := sep.intercalate pieces

def findChars (piece : List Char) (start : Nat) : List Char → Option Nat
  | [] => if piece.isEmpty then some start else none
  | c :: cs => if piece.isPrefixOf (c :: cs) then some start else findChars piece (start + 1) cs

def find? (s piece : String) : Option Nat := findChars piece.toList 0 s.toList

def findFrom? (s piece : String) (start : Nat) : Option Nat :=
  if length s < start then none else findChars piece.toList start (s.toList.drop start)

def findLast? (s piece : String) : Option Nat :=
  (findChars piece.toList.reverse 0 s.toList.reverse).map
    fun back => length s - back - length piece

def contains (s piece : String) : Bool := (find? s piece).isSome

/-- Occurrences of a piece from left to right, none overlapping; the first argument counts the
characters of the last one still to be passed. -/
def countChars (piece : List Char) : Nat → List Char → Nat
  | _, [] => 0
  | skip + 1, _ :: cs => countChars piece skip cs
  | 0, c :: cs =>
    if piece.isPrefixOf (c :: cs) then 1 + countChars piece (piece.length - 1) cs
    else countChars piece 0 cs

def count (s piece : String) : Nat := countChars piece.toList 0 s.toList

/-- Replacement of a non-empty piece from left to right; the `Nat` counts characters of the last
occurrence still to be passed. -/
def replaceChars (old new : List Char) : Nat → List Char → List Char
  | _, [] => []
  | skip + 1, _ :: cs => replaceChars old new skip cs
  | 0, c :: cs =>
    if old.isPrefixOf (c :: cs) then new ++ replaceChars old new (old.length - 1) cs
    else c :: replaceChars old new 0 cs

def replace (s old new : String) : String :=
  if old.isEmpty then s else String.ofList (replaceChars old.toList new.toList 0 s.toList)

def replaceFirst (s old new : String) : String :=
  match find? s old with
  | none => s
  | some i =>
    String.ofList (s.toList.take i) ++ new ++ String.ofList (s.toList.drop (i + length old))

def take (n : Nat) (s : String) : String := String.ofList (s.toList.take n)

def drop (n : Nat) (s : String) : String := String.ofList (s.toList.drop n)

/-- A bound that counts from the start, or from the end when it is negative, cut to the length. -/
def clampIndex (size : Nat) (i : Int) : Nat :=
  if i < 0 then (size + i).toNat else min i.toNat size

def upTo (i : Int) (s : String) : String := take (clampIndex (length s) i) s

def onward (i : Int) (s : String) : String := drop (clampIndex (length s) i) s

def between (start stop : Nat) (s : String) : String :=
  String.ofList ((s.toList.drop start).take (stop - start))

def head? (s : String) : Option Char := s.toList.head?

def replicate (n : Nat) (c : Char) : String := String.ofList (List.replicate n c)

def lower (s : String) : String := String.ofList (s.toList.map Char.toLower)

def leading (s : String) : String := String.ofList (s.toList.takeWhile isBlank)

def digitsValue (cs : List Char) : Nat :=
  cs.foldl (fun n c => 10 * n + (digitValue? c).getD 0) 0

def splitAround (sep : List Char) : Nat → List Char → List (List Char)
  | _, [] => [[]]
  | skip + 1, _ :: cs => splitAround sep skip cs
  | 0, c :: cs =>
    if sep.isPrefixOf (c :: cs) then [] :: splitAround sep (sep.length - 1) cs
    else match splitAround sep 0 cs with
      | [] => [[c]]
      | piece :: pieces => (c :: piece) :: pieces

def splitOnText (sep s : String) : List String :=
  (splitAround sep.toList 0 s.toList).map String.ofList

def lines (s : String) : List String := splitOn '\n' s

def unlines (ls : List String) : String := join "\n" ls

end Mender.Text
