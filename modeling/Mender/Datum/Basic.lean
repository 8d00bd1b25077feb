import Mender.Number.Format

/-! Data of a reply or a report: what JSON and literal notations can express. -/
namespace Mender

/-- A piece of data. Entries of a dictionary keep the order in which their keys came first. -/
inductive Datum where
  | null
  | bool (b : Bool)
  | int (i : Int)
  | float (x : Float)
  | complex (re im : Float)
  | text (s : String)
  /-- A text with half of a pair of code units somewhere, which no string can hold: its codes. -/
  | torn (codes : List Nat)
  | bytes (bs : List Nat)
  | list (xs : List Datum)
  | tuple (xs : List Datum)
  | set (xs : List Datum)
  | dict (entries : List (Datum × Datum))
  | ellipsis
  deriving Inhabited

namespace Datum

def ofCodes (codes : List Nat) : Datum :=
  if codes.all fun n => decide n.isValidChar then .text (String.ofList (codes.map Char.ofNat))
  else .torn codes

def codes? : Datum → Option (List Nat)
  | .text s => some (s.toList.map Char.toNat)
  | .torn codes => some codes
  | _ => none

/-- The number that a datum counts as in comparisons: truth values count as zero and one. -/
def number? : Datum → Option (Int ⊕ Float)
  | .bool b => some (.inl (if b then 1 else 0))
  | .int i => some (.inl i)
  | .float x => some (.inr x)
  | _ => none

def intEqFloat (i : Int) (x : Float) : Bool :=
  match Number.Binary.ofFloat? x with
  | none => false
  | some b =>
    let (n, d) := b.quotient
    i.natAbs * d == n && (n == 0 || decide (i < 0) == b.negative)

mutual
/-- Equality of data as keys: numbers of different kinds are compared by value. -/
def same : Datum → Datum → Bool
  | .null, .null => true
  | .ellipsis, .ellipsis => true
  | .text a, .text b => a == b
  | .torn a, .torn b => a == b
  | .bytes a, .bytes b => a == b
  | .tuple a, .tuple b => sameAll a b
  | .list a, .list b => sameAll a b
  | .complex a b, .complex c d => a == c && b == d
  | a, b =>
    match a.number?, b.number? with
    | some (.inl i), some (.inl j) => i == j
    | some (.inr x), some (.inr y) => x == y
    | some (.inl i), some (.inr x) => intEqFloat i x
    | some (.inr x), some (.inl i) => intEqFloat i x
    | _, _ => false

def sameAll : List Datum → List Datum → Bool
  | [], [] => true
  | a :: as, b :: bs => same a b && sameAll as bs
  | _, _ => false
end

mutual
def isKey : Datum → Bool
  | .list _ => false
  | .set _ => false
  | .dict _ => false
  | .tuple xs => areKeys xs
  | _ => true

def areKeys : List Datum → Bool
  | [] => true
  | x :: xs => isKey x && areKeys xs
end

def insert (entries : List (Datum × Datum)) (k v : Datum) : List (Datum × Datum) :=
  if entries.any fun e => e.1.same k then
    entries.map fun e => if e.1.same k then (e.1, v) else e
  else entries ++ [(k, v)]

/-- The dictionary of entries in order; a repeated key keeps its place and takes the last value. -/
def ofEntries (entries : List (Datum × Datum)) : Datum :=
  .dict (entries.foldl (fun d e => insert d e.1 e.2) [])

def ofMembers (xs : List Datum) : Datum :=
  .set (xs.foldl (fun s x => if s.any (·.same x) then s else s ++ [x]) [])

def get? (d : Datum) (key : String) : Option Datum :=
  match d with
  | .dict entries =>
    (entries.find? fun e => match e.1 with
      | .text k => k == key
      | _ => false).map (·.2)
  | _ => none

def truthy : Datum → Bool
  | .null => false
  | .bool b => b
  | .int i => i != 0
  | .float x => x != 0.0
  | .complex a b => a != 0.0 || b != 0.0
  | .text s => !s.isEmpty
  | .torn codes => !codes.isEmpty
  | .bytes bs => !bs.isEmpty
  | .list xs => !xs.isEmpty
  | .tuple xs => !xs.isEmpty
  | .set xs => !xs.isEmpty
  | .dict es => !es.isEmpty
  | .ellipsis => true

/-- What a collection is made of: members, keys, characters or bytes; nothing for other data. -/
def members? : Datum → Option (List Datum)
  | .list xs => some xs
  | .tuple xs => some xs
  | .set xs => some xs
  | .dict es => some (es.map (·.1))
  | .text s => some (s.toList.map fun c => .text (String.singleton c))
  | .torn codes => some (codes.map fun n => ofCodes [n])
  | .bytes bs => some (bs.map fun b => .int (Int.ofNat b))
  | _ => none

def replacement (old new : String) : Datum :=
  .dict [(.text "old", .text old), (.text "new", .text new)]

end Datum

end Mender
