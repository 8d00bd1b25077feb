import Mender.Project.Disk

/-! File names with wildcards: a star for any characters, a question mark for one, and sets in
brackets. -/
namespace Mender.Glob

inductive Part where
  | star
  | any
  | set (negated : Bool) (ranges : List (Char × Char))
  | char (c : Char)
  deriving Repr, DecidableEq

def ranges : List Char → List (Char × Char)
  | a :: '-' :: b :: cs => (a, b) :: ranges cs
  | c :: cs => (c, c) :: ranges cs
  | [] => []

/-- The inside of a set and what follows its closing bracket; a bracket at the start is a member. -/
def setInside (cs : List Char) : Option (List Char × List Char) :=
  let first := match cs with
    | ']' :: _ => 1
    | _ => 0
  let inside := cs.take first ++ (cs.drop first).takeWhile (· != ']')
  match cs.drop inside.length with
  | ']' :: rest => some (inside, rest)
  | _ => none

/-- The parts of a name with wildcards. An opening bracket that is never closed stands for itself.
`fuel` bounds the number of parts. -/
def parse : Nat → List Char → List Part
  | 0, _ => []
  | _, [] => []
  | fuel + 1, '*' :: cs => .star :: parse fuel cs
  | fuel + 1, '?' :: cs => .any :: parse fuel cs
  | fuel + 1, '[' :: cs =>
    let (negated, body) := match cs with
      | '!' :: body => (true, body)
      | _ => (false, cs)
    match setInside body with
    | some (inside, rest) => .set negated (ranges inside) :: parse fuel rest
    | none => .char '[' :: parse fuel cs
  | fuel + 1, c :: cs => .char c :: parse fuel cs

def ends : List Char → List (List Char)
  | [] => [[]]
  | c :: cs => (c :: cs) :: ends cs

def fits : List Part → List Char → Bool
  | [], cs => cs.isEmpty
  | .star :: ps, cs => (ends cs).any (fits ps)
  | .any :: ps, _ :: cs => fits ps cs
  | .set negated rs :: ps, c :: cs =>
    ((rs.any fun (a, b) => a ≤ c && c ≤ b) != negated) && fits ps cs
  | .char a :: ps, c :: cs => a == c && fits ps cs
  | _, [] => false

def matchesName (pattern name : String) : Bool :=
  fits (parse (Text.length pattern) pattern.toList) name.toList

def hasWildcard (s : String) : Bool := s.toList.any fun c => c == '*' || c == '?' || c == '['

/-- The names in a directory that fit a pattern; hidden names fit only a hidden pattern. -/
def namesIn (d : Disk) (dirsOnly : Bool) (dir pattern : String) : List String :=
  match d.locate? (if dir = "" then "." else dir) with
  | none => []
  | some p =>
    let names := if dirsOnly then d.dirNames p else Text.sorted (d.fileNames p ++ d.dirNames p)
    if d.isDirAt p then
      names.filter fun name =>
        (Text.startsWith pattern "." || !Text.startsWith name ".") && matchesName pattern name
    else []

/-- The paths that fit a pattern with wildcards. `fuel` bounds the number of directories in it. -/
def expand (d : Disk) : Nat → Bool → String → List String
  | 0, _, _ => []
  | fuel + 1, dirsOnly, pattern =>
    let dir := Path.dirName pattern
    let base := Path.baseName pattern
    if dir = "" then namesIn d dirsOnly "" base
    else
      let dirs := if hasWildcard dir then expand d fuel true dir else [dir]
      dirs.flatMap fun dir =>
        if hasWildcard base then (namesIn d dirsOnly dir base).map (Path.join dir)
        else if d.exists? (Path.join dir base) then [Path.join dir base]
        else []

/-- The files of a directory with a suffix, in the order in which they are listed. The name of the
directory may hold wildcards. -/
def withSuffix (d : Disk) (dir suffix : String) : List String :=
  let pattern := Path.join dir ("*" ++ suffix)
  d.order.arrange [pattern] (Text.sorted (expand d (Text.length pattern) false pattern))

end Mender.Glob
