import Mender.Text.Order
import Mender.Project.Path
import Mender.Fault

/-! Files and directories below a working directory, as a value. Only what is below the working
directory is there: absolute paths and paths that leave it with `..` name nothing, and there are no
links, so each file and directory has one place. -/
namespace Mender

/-- What a file holds: the text of its bytes, and whether the bytes are valid UTF-8. -/
structure FileContent where
  /-- The text, with the replacement character where bytes are invalid. -/
  text : String
  valid : Bool := true
  deriving Repr, DecidableEq

/-- The files and directories below the working directory. A place is the list of names that lead to
it; the working directory is the empty list. -/
structure Disk where
  files : List (List String × FileContent) := []
  dirs : List (List String) := []
  order : Arrangement := .byName

namespace Path

def walkNames : List String → List String → Option (List String)
  | seen, [] => some seen.reverse
  | seen, name :: names =>
    if name = "" || name = "." then walkNames seen names
    else if name = ".." then
      match seen with
      | [] => none
      | _ :: up => walkNames up names
    else walkNames (name :: seen) names

/-- The place of a relative path; the empty path and paths that leave the working directory have
none. -/
def place? (path : String) : Option (List String) :=
  if path = "" || Text.startsWith path "/" then none else walkNames [] (Text.splitOn '/' path)

end Path

namespace Disk

def isDirAt (d : Disk) (p : List String) : Bool := p.isEmpty || d.dirs.contains p

def fileAt? (d : Disk) (p : List String) : Option FileContent := d.files.lookup p

/-- The place that names lead to, last name first. Dots stand only behind a directory. -/
def walk (d : Disk) : List String → List String → Option (List String)
  | seen, [] => some seen.reverse
  | seen, name :: names =>
    if name = "" then d.walk seen names
    else if name = "." then if d.isDirAt seen.reverse then d.walk seen names else none
    else if name = ".." then
      match seen with
      | [] => none
      | last :: up => if d.isDirAt (last :: up).reverse then d.walk up names else none
    else d.walk (name :: seen) names

/-- The place of a relative path on a disk; the empty path, paths that leave the working directory
and those with dots behind something other than a directory have none. -/
def locate? (d : Disk) (path : String) : Option (List String) :=
  if path = "" || Text.startsWith path "/" then none else d.walk [] (Text.splitOn '/' path)

/-- Why a path has no place: a file stands on the way, or something on the way is missing. -/
def lost (d : Disk) (path : String) : Fault :=
  let names := Text.splitOn '/' path
  let isFileBefore (k : Nat) : Bool := ((d.walk [] (names.take k)).bind d.fileAt?).isSome
  if (List.range names.length).any isFileBefore then .notDirectory path else .missingFile path

def file? (d : Disk) (path : String) : Option FileContent :=
  if Text.endsWith path "/" then none else (d.locate? path).bind d.fileAt?

def isFile (d : Disk) (path : String) : Bool := (d.file? path).isSome

def isDir (d : Disk) (path : String) : Bool := (d.locate? path).any d.isDirAt

def exists? (d : Disk) (path : String) : Bool := d.isFile path || d.isDir path

def fileNames (d : Disk) (p : List String) : List String :=
  Text.sorted (d.files.filterMap fun (q, _) =>
    match q.getLast? with
    | some name => if q.dropLast = p then some name else none
    | none => none)

def dirNames (d : Disk) (p : List String) : List String :=
  Text.sorted (d.dirs.filterMap fun q =>
    match q.getLast? with
    | some name => if q.dropLast = p then some name else none
    | none => none)

/-- The names of everything in a directory, in the order in which they are listed. -/
def list (d : Disk) (path : String) : Except Fault (List String) :=
  match d.locate? path with
  | none => .error (d.lost path)
  | some p =>
    if d.isDirAt p then .ok (d.order.arrange p (Text.sorted (d.fileNames p ++ d.dirNames p)))
    else if (d.fileAt? p).isSome then .error (.notDirectory path)
    else .error (.missingFile path)

def ancestors (p : List String) : List (List String) :=
  (List.range p.length).filterMap fun k => if k = 0 then none else some (p.take k)

def addDirs (d : Disk) (ps : List (List String)) : Disk :=
  { d with dirs := d.dirs ++ (ps.filter fun p => !p.isEmpty && !d.dirs.contains p).eraseDups }

def blocked (d : Disk) (p : List String) : Bool := (ancestors p).any fun a => (d.fileAt? a).isSome

def putFile (files : List (List String × FileContent)) (p : List String) (c : FileContent) :
    List (List String × FileContent) :=
  if files.any (·.1 == p) then files.map fun f => if f.1 == p then (p, c) else f
  else files ++ [(p, c)]

def place (d : Disk) (p : List String) (c : FileContent) : Disk :=
  { d.addDirs (ancestors p) with files := putFile d.files p c }

def remove (d : Disk) (p : List String) : Disk :=
  { d with files := d.files.filter (·.1 != p) }

def feedLines : List Char → List Char
  | [] => []
  | '\r' :: '\n' :: cs => '\n' :: feedLines cs
  | '\r' :: cs => '\n' :: feedLines cs
  | c :: cs => c :: feedLines cs

/-- The text of a file with line feeds as line ends; `strict` refuses invalid bytes. -/
def read (d : Disk) (path : String) (strict : Bool) : Except Fault String :=
  match d.file? path with
  | some c =>
    if strict && !c.valid then .error .notUtf8
    else .ok (String.ofList (feedLines c.text.toList))
  | none =>
    if d.isDir path then .error (.isDirectory path)
    else match d.locate? path with
      | none => .error (d.lost path)
      | some p =>
        if d.blocked p || (d.fileAt? p).isSome then .error (.notDirectory path)
        else .error (.missingFile path)

def write (d : Disk) (path text : String) : Except Fault Disk :=
  match d.locate? path with
  | none => .error (d.lost path)
  | some p =>
    if d.isDirAt p || Text.endsWith path "/" then .error (.isDirectory path)
    else if d.isDirAt p.dropLast then .ok { d with files := putFile d.files p ⟨text, true⟩ }
    else if d.blocked p then .error (.notDirectory path)
    else .error (.missingFile path)

/-- Makes the directories that names lead to from a place, one after the other. `typed` holds the
names before them; a fault names the path up to the directory that cannot be made. -/
def makeFrom (path : String) : Disk → List String → List String → List String → Except Fault Disk
  | d, _, _, [] => .ok d
  | d, typed, seen, name :: names =>
    let typed := typed ++ [name]
    if name = "" || name = "." then makeFrom path d typed seen names
    else if name = ".." then
      match seen with
      | [] => .error (.missingFile path)
      | _ :: up => makeFrom path d typed up names
    else
      let p := (name :: seen).reverse
      if (d.fileAt? p).isSome then
        match names.dropWhile (· = "") with
        | [] => .error (.fileExists path)
        | next :: _ =>
          let slashes := names.takeWhile (· = "")
          .error (.notDirectory (Text.join "/" (typed ++ slashes ++ [next])))
      else makeFrom path (d.addDirs [p]) typed (name :: seen) names

def makeDirs (d : Disk) (path : String) : Except Fault Disk :=
  if path = "" || Text.startsWith path "/" then .error (.missingFile path)
  else makeFrom path d [] [] (Text.splitOn '/' path)

end Disk

end Mender
