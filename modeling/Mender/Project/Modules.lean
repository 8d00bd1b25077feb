import Mender.Project.Disk

/-! The modules of a project: short names and the dotted paths they stand for. -/
namespace Mender
open Text

/-- Short names of modules with their dotted paths, in the order in which they were found. -/
abbrev ModuleIndex := List (String × String)

namespace ModuleIndex

def put (index : ModuleIndex) (name path : String) : ModuleIndex :=
  if index.any (·.1 == name) then index.map fun e => if e.1 == name then (name, path) else e
  else index ++ [(name, path)]

def putNew (index : ModuleIndex) (name path : String) : ModuleIndex :=
  if index.any (·.1 == name) then index else index ++ [(name, path)]

/-- Adds a file of the project: its module name, and the part of it before the first underscore. -/
def addFile (index : ModuleIndex) (place : List String) (file : String) : ModuleIndex :=
  if endsWith file ".py" && !startsWith file "_" then
    let name := upTo (-3) file
    let path := join "." (place ++ [file])
    let dotted := upTo (-3) (replace path "/" ".")
    let index := index.put name dotted
    if contains name "_" then index.putNew ((splitOn '_' name).headD "") dotted else index
  else index

def ofFiles (files : List (List String × String)) : ModuleIndex :=
  files.foldl (fun index f => index.addFile f.1 f.2) []

def isSkipped (dir : String) : Bool :=
  startsWith dir "." || ["__pycache__", "venv", ".git", "node_modules"].contains dir

end ModuleIndex

/-- The names of the files and of the directories in each directory, in the order in which a walk
meets them. -/
structure Listing where
  files : List String → List String
  dirs : List String → List String

def Disk.listing (d : Disk) : Listing :=
  ⟨fun p => d.order.arrange p (d.fileNames p), fun p => d.order.arrange p (d.dirNames p)⟩

/-- The files of a directory, then those of the directories below it that are searched. `place` is
the way from the directory `root`; `fuel` bounds the depth. -/
def Listing.walk (l : Listing) (root : List String) :
    Nat → List String → List (List String × String)
  | 0, _ => []
  | fuel + 1, place =>
    (l.files (root ++ place)).map (place, ·) ++
      ((l.dirs (root ++ place)).filter fun n => !ModuleIndex.isSkipped n).flatMap
        fun n => l.walk root fuel (place ++ [n])

namespace ModuleIndex

def scanBy (d : Disk) (l : Listing) (root : List String) : ModuleIndex :=
  if d.isDirAt root then ofFiles (l.walk root (d.dirs.length + 1) []) else []

def scanAt (d : Disk) (root : List String) : ModuleIndex := scanBy d d.listing root

def scan (d : Disk) (path : String) : ModuleIndex :=
  match d.locate? path with
  | none => []
  | some root => scanAt d root

end ModuleIndex

end Mender
