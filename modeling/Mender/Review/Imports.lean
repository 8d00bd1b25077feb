import Mender.Pattern.Search
import Mender.Text.Basic
import Mender.Text.Order

/-! The modules that a source text imports. -/
namespace Mender.Review
open Text

def fromImport : Pattern := .read "from\\s+([\\w.]+)\\s+import"

def lineImport : Pattern := .read "^import\\s+([\\w.]+)" { perLine := true }

def renamedImport : Pattern := .read "import\\s+([\\w.]+)\\s+as"

def scriptImports (code : String) (order : Arrangement := .byName) : List String :=
  order.members ([fromImport, lineImport, renamedImport].flatMap fun p =>
    (p.findAll code).map fun m => m.group 1)

def classImport : Pattern := .read "import\\s+([\\w.]+);"

def classImports (code : String) (order : Arrangement := .byName) : List String :=
  order.members ((classImport.findAll code).map fun m => m.group 1)

/-- A module name that was cut: the full name and what is left of it. -/
structure CutImport where
  full : String
  cut : String
  deriving Repr, DecidableEq

def goesOn (full part mark : String) : Bool := startsWith full (part ++ mark)

/-- The first pair of a module before and a module after that is the beginning of its name, up to
one of the marks. -/
def cutPair? (marks : List String) (before after : List String) : Option CutImport :=
  before.findSome? fun full =>
    (after.find? fun part => marks.any fun mark => goesOn full part mark).map fun part =>
      ⟨full, part⟩

def standardModules : List String := ["os", "sys", "typing", "re", "json", "time"]

/-- The part of a module name before the first underscore, or else before the first dot. -/
def baseOf (name : String) : String :=
  (splitOn (if contains name "_" then '_' else '.') name).headD ""

def lostModule? (before after : List String) : Option CutImport :=
  before.findSome? fun full =>
    if standardModules.contains ((splitOn '.' full).headD "") then none
    else if !after.contains full && after.contains (baseOf full) then some ⟨full, baseOf full⟩
    else none

/-- A module name of a script that an edit cut. Where there are several, `order` decides. -/
def scriptCut? (source fixed : String) (order : Arrangement := .byName) : Option CutImport :=
  let before := scriptImports source order
  let after := scriptImports fixed order
  cutPair? ["_", "."] before after <|> lostModule? before after

def classCut? (source fixed : String) (order : Arrangement := .byName) : Option CutImport :=
  cutPair? ["."] (classImports source order) (classImports fixed order)

end Mender.Review
