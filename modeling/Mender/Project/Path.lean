import Mender.Text.Basic

/-! Names of files: their parts between slashes, their extensions. -/
namespace Mender.Path
open Text

def baseName (path : String) : String :=
  String.ofList (path.toList.reverse.takeWhile (· != '/')).reverse

/-- The part before the last slash, without the slashes at its end unless it has nothing else. -/
def dirName (path : String) : String :=
  let head := (path.toList.reverse.dropWhile (· != '/')).reverse
  let bare := dropEndWhile (· == '/') head
  String.ofList (if bare.isEmpty then head else bare)

def join (dir name : String) : String :=
  if startsWith name "/" then name
  else if dir = "" || endsWith dir "/" then dir ++ name
  else dir ++ "/" ++ name

/-- The name before its extension, and the extension with its dot. Dots at the start of a base name
begin no extension. -/
def splitExtension (path : String) : String × String :=
  let base := baseName path
  let ext := base.toList.reverse.takeWhile (· != '.')
  let stem := base.toList.take (base.toList.length - ext.length - 1)
  if ext.length < base.toList.length && stem.any (· != '.') then
    let suffix := String.ofList ('.' :: ext.reverse)
    (take (length path - length suffix) path, suffix)
  else (path, "")

def stem (path : String) : String := (splitExtension path).1

def extension (path : String) : String := (splitExtension path).2

end Mender.Path
