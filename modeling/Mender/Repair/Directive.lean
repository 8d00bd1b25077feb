import Mender.Source.Edit
import Mender.Pattern.Search

/-! Preprocessor lines: stray signs, unknown and unfinished directives. -/
namespace Mender.Repair
open Text

def endBackslash : Pattern := .read "\\\\\\s*$"

def strayBackslash (code : String) (n : Option Int) : Edit :=
  repairLine code n "移除游离反斜杠" fun line => changed line (endBackslash.replaceAll "" line)

def looseHash : Pattern :=
  .read "#(?!include|define|ifdef|ifndef|endif|else|elif|pragma|error|warning)"

def strayHash (code : String) (n : Option Int) : Edit :=
  repairLine code n "移除游离 # 符号" fun line => changed line (looseHash.replaceAll "" line)

def commented (line : String) : String := "// " ++ trimStart line

def invalidDirective (code : String) (n : Option Int) : Edit :=
  repairLine code n "注释无效预处理指令" fun line =>
    if startsWith (trim line) "#" then some (commented line) else none

def unfinishedDirective (code : String) (n : Option Int) : Edit :=
  repairLine code n "移除行末反斜杠" fun line =>
    let body := trimEnd line
    if endsWith body "\\" then some (upTo (-1) body) else none

def unreachable (code : String) (n : Option Int) : Edit :=
  repairLine code n "注释不可达语句" fun line => some (commented line)

end Mender.Repair
