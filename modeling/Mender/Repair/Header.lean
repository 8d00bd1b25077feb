import Mender.Source.Edit
import Mender.Diagnostic.Location
import Mender.Repair.Java

/-! Repairs of C programs: headers of the standard library, results and unused variables. -/
namespace Mender.Repair
open Text

def implicitFunction : Pattern := .read "implicit declaration of function '(\\w+)'"

def functionHeaders : List (String × String) :=
  [("printf", "<stdio.h>"), ("scanf", "<stdio.h>"), ("fprintf", "<stdio.h>"),
   ("fscanf", "<stdio.h>"), ("fopen", "<stdio.h>"), ("fclose", "<stdio.h>"),
   ("fgets", "<stdio.h>"), ("fputs", "<stdio.h>"), ("malloc", "<stdlib.h>"),
   ("calloc", "<stdlib.h>"), ("realloc", "<stdlib.h>"), ("free", "<stdlib.h>"),
   ("exit", "<stdlib.h>"), ("atoi", "<stdlib.h>"), ("atof", "<stdlib.h>"),
   ("rand", "<stdlib.h>"), ("srand", "<stdlib.h>"), ("strlen", "<string.h>"),
   ("strcpy", "<string.h>"), ("strncpy", "<string.h>"), ("strcat", "<string.h>"),
   ("strcmp", "<string.h>"), ("strstr", "<string.h>"), ("memcpy", "<string.h>"),
   ("memset", "<string.h>"), ("sqrt", "<math.h>"), ("pow", "<math.h>"), ("sin", "<math.h>"),
   ("cos", "<math.h>"), ("abs", "<math.h>"), ("isdigit", "<ctype.h>"), ("isalpha", "<ctype.h>"),
   ("toupper", "<ctype.h>"), ("tolower", "<ctype.h>")]

def isInclude (line : String) : Bool := startsWith (trim line) "#include"

def isCodeLine (line : String) : Bool := trim line != "" && !startsWith (trim line) "//"

def preamble (ls : List String) : List String :=
  ls.takeWhile fun l => isInclude l || !isCodeLine l

def includeHeader (code header : String) (position : List String → Nat) : Edit :=
  let statement := "#include " ++ header
  if contains code statement then .keep code
  else
    let ls := lines code
    .ofLines (ls.insertIdx (position ls) statement) [repairNote s!"添加 {statement}"]

/-- Includes the header that a table gives for the name in a message. -/
def includeNamed (named : Pattern) (headers : List (String × String))
    (position : List String → Nat) (code message : String) : Edit :=
  match named.search message with
  | none => .keep code
  | some m =>
    match headers.lookup (m.group 1) with
    | none => .keep code
    | some header => includeHeader code header position

/-- Includes the header of an implicitly declared function behind the inclusions that begin the
text. -/
def includeForFunction : String → String → Edit :=
  includeNamed implicitFunction functionHeaders fun ls => afterLast isInclude (preamble ls)

def unknownTypeName : Pattern := .read "unknown type name '(\\w+)'"

def typeHeaders : List (String × String) :=
  [("size_t", "<stddef.h>"), ("ptrdiff_t", "<stddef.h>"), ("FILE", "<stdio.h>"),
   ("bool", "<stdbool.h>"), ("int8_t", "<stdint.h>"), ("int16_t", "<stdint.h>"),
   ("int32_t", "<stdint.h>"), ("int64_t", "<stdint.h>"), ("uint8_t", "<stdint.h>"),
   ("uint16_t", "<stdint.h>"), ("uint32_t", "<stdint.h>"), ("uint64_t", "<stdint.h>")]

def includeForType : String → String → Edit :=
  includeNamed unknownTypeName typeHeaders (afterLast isInclude)

def pointerCast (code : String) : Edit :=
  .decline code "  [INFO] 指针转换错误需要手动修复或 LLM 处理"

def callArguments (code kind : String) : Edit :=
  .decline code s!"  [INFO] 函数参数错误 ({kind}) 需要手动修复或 LLM 处理"

def returnZero (code : String) (n : Option Int) : Edit := insertReturn code n "0"

def unusedName : Pattern := .read "unused variable '(\\w+)'"

/-- Uses an unused variable on a line of its own below the line that a message points to. -/
def useVariable (code message : String) : Except Fault Edit := do
  let n ← Diagnostic.lineNumber message
  match unusedName.search message with
  | none => return .keep code
  | some m =>
    let name := m.group 1
    let ls := lines code
    match lineAt? ls n with
    | none => return .keep code
    | some (i, line) =>
      return .ofLines
        (ls.insertIdx (i + 1)
          (indented (indentWidth line) s!"(void){name};  // suppress unused warning"))
        [repairNote s!"抑制未使用变量警告: {name}"]

end Mender.Repair
