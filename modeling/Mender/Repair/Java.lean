import Mender.Source.Edit
import Mender.Diagnostic.Location
import Mender.Repair.Directive

/-! Repairs of Java programs. -/
namespace Mender.Repair
open Text

def publicClass : Pattern := .read "public\\s+class\\s+(\\w+)"

/-- Gives the first public class the name of the file that the sandbox compiles. -/
def renameClass (code : String) : Edit :=
  match changed code (publicClass.replaceOnce (fun _ => "public class code") code) with
  | none => .keep code
  | some new => ⟨new, [repairNote "修复 Java 类名 -> code"]⟩

def uninitialised : Pattern := .read "variable (\\w+) might not have been initialized"

def bareDeclaration (name : String) : Pattern :=
  .seq (.read "\\b(\\w+)\\s+") (.seq (.text name) (.read "\\s*;"))

def defaultValue (type : String) : String :=
  if ["int", "long", "short", "byte"].contains type then "0"
  else if ["float", "double"].contains type then "0.0"
  else if type = "boolean" then "false"
  else if type = "char" then "'\\0'"
  else "null"

/-- The first of the lines with the given indexes for which `f` gives a new text, changed to it. -/
def changeFirst (code : String) (ls : List String)
    (f : Int → String → Option (String × String)) : List Int → Except Fault Edit
  | [] => .ok (.keep code)
  | i :: is =>
    match lineWithIndex ls i with
    | .error e => .error e
    | .ok line =>
      match f i line with
      | some (new, note) => .ok (.ofLines (ls.set i.toNat new) [note])
      | none => changeFirst code ls f is

/-- Gives a value to the declaration of an uninitialised variable; nineteen lines upwards are looked
at, the first line of the text is not. -/
def initVariable (code message : String) : Except Fault Edit := do
  let n ← Diagnostic.lineNumber message
  match Diagnostic.given n, uninitialised.search message with
  | some n, some m =>
    let name := m.group 1
    changeFirst code (lines code)
      (fun i line =>
        match (bareDeclaration name).search line with
        | none => none
        | some d =>
          let value := defaultValue (d.group 1)
          (changed line (replace line s!"{name};" s!"{name} = {value};")).map fun new =>
            (new, repairNoteAt s!"初始化变量 {name} = {value}" (i + 1)))
      (indexesUp n (max 0 (n - 20)))
  | _, _ => return .keep code

/-- Inserts a statement, indented by four more, before a closing brace that is alone on line `n`. -/
def insertReturn (code : String) (n : Option Int) (value : String) : Edit :=
  let ls := lines code
  match lineAt? ls n with
  | none => .keep code
  | some (i, line) =>
    if trim line = "\x7d" then
      .ofLines (ls.insertIdx i (indented (indentWidth line) s!"    return {value};"))
        [repairNote s!"添加 return {value}: 第 {i + 1} 行前"]
    else .keep code

def returnNull (code : String) (n : Option Int) : Edit := insertReturn code n "null"

def emptyBody (code : String) (n : Option Int) : Edit :=
  repairLine code n "添加方法体 \x7b\x7d" fun line =>
    let body := trimEnd line
    if endsWith body "\x7b" || endsWith body ";" then none else some (body ++ " \x7b\x7d")

def bareMethod : Pattern := .read "^(\\s*)(public|private|protected)?\\s*(\\w+)\\s*\\("

def voidType (code : String) (n : Option Int) : Edit :=
  repairLine code n "添加 void 返回类型" fun line =>
    changed line (bareMethod.replaceBy
      (fun m => m.group 1 ++ m.group 2 ++ " void " ++ m.group 3 ++ "(") line)

/-- Comments out the line with a reference that a static context does not allow. -/
def staticContext (code message : String) : Except Fault Edit := do
  let n ← Diagnostic.lineNumber message
  return repairLine code n "注释静态上下文错误" fun line => some (commented line)

def bodyAtEnd : Pattern := .read "\\s*\\\x7b[^\x7d]*\\\x7d\\s*$"

def braceAtEnd : Pattern := .read "\\s*\\\x7b\\s*$"

def dropBody (code : String) (n : Option Int) : Edit :=
  repairLine code n "移除抽象方法体" fun line =>
    let whole := bodyAtEnd.replaceAll ";" line
    changed line (if whole = line then braceAtEnd.replaceAll ";" line else whole)

def neverThrown : Pattern := .read "exception (\\w+) is never thrown"

def listedException (name : String) : Pattern := .seq (.read ",?\\s*") (.text name)

def throwsComma : Pattern := .read "throws\\s*,"

def throwsNothing : Pattern := .read "throws\\s*(\\)|\\\x7b\x7b)"

def withoutException (name line : String) : String :=
  throwsNothing.replaceBy (·.group 1)
    (throwsComma.replaceAll "throws" ((listedException name).replaceAll "" line))

/-- Removes an exception that is never thrown from its declaration; nine lines upwards are looked
at, the first line of the text is not. -/
def dropException (code message : String) : Except Fault Edit := do
  let n ← Diagnostic.lineNumber message
  match Diagnostic.given n, neverThrown.search message with
  | some n, some m =>
    let name := m.group 1
    changeFirst code (lines code)
      (fun i line =>
        if contains line "throws" then
          (changed line (withoutException name line)).map fun new =>
            (new, repairNoteAt s!"移除 throws {name}" (i + 1))
        else none)
      (indexesUp n (max 0 (n - 10)))
  | _, _ => return .keep code

/-- Comments out the nearest override mark; four lines upwards are looked at, the first line of the
text is not. -/
def dropOverride (code : String) (n : Option Int) : Except Fault Edit :=
  match Diagnostic.given n with
  | none => .ok (.keep code)
  | some n =>
    changeFirst code (lines code)
      (fun i line =>
        if contains line "@Override" then
          some (commented line, repairNoteAt "注释无效 @Override" (i + 1))
        else none)
      (indexesUp n (max 0 (n - 5)))

def symbolName : Pattern := .read "symbol:\\s*\\w+\\s+(\\w+)"

def commonImports : List (String × String) :=
  [("List", "import java.util.List;"),
   ("ArrayList", "import java.util.ArrayList;"),
   ("Map", "import java.util.Map;"),
   ("HashMap", "import java.util.HashMap;"),
   ("Set", "import java.util.Set;"),
   ("HashSet", "import java.util.HashSet;"),
   ("Arrays", "import java.util.Arrays;"),
   ("Collections", "import java.util.Collections;"),
   ("Scanner", "import java.util.Scanner;"),
   ("File", "import java.io.File;"),
   ("IOException", "import java.io.IOException;"),
   ("BufferedReader", "import java.io.BufferedReader;"),
   ("FileReader", "import java.io.FileReader;"),
   ("PrintWriter", "import java.io.PrintWriter;")]

/-- Imports a common class that a message cannot find, after the last import or package line. -/
def importSymbol (code message : String) : Except Fault Edit := do
  let n ← Diagnostic.lineNumber message
  match Diagnostic.given n, symbolName.search message with
  | some _, some m =>
    match commonImports.lookup (m.group 1) with
    | none => return .keep code
    | some statement =>
      if contains code statement then return .keep code
      let ls := lines code
      let position := afterLast
        (fun l => startsWith (trim l) "package " || startsWith (trim l) "import ") ls
      return .ofLines (ls.insertIdx position statement) [repairNote s!"添加 {statement}"]
  | _, _ => return .keep code

def dropImport (code message : String) : Except Fault Edit := do
  let n ← Diagnostic.lineNumber message
  return repairLine code n "注释无效 import" fun line =>
    if contains line "import " then some (commented line) else none

def arrayAccess (code : String) : Edit :=
  .decline code "  [INFO] 数组访问错误需要手动修复或 LLM 处理"

def constructorArguments (code : String) : Edit :=
  .decline code "  [INFO] 构造函数参数错误需要手动修复或 LLM 处理"

def lastBelow (p : String → Bool) (ls : List String) : Nat → Option Nat
  | 0 => none
  | k + 1 => if (ls[k]?).any p then some k else lastBelow p ls k

/-- Moves the nearest call of `super` at or above line `n` behind the nearest opening brace above
it. -/
def superFirst (code : String) (n : Option Int) : Except Fault Edit :=
  match Diagnostic.given n with
  | none => .ok (.keep code)
  | some n =>
    let ls := lines code
    if n ≤ 0 then .ok (.keep code)
    else if ls.length < n then .error .outOfRange
    else
      match lastBelow (contains · "super(") ls n.toNat with
      | none => .ok (.keep code)
      | some i =>
        let others := ls.eraseIdx i
        match lastBelow (contains · "\x7b") others i with
        | none => .ok (.keep code)
        | some j =>
          .ok (.ofLines (others.insertIdx (j + 1) (ls.getD i ""))
            [repairNote "移动 super() 到构造函数开头"])

end Mender.Repair
