import Mender.Text.Quoted
import Mender.Pattern.Search
import Mender.Fault
import Mender.Project.Path

/-! The languages that can be repaired, and how their programs are checked, compiled and run. -/
namespace Mender
open Text

inductive Language where
  | python
  | java
  | c
  | cpp
  deriving Repr, DecidableEq

namespace Language

def name : Language → String
  | .python => "python"
  | .java => "java"
  | .c => "c"
  | .cpp => "cpp"

def ofName? (name : String) : Option Language :=
  [Language.python, .java, .c, .cpp].find? fun l => l.name = name

def extensions : List (String × Language) :=
  [(".py", .python), (".java", .java), (".c", .c), (".cpp", .cpp), (".cc", .cpp), (".cxx", .cpp)]

/-- The language of a file by its extension; an unknown extension counts as Python. -/
def ofFile (path : String) : Language :=
  (extensions.lookup (lower (Path.extension path))).getD .python

end Language

/-- How programs of a language are handled in the sandbox. Commands have places for the file, its
directory and its class in braces. -/
structure Profile where
  image : String
  suffix : String
  compile : Option String
  run : String
  lint : String
  lintFix : Option String
  /-- The command that installs the checker, if it has to be installed. -/
  installLint : Option String
  errorForm : String
  mainForm : String
  extraFixers : List String
  /-- The command of a second compiler that gives fix-its, if there is one. -/
  fixIt : Option String

def Language.profile : Language → Profile
  | .python =>
    { image := "python:3.10-slim"
      suffix := ".py"
      compile := none
      run := "python \x7bfile\x7d"
      lint := "ruff check \x7bfile\x7d --select=E,F,W"
      lintFix := some "ruff check \x7bfile\x7d --fix --unsafe-fixes"
      installLint := some "pip install ruff -q"
      errorForm := "line (\\d+)"
      mainForm := "if __name__ == \"__main__\":"
      extraFixers := ["ruff format \x7bfile\x7d"]
      fixIt := none }
  | .java =>
    { image := "amazoncorretto:17"
      suffix := ".java"
      compile := some "javac \x7bfile\x7d"
      run := "java -cp \x7bdir\x7d \x7bclassname\x7d"
      lint := "javac -Xlint:all \x7bfile\x7d 2>&1"
      lintFix := none
      installLint := none
      errorForm := "(?::(\\d+):|java:(\\d+)\\))"
      mainForm := "public static void main"
      extraFixers := []
      fixIt := none }
  | .c =>
    { image := "gcc:12"
      suffix := ".c"
      compile := some "gcc -Wall -Wextra -o /tmp/out \x7bfile\x7d"
      run := "/tmp/out"
      lint := "gcc -fsyntax-only -Wall -Wextra -fdiagnostics-parseable-fixits \x7bfile\x7d 2>&1"
      lintFix := none
      installLint := none
      errorForm := ":(\\d+):\\d+:"
      mainForm := "int main\\s*\\("
      extraFixers := []
      fixIt := some "clang -fsyntax-only -fdiagnostics-parseable-fixits \x7bfile\x7d 2>&1" }
  | .cpp =>
    { image := "gcc:12"
      suffix := ".cpp"
      compile := some "g++ -Wall -Wextra -o /tmp/out \x7bfile\x7d"
      run := "/tmp/out"
      lint := "g++ -fsyntax-only -Wall -Wextra -fdiagnostics-parseable-fixits \x7bfile\x7d 2>&1"
      lintFix := none
      installLint := none
      errorForm := ":(\\d+):\\d+:"
      mainForm := "int main\\s*\\("
      extraFixers := []
      fixIt := some "clang++ -fsyntax-only -fdiagnostics-parseable-fixits \x7bfile\x7d 2>&1" }

inductive Setting where
  | unset
  | text (s : String)
  | texts (ss : List String)

def Setting.ofOption : Option String → Setting
  | none => .unset
  | some s => .text s

/-- The settings of a language under their names, in the order in which they are listed. -/
def Language.settings (l : Language) : List (String × Setting) :=
  let p := l.profile
  let extra := ("extra_fixers", Setting.texts p.extraFixers)
  let fixIt := ("fixit_cmd", Setting.ofOption p.fixIt)
  [("image", .text p.image), ("suffix", .text p.suffix), ("compile_cmd", .ofOption p.compile),
   ("run_cmd", .text p.run), ("linter", .text p.lint), ("linter_fix", .ofOption p.lintFix),
   ("install_linter", .ofOption p.installLint), ("error_pattern", .text p.errorForm),
   ("main_pattern", .text p.mainForm)] ++
    match l with
    | .python => [extra]
    | .java => [extra, fixIt]
    | .c => [fixIt, extra]
    | .cpp => [fixIt, extra]

def Language.ofName (name : String) : Except Fault Language :=
  match Language.ofName? name with
  | some l => .ok l
  | none => .error (.unknownKey (quoted name))

def Language.find (name : Option String) : Except Fault Language :=
  match name with
  | some name => Language.ofName name
  | none => .error (.unknownKey "None")

def Language.errorPattern (l : Language) : Pattern := .read l.profile.errorForm

def Language.mainPattern (l : Language) : Pattern := .read l.profile.mainForm

def commandSlot : Pattern := .read "\x7b(\\w+)\x7d"

def fillCommand (command file dir className : String) : String :=
  commandSlot.replaceBy
    (fun m =>
      match m.group 1 with
      | "file" => file
      | "dir" => dir
      | "classname" => className
      | _ => m.text)
    command

end Mender
