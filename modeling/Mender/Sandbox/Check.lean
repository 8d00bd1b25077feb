import Mender.Sandbox.Container

/-! Checking, compiling and running programs in the container. -/
namespace Mender.Sandbox
open Text

/-- Whether a check found nothing, and what it found. -/
structure Checked where
  ok : Bool
  errors : String
  deriving Repr, DecidableEq

def programCommand (l : Language) (command : String) : String :=
  fillCommand command (inWorkspace (programName l)) workspace "code"

def mendByLint (code : String) (l : Language) (fix : String) : Run String := do
  discard (exec (programCommand l fix) (some 30))
  let o ← exec (programCommand l "cat \x7bfile\x7d")
  if o.ok && o.stdout ≠ "" then
    copyProgram o.stdout l
    return o.stdout
  else return code

/-- Checks the single program; its text after the checker's own repairs comes with the result. -/
def checkProgram (code : String) (l : Language) : Run (Checked × String) := do
  copyProgram code l
  let code ← match l.profile.lintFix with
    | some fix => mendByLint code l fix
    | none => pure code
  let o ← exec (programCommand l l.profile.lint) (some 30)
  return (⟨o.ok, o.report⟩, code)

def compileProgram (l : Language) : Run Outcome :=
  match l.profile.compile with
  | none => return ⟨true, "", ""⟩
  | some command => exec (programCommand l command)

def runProgram (l : Language) : Run Outcome := exec (programCommand l l.profile.run)

def Outcome.checked (o : Outcome) : Checked := ⟨o.ok || trim o.report = "", o.report⟩

def checkCommand (l : Language) (path : String) : String :=
  match l with
  | .cpp => s!"g++ -fsyntax-only -w {path} 2>&1"
  | .c => s!"gcc -fsyntax-only -w {path} 2>&1"
  | .java => s!"javac -Xlint:none {path} 2>&1"
  | .python => fillCommand l.profile.lint path workspace "code"

def checkFile (name : String) (l : Language) : Run Checked := do
  return (← exec (checkCommand l (inWorkspace name)) (some 30)).checked

/-- Checks a file of a layer; first the checker mends it where `mend` says so. -/
def checkLayered (layer name : String) (mend : Bool := true) : Run Checked := do
  let path := layeredPath layer name
  if mend then
    discard (exec s!"cd {workspace} && ruff check {path} --fix --unsafe-fixes 2>&1" (some 30))
  let command := s!"cd {workspace} && PYTHONPATH={workspace} python -m py_compile {path} 2>&1"
  return (← exec command (some 30)).checked

def failures (commands : List String) : Run (List (Option String)) :=
  commands.mapM fun command => do
    let o ← exec command (some 30)
    return if o.ok then none else some o.report

def compileProject (files : List String) (l : Language) : Run Checked := do
  let names := files.map Path.baseName
  let paths := names.map inWorkspace
  match l with
  | .python =>
    let errors := (← failures (paths.map fun p => s!"python -m py_compile {p} 2>&1")).filterMap id
    return if errors.isEmpty then ⟨true, ""⟩ else ⟨false, unlines errors⟩
  | .java =>
    let all := join " " paths
    let o ← exec s!"javac {all} 2>&1"
    return ⟨o.ok, o.report⟩
  | l =>
    let compiler := if l = .cpp then "g++" else "gcc"
    let objects := names.map fun name => s!"/tmp/{Path.stem name}.o"
    let commands := (paths.zip objects).map fun (p, o) => s!"{compiler} -c {p} -o {o} 2>&1"
    let errors := (← failures commands).filterMap id
    if errors.isEmpty then
      let all := join " " objects
      let o ← exec s!"{compiler} {all} -o /tmp/project_out 2>&1" (some 30)
      return ⟨o.ok, o.report⟩
    else return ⟨false, unlines errors⟩

def runCommand (l : Language) (main : Option String) : String :=
  let given := main.filter (· ≠ "")
  match l with
  | .python =>
    let path := inWorkspace (given.getD "main.py")
    s!"python {path} 2>&1"
  | .java =>
    let name := (given.map Path.stem).getD "Main"
    s!"java -cp {workspace} {name} 2>&1"
  | _ => "/tmp/project_out 2>&1"

def runProject (l : Language) (main : Option String) : Run Outcome := do
  let o ← exec (runCommand l main)
  return { o with stderr := o.report }

end Mender.Sandbox
