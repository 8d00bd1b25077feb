import Mender.Answer.Parse
import Mender.Noted
import Mender.Project.Modules

/-! What surrounds a run: files, commands of the container tool, replies of the model, environment
variables, and a record of all that happened. -/
namespace Mender

inductive Response where
  | done (status : Int) (stdout stderr : String)
  | timeout
  | failure (reason : String)
  deriving Repr, DecidableEq

/-- The surroundings' answer to commands that contain a text. -/
structure CommandRule where
  part : String
  /-- How often the rule can still be used; without a number there is no limit. -/
  uses : Option Nat
  response : Response
  deriving Repr, DecidableEq

/-- A command that was started; `content` is the text of the file that it copies. -/
structure Command where
  words : List String
  timeout : Option Int
  content : Option String := none
  deriving Repr, DecidableEq

inductive Reply where
  | text (s : String)
  | failure (reason : String)
  deriving Repr, DecidableEq

inductive ClientEvent where
  | openai (baseUrl : String) (keyFromEnv : Bool)
  | anthropic (keyFromEnv : Bool)
  | query (model : String) (maxTokens : Nat) (temperature : Option String)
  deriving Repr, DecidableEq

/-- A text before and after the replacements that the model asked for. -/
structure Revision where
  before : String
  after : String
  deriving Repr, DecidableEq

inductive Access where
  | read (path : String)
  | write (path : String)
  deriving Repr, DecidableEq

/-- The surroundings of a run and the record of it: `proposed` are the revisions that the model asked
for and `kept` those that the run went on with. -/
structure World where
  disk : Disk := {}
  commandRules : List CommandRule := []
  replies : List Reply := []
  reader : Answer.Reader := {}
  env : List (String × String) := []
  missingLibraries : List String := []
  /-- Indexes of modules already made: of the working directory, and of directories by their
  names. -/
  moduleCache : List (Option String × ModuleIndex) := []
  output : String := ""
  warnings : String := ""
  commands : List Command := []
  prompts : List String := []
  clients : List ClientEvent := []
  accesses : List Access := []
  proposed : List Revision := []
  kept : List Revision := []

/-- The modules of the working directory, as they were when a rule first needed them. -/
def World.workingModules (w : World) : ModuleIndex :=
  (w.moduleCache.lookup none).getD (ModuleIndex.scanAt w.disk [])

/-- A computation in the surroundings; what it did before a fault stays. -/
abbrev Run := ExceptT Fault (StateM World)

namespace Run

def say (line : String) : Run Unit :=
  modify fun w => { w with output := w.output ++ line ++ "\n" }

def warn (text : String) : Run Unit := modify fun w => { w with warnings := w.warnings ++ text }

def fail {α : Type} (e : Fault) : Run α := throw e

def ofExcept {α : Type} : Except Fault α → Run α
  | .error e => throw e
  | .ok a => pure a

def ofNoted {α : Type} (x : Noted α) : Run α := do
  let (result, notes) := x.outcome
  notes.forM say
  ofExcept result

def caught {α : Type} (x : Run α) : Run (Except Fault α) :=
  ExceptT.mk do
    let result ← x.run
    return .ok result

def edit (e : Edit) : Run String := do
  e.notes.forM say
  return e.code

def recordProposed (r : Revision) : Run Unit :=
  modify fun w => { w with proposed := w.proposed ++ [r] }

def keep (before after : String) : Run String := do
  modify fun w => { w with kept := w.kept ++ [⟨before, after⟩] }
  return after

def disk : Run Disk := return (← get).disk

def recordAccess (a : Access) : Run Unit :=
  modify fun w => { w with accesses := w.accesses ++ [a] }

def readFile (path : String) (strict : Bool) : Run String := do
  let text ← ofExcept ((← disk).read path strict)
  recordAccess (.read path)
  return text

def writeFile (path text : String) : Run Unit := do
  let d ← ofExcept ((← disk).write path text)
  modify fun w => { w with disk := d }
  recordAccess (.write path)

def makeDirs (path : String) : Run Unit := do
  let d ← ofExcept ((← disk).makeDirs path)
  modify fun w => { w with disk := d }

end Run

/-- The answer to a command without a rule: success without output, except that the state of the
container is asked for and is `true`. -/
def defaultResponse (words : List String) : Response :=
  if words.take 2 = ["docker", "inspect"] then .done 0 "true\n" "" else .done 0 "" ""

/-- The answer of the first rule that is for a command and not used up, and the rules left. -/
def respond (line : String) : List CommandRule → Option (Response × List CommandRule)
  | [] => none
  | r :: rs =>
    if r.uses ≠ some 0 && Text.contains line r.part then
      some (r.response, { r with uses := r.uses.map (· - 1) } :: rs)
    else (respond line rs).map fun (a, rs) => (a, r :: rs)

namespace Run

def command (c : Command) : Run (Int × String × String) := do
  let w ← get
  let (response, rules) :=
    (respond (Text.join " " c.words) w.commandRules).getD
      (defaultResponse c.words, w.commandRules)
  set { w with commands := w.commands ++ [c], commandRules := rules }
  match response with
  | .done status stdout stderr => return (status, stdout, stderr)
  | .timeout => throw (.timedOut c.words c.timeout)
  | .failure reason => throw (.system reason)

/-- The modules of the working directory, or of a directory by its name; a directory is looked at
once. -/
def modules (key : Option String) : Run ModuleIndex := do
  let w ← get
  match w.moduleCache.lookup key with
  | some index => return index
  | none =>
    let index := match key with
      | none => ModuleIndex.scanAt w.disk []
      | some path => ModuleIndex.scan w.disk path
    set { w with moduleCache := w.moduleCache ++ [(key, index)] }
    return index

end Run

end Mender
