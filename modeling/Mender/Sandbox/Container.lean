import Mender.Language
import Mender.World.Basic

/-! The container in which programs are checked and run. -/
namespace Mender.Sandbox
open Text

def container : String := "autodebug_sandbox"

def workspace : String := "/workspace"

def inWorkspace (name : String) : String := workspace ++ "/" ++ name

def docker (words : List String) (timeout : Option Int := none) : Run (Int × String × String) :=
  Run.command { words := "docker" :: words, timeout := timeout }

def isAvailable : Run Bool := do
  match ← Run.caught (docker ["info"] (some 10)) with
  | .ok (status, _, _) => return status == 0
  | .error e =>
    Run.say s!"[ERROR] Docker 不可用: {e.message}"
    return false

def isRunning : Run Bool := do
  let question := ["inspect", "-f", "\x7b\x7b.State.Running\x7d\x7d", container]
  match ← Run.caught (docker question (some 10)) with
  | .ok (status, stdout, _) => return status == 0 && contains (lower stdout) "true"
  | .error _ => return false

def remove : Run Unit := discard (docker ["rm", "-f", container])

/-- Installs the checker of a language; an installation that takes too long is skipped. -/
def installLint (p : Profile) : Run Unit := do
  match p.installLint with
  | none => return
  | some install =>
    match ← Run.caught (docker ["exec", container, "sh", "-c", install] (some 120)) with
    | .ok _ => return
    | .error (.timedOut _ _) => Run.say "[WARN] Linter 安装超时，跳过"
    | .error e => throw e

def setUp (lang : Option String) : Run Unit := do
  unless ← isAvailable do
    throw (.failed "Docker 未启动或未安装，请先启动 Docker")
  let p := (← Run.ofExcept (Language.find lang)).profile
  remove
  let (status, _, stderr) ←
    docker ["run", "-d", "--name", container, p.image, "tail", "-f", "/dev/null"]
  if status ≠ 0 then
    throw (.failed s!"创建容器失败: {stderr}")
  discard (docker ["exec", container, "mkdir", "-p", workspace])
  installLint p
  unless ← isRunning do
    throw (.failed "容器启动失败")
  Run.say s!"[OK] Docker container ready ({p.image})"

def restartIfStopped (lang : Option String) : Run Bool := do
  if ← isRunning then return false
  Run.say "[WARN] 容器未运行，正在重启..."
  setUp lang
  return true

/-- Copies a text into the container, through a temporary file with an extension. -/
def copy (text extension path : String) : Run (Int × String × String) :=
  Run.command
    { words := ["docker", "cp", "<tmp>" ++ extension, container ++ ":" ++ path]
      timeout := none
      content := some text }

def programName (l : Language) : String := "code" ++ l.profile.suffix

/-- Copies the text of the single program into the container, and once more if that failed. -/
def copyProgram (code : String) (l : Language) : Run Unit := do
  let path := inWorkspace (programName l)
  discard (restartIfStopped l.name)
  let (status, _, stderr) ← copy code l.profile.suffix path
  if status ≠ 0 then
    Run.say s!"[WARN] 复制失败，重试: {stderr}"
    discard (restartIfStopped l.name)
    discard (copy code l.profile.suffix path)

def copyFile (code name : String) : Run Unit :=
  discard (copy code (Path.extension name) (inWorkspace name))

def layeredPath (layer name : String) : String :=
  if layer = "." then inWorkspace name else inWorkspace (layer ++ "/" ++ name)

def copyLayered (code layer name : String) : Run Unit :=
  discard (copy code ".py" (layeredPath layer name))

structure Outcome where
  ok : Bool
  stdout : String
  stderr : String
  deriving Repr, DecidableEq

def Outcome.report (o : Outcome) : String := if o.stderr = "" then o.stdout else o.stderr

/-- Runs a command in the container once. A command that takes too long has failed. -/
def execOnce (cmd : String) (timeout : Option Int) : Run (Except Fault Outcome) := do
  match ← Run.caught (docker ["exec", container, "sh", "-c", cmd] timeout) with
  | .ok (status, stdout, stderr) => return .ok ⟨status == 0, stdout, stderr⟩
  | .error (.timedOut _ _) =>
    let limit := match timeout with
      | some n => toString n
      | none => "None"
    Run.say s!"[WARN] 命令超时 ({limit}s): {take 50 cmd}..."
    return .ok ⟨false, "", "Command timed out"⟩
  | .error e => return .error e

/-- Runs a command in the container. If it cannot be started and a language is given, the container
is made anew where needed and the command is tried once more. -/
def exec (cmd : String) (timeout : Option Int := some 60) (lang : Option String := none)
    (retry : Bool := true) : Run Outcome := do
  match ← execOnce cmd timeout with
  | .ok o => return o
  | .error e =>
    if retry && lang.any (· ≠ "") then
      Run.say s!"[WARN] 执行失败，尝试重启容器: {e.message}"
      discard (restartIfStopped lang)
      match ← execOnce cmd timeout with
      | .ok o => return o
      | .error e => return ⟨false, "", e.message⟩
    else return ⟨false, "", e.message⟩

end Mender.Sandbox
