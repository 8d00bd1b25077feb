import Mender.Text.Utf8
import Mender.Workflow.CommandLine

/-! The program. It reads the files below the working directory, carries the command line out on
them and writes those that changed. It starts no commands: to the workflows the container tool is
one that is not installed. -/
namespace Mender.Program

def watched : List String :=
  ["HTTP_PROXY", "HTTPS_PROXY", "http_proxy", "https_proxy", "QWEN_API_KEY", "ANTHROPIC_API_KEY"]

def noTool : CommandRule :=
  ⟨"", none, .failure "[Errno 2] No such file or directory: 'docker'"⟩

/-- Adds entries of a directory and what is below them to a disk. `depth` bounds the depth. -/
def load : Nat → List String → Array IO.FS.DirEntry → Disk → IO Disk
  | 0, _, _, d => return d
  | depth + 1, here, entries, d =>
    entries.foldlM (fun d entry => do
      let place := here ++ [entry.fileName]
      if ← entry.path.isDir then
        load depth place (← entry.path.readDir) (d.addDirs [place])
      else
        let (text, valid) := Text.decodeUtf8 (← IO.FS.readBinFile entry.path).toList
        return d.place place ⟨text, valid⟩) d

def save (before after : Disk) : IO Unit := do
  for place in after.dirs do
    unless before.dirs.contains place do IO.FS.createDirAll ("/".intercalate place)
  for (place, content) in after.files do
    unless before.fileAt? place = some content do
      IO.FS.writeFile ("/".intercalate place) content.text

def run (args : List String) : IO UInt32 := do
  let disk ← load 64 [] (← (← IO.currentDir).readDir) {}
  let env ← watched.filterMapM fun name => return (← IO.getEnv name).map fun value => (name, value)
  let (result, world) := (CommandLine.run args).run.run { disk, env, commandRules := [noTool] }
  IO.print world.output
  IO.eprint world.warnings
  save disk world.disk
  match result with
  | .ok status => return (status.getD 0).toUInt32
  | .error fault =>
    IO.eprintln (fault.kind ++ ": " ++ fault.message)
    return 1

end Mender.Program

def main (args : List String) : IO UInt32 := Mender.Program.run args
