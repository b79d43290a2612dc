import EditorConfig.Command.Consulted
import EditorConfig.Text.Plain

/-! The command line. Files are looked at before a command runs, and what it says is printed and
logged after. -/
namespace EditorConfig.Command

def variableNames : List String :=
  ["HOME", "EDCONF_CONFIG_DIR", "XDG_CONFIG_HOME", "EDCONF_DEBUG_LEVEL", "EDCONF_DEBUG"]

def readEnvironment : IO Environment :=
  variableNames.filterMapM fun name => do
    return (← IO.getEnv name).map fun value => (name.toList, value.toList)

/-- What is found under a path. A path that is no file is taken for a directory; where it goes on
from a file, that file stops the way to it. -/
def look (path : Text) : IO (Option Node) := do
  try
    return some (.file (← IO.FS.readBinFile (String.ofList path)))
  catch
    | .inappropriateType .. => return some .directory
    | .permissionDenied .. => return some .sealed
    | _ => return none

def lookAll (w : World) (paths : List Text) : IO World :=
  paths.eraseDups.foldlM (fun w path => do
    match ← look path with
    | some node => return { w with disk := w.disk.put (w.place path) node }
    | none => return w) w

def keepLog (log : Log) : IO Unit := do
  if let some file := log.file then
    IO.FS.createDirAll (String.ofList (Path.directory file))
    let _ ← IO.FS.Handle.mk (String.ofList file) .append

def say (answer : Answer) : IO Unit := do
  (← IO.getStdout).putStr (String.ofList answer.out)
  let stderr ← IO.getStderr
  stderr.putStr (String.ofList (Text.shown (← stderr.isTty) answer.errorText))

/-- Output is in UTF-8, which has every character. -/
def readHost : IO Host := do
  return {
    readDocument := Toml.read 1000
    parser := .standard
    console := ⟨← (← IO.getStdout).isTty, fun _ => true⟩
    limits := ⟨981, 981⟩
    checkLimit := 981
    makeLimit := 985 }

def runWords (words : List Text) : IO UInt32 := do
  let environment ← readEnvironment
  let workingDirectory := (toString (← IO.currentDir)).toList
  let unseen : World := ⟨environment, workingDirectory, ⟨.empty, []⟩, ← readHost⟩
  let w := { unseen with disk := ⟨.empty, unseen.place workingDirectory⟩ }
  let w ← lookAll w (settingsPaths environment)
  let w ← lookAll w (consulted w words)
  let (answer, log) := run w words
  if let .ok loaded := w.settings then
    if loaded.warned then
      if let .ok path := Settings.path environment w.disk then
        IO.eprintln s!"Error loading config from {String.ofList path}"
  keepLog log
  say answer
  return answer.exitCode.toUInt32

end EditorConfig.Command

def main (words : List String) : IO UInt32 :=
  EditorConfig.Command.runWords (words.map String.toList)
