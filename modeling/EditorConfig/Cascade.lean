import EditorConfig.FileSystem.Basic
import EditorConfig.Path.Normal
import EditorConfig.Source.Options
import EditorConfig.Version

/-! The resolution of a file's properties: the directories above the file are visited from the
nearest to the farthest, and the walk ends at a file that declares itself the root, at a stop
directory, or where there is no parent. -/
namespace EditorConfig

/-- How many calls there is room for where a file is read, and where its options for a path are
asked for: the stack is not equally deep at the two places. -/
structure Limits where
  reading : Nat
  visiting : Nat

structure Cascade where
  configName : Text
  version : Text
  files : FileSystem
  limits : Limits

namespace Cascade

def defaultConfigName : Text := ".editorconfig".toList

def directoryOptions (c : Cascade) (observer : Observer) (path directory : Text) :
    Watched (Bool × Properties) :=
  let config := Path.join directory c.configName
  if c.files.isDirectory directory && c.files.isFile config then do
    Watched.report (.config config)
    if observer.config config then
      match c.files.read config with
      | .error cause => Watched.fail (.unreadable cause)
      | .ok text =>
        Watched.mapError (Error.inFile config) do
          let source ← Source.ofText c.limits.reading observer text
          return (source.isRoot, ← source.options c.limits.visiting observer path directory)
    else return (false, .empty)
  else return (false, .empty)

def walk (c : Cascade) (observer : Observer) (stops : List Text) (path : Text) :
    List Text → Properties → Watched Properties
  | [], found => return found
  | directory :: farther, found => do
    Watched.report (.directory directory)
    if observer.directory directory then
      let (isRoot, options) ← c.directoryOptions observer path directory
      let found := options.overriddenBy found
      if isRoot || stops.contains (Path.normal directory) then return found
      else c.walk observer stops path farther found
    else return found

def resolve (c : Cascade) (observer : Observer) (stops : List Text) (path : Text) :
    Watched Properties := do
  Watched.ofExcept (Version.require c.version)
  Watched.report (.file path)
  if observer.file path then
    let found ← c.walk observer (stops.map Path.normal) path (Path.ancestors path) .empty
    Watched.report (.finished path)
    return found.normalized
  else return .empty

end Cascade
end EditorConfig
