import EditorConfig.FileSystem.Basic
import EditorConfig.OrderedMap
import EditorConfig.Path.Basic

/-! Files held in memory. The directories are the parents of the files there were at first;
files that come and go later do not change them. -/
namespace EditorConfig

structure Memory where
  files : OrderedMap Text Text
  directories : List Text

namespace Memory

def ofFiles (pairs : List (Text × Text)) : Memory :=
  let files := OrderedMap.ofList pairs
  ⟨files, (files.entries.flatMap fun e => Path.ancestors e.1).eraseDups⟩

def write (m : Memory) (path text : Text) : Memory := { m with files := m.files.insert path text }

def remove (m : Memory) (path : Text) : Memory := { m with files := m.files.erase path }

def fileSystem (m : Memory) : FileSystem where
  isDirectory path := m.directories.contains path
  isFile path := (m.files.get? path).isSome
  read path :=
    match m.files.get? path with
    | some text => .ok text
    | none => .error .missing

end Memory
end EditorConfig
