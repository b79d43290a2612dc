import EditorConfig.FileSystem.Basic
import EditorConfig.OrderedMap
import EditorConfig.Path.Normal
import EditorConfig.Text.Line

/-! A tree of directories and files. A place of the tree is the list of names that lead to it
from the root, the last name first, so that going down adds a name and going up takes one away. -/
namespace EditorConfig

inductive Node where
  | directory
  | file (bytes : ByteArray)
  /-- A file that is there but cannot be opened. -/
  | sealed

abbrev Place := List Text

/-- The nodes that were put somewhere, and where relative paths begin. Every place above a node
is a directory. -/
structure Disk where
  nodes : OrderedMap Place Node
  workingPlace : Place

namespace Disk

def longestName : Nat := 255

def longestPath : Nat := 4095

def byteLength (text : Text) : Nat := (String.ofList text).utf8ByteSize

def put (disk : Disk) (place : Place) (node : Node) : Disk :=
  { disk with nodes := disk.nodes.insert place node }

def node? (disk : Disk) (place : Place) : Option Node :=
  match disk.nodes.get? place with
  | some node => some node
  | none =>
    if place.isSuffixOf disk.workingPlace ||
        disk.nodes.entries.any (fun e => place.isSuffixOf e.1)
    then some .directory else none

def enter (disk : Disk) (place : Place) (component : Text) : Except ReadError Place :=
  match disk.node? place with
  | none => .error .missing
  | some .directory =>
    if component = [] ∨ component = ['.'] then .ok place
    else if component = ['.', '.'] then .ok place.tail
    else if longestName < byteLength component then .error .nameTooLong
    else if (disk.node? (component :: place)).isSome then .ok (component :: place)
    else .error .missing
  | some _ => .error .notDirectory

def start (disk : Disk) (path : Text) : Place :=
  if Path.isAbsolute path then [] else disk.workingPlace

def checkName (path : Text) : Except ReadError Unit :=
  if path.contains '\x00' then .error .invalidName
  else if path = [] then .error .missing
  else if longestPath < byteLength path then .error .nameTooLong
  else .ok ()

def locate (disk : Disk) (path : Text) : Except ReadError Place := do
  checkName path
  (Path.components path).foldlM disk.enter (disk.start path)

def find (disk : Disk) (path : Text) : Except ReadError Node := do
  match disk.node? (← disk.locate path) with
  | some node => return node
  | none => throw .missing

def bytes (disk : Disk) (path : Text) : Except ReadError ByteArray := do
  match ← disk.find path with
  | .directory => throw .isDirectory
  | .sealed => throw .denied
  | .file bytes => return bytes

/-- The text of a file, with every line end written as a line feed. -/
def decode (bytes : ByteArray) : Except ReadError Text :=
  match String.fromUTF8? bytes with
  | some text => .ok (Text.withLineFeeds text.toList)
  | none => .error .notText

def fileSystem (disk : Disk) : FileSystem where
  isDirectory path :=
    match disk.find path with
    | .ok .directory => true
    | _ => false
  isFile path :=
    match disk.find path with
    | .ok .directory => false
    | .ok _ => true
    | .error _ => false
  read path := disk.bytes path >>= decode

inductive WriteError where
  | isFile
  | isDirectory
  | notDirectory
  | missing
  | invalidName
  | nameTooLong
  /-- More directories are missing than the caller has room for. -/
  | tooDeep
  deriving DecidableEq, Repr

def missingDown (disk : Disk) (path : Text) : List Text :=
  match h : Path.parent? (Path.bare path) with
  | none => [path]
  | some parent =>
    have := Nat.lt_of_lt_of_le (Path.parent?_length_lt h) (Path.bare_length_le path)
    if (disk.find parent).toBool then [path] else disk.missingDown parent ++ [path]
termination_by path.length

/-- Makes the last directory of a path, where the others lead to a place. One that is there is
left as it is. -/
def makeLast (disk : Disk) (place : Place) (path : Text) : Except WriteError (Disk × Place) :=
  let name := Path.lastName path
  if path.contains '\x00' then .error .invalidName
  else if longestPath < byteLength path then .error .nameTooLong
  else
    match disk.node? place with
    | none => .error .missing
    | some .directory =>
      if name = [] ∨ name = ['.'] then .ok (disk, place)
      else if name = ['.', '.'] then .ok (disk, place.tail)
      else if longestName < byteLength name then .error .nameTooLong
      else
        match disk.node? (name :: place) with
        | none => .ok (disk.put (name :: place) .directory, name :: place)
        | some .directory => .ok (disk, name :: place)
        | some _ => .error .isFile
    | some _ => .error .notDirectory

/-- Makes the directories of a list of paths, each a step further than the one before. A dot
behind a step asks for nothing, and a file in the way is an obstacle only to what comes behind
it. -/
def makeDown (disk : Disk) (place : Place) (paths : List Text) : Except WriteError Disk :=
  match paths with
  | [] => .ok disk
  | path :: further =>
    have := (List.dropWhile_suffix (l := further) (Path.lastName · == ['.'])).length_le
    match disk.makeLast place path with
    | .ok (disk, place) => disk.makeDown place (further.dropWhile (Path.lastName · == ['.']))
    | .error .isFile =>
      if further.isEmpty then .error .isFile
      else
        disk.makeDown (Path.lastName path :: place)
          (further.dropWhile (Path.lastName · == ['.']))
    | .error e => .error e
termination_by paths.length

/-- Makes a directory and all those above it that are missing. Each of them takes room on the
stack, and `limit` is the number that the caller has room for. -/
def makeDirectory (disk : Disk) (limit : Nat) (path : Text) : Except WriteError Disk :=
  let paths := disk.missingDown path
  if limit < paths.length then .error .tooDeep
  else
    match (paths.head?.bind fun farthest => Path.parent? (Path.bare farthest)).map disk.locate with
    | none => disk.makeDown (disk.start path) paths
    | some (.ok place) => disk.makeDown place paths
    | some (.error _) => .error .missing

def openForWriting (disk : Disk) (path : Text) : Except WriteError Disk :=
  match disk.find path with
  | .ok .directory => .error .isDirectory
  | .ok _ => .ok disk
  | .error .missing =>
    match disk.locate (Path.directory path) with
    | .ok place => .ok (disk.put (Path.name path :: place) (.file .empty))
    | .error _ => .error .missing
  | .error .nameTooLong => .error .nameTooLong
  | .error .invalidName => .error .invalidName
  | .error _ => .error .notDirectory

end Disk
end EditorConfig
