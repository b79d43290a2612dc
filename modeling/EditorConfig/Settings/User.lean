import EditorConfig.FileSystem.Disk
import EditorConfig.Settings.Toml.Document

/-! A user's settings: where they are kept, how they are read, and what they say. A file that
cannot be opened or is no document is reported and leaves the default settings. -/
namespace EditorConfig

abbrev Environment := List (Text × Text)

inductive SettingsError where
  /-- The file is not in UTF-8. -/
  | notText
  | numeralTooLong
  /-- Values are nested too deep. -/
  | tooDeep
  /-- A path is longer than any name of a file. -/
  | nameTooLong
  /-- A path begins with a name that no user may have. -/
  | invalidName
  /-- A value is not of a kind that can be used in its place. -/
  | wrongType
  | missingKey
  deriving DecidableEq, Repr

namespace Settings

def home (env : Environment) : Text := (Entries.get? "HOME".toList env).getD []

def homeDirectory (env : Environment) : Text := Path.underHome (home env) []

def defaults (env : Environment) : Table :=
  [("logger".toList, .table [
      ("verbosity".toList, .text "WARNING".toList),
      ("path".toList, .text (Path.tidy (Path.join (homeDirectory env) ".edconf".toList)))]),
    ("resolver".toList, .table [
      ("config_filename".toList, .text ".editorconfig".toList),
      ("stop_dirs".toList, .list [])])]

def look (disk : Disk) (path : Text) : Except SettingsError (Option Node) :=
  match disk.find path with
  | .ok node => .ok (some node)
  | .error .nameTooLong => .error .nameTooLong
  | .error _ => .ok none

def below? (env : Environment) (disk : Disk) (variableName : Text) (names : List Text) :
    Except SettingsError (Option Text) :=
  match Entries.get? variableName env with
  | none => .ok none
  | some directory =>
    let path := Path.tidy (names.foldl Path.join directory)
    (look disk path).map fun node => node.map fun _ => path

def path (env : Environment) (disk : Disk) : Except SettingsError Text := do
  if let some path ← below? env disk "EDCONF_CONFIG_DIR".toList ["edconfrc".toList] then
    return path
  if let some path ←
      below? env disk "XDG_CONFIG_HOME".toList ["edconf".toList, "edconfrc".toList] then
    return path
  return Path.tidy (Path.join (homeDirectory env) ".edconfrc".toList)

structure Loaded where
  table : Table
  warned : Bool

def ofBytes (read : Text → Except Toml.ReadFailure Table) (defaults : Table) (bytes : ByteArray) :
    Except SettingsError Loaded :=
  match String.fromUTF8? bytes with
  | none => .error .notText
  | some text =>
    match read text.toList with
    | .ok table => .ok ⟨Value.overrideAll defaults table, false⟩
    | .error .invalid => .ok ⟨defaults, true⟩
    | .error .numeralTooLong => .error .numeralTooLong
    | .error .tooDeep => .error .tooDeep

def loadWith (read : Text → Except Toml.ReadFailure Table) (env : Environment) (disk : Disk) :
    Except SettingsError Loaded := do
  match ← look disk (← path env disk) with
  | none => return ⟨defaults env, false⟩
  | some (.file bytes) => ofBytes read (defaults env) bytes
  | some _ => return ⟨defaults env, true⟩

def load (limit : Nat) : Environment → Disk → Except SettingsError Loaded :=
  loadWith (Toml.read limit)

def lookup (k : Text) : Value → Except SettingsError Value
  | .table entries =>
    match Entries.get? k entries with
    | some value => .ok value
    | none => .error .missingKey
  | _ => .error .wrongType

def lookupIn (group k : Text) (loaded : Loaded) : Except SettingsError Value :=
  lookup group (.table loaded.table) >>= lookup k

def expanded (env : Environment) : Value → Except SettingsError Text
  | .text t =>
    match Path.expandHome? (home env) t with
    | some path => .ok path
    | none => .error .invalidName
  | _ => .error .wrongType

def members : Value → Except SettingsError (List Value)
  | .list items => .ok items
  | .text t => .ok (t.map fun c => .text [c])
  | .table entries => .ok (entries.map fun e => .text e.1)
  | _ => .error .wrongType

def verbosity (loaded : Loaded) : Except SettingsError Value :=
  lookupIn "logger".toList "verbosity".toList loaded

def loggerPath (env : Environment) (loaded : Loaded) : Except SettingsError Text :=
  lookupIn "logger".toList "path".toList loaded >>= expanded env

def configName (loaded : Loaded) : Except SettingsError Value :=
  lookupIn "resolver".toList "config_filename".toList loaded

def stopDirectories (env : Environment) (loaded : Loaded) : Except SettingsError (List Text) := do
  let value ← lookupIn "resolver".toList "stop_dirs".toList loaded
  (← members value).mapM (expanded env)

end Settings
end EditorConfig
