import EditorConfig.Command.Host

/-! How a command sets up its log: the level that is logged, and the file. -/
namespace EditorConfig.Command

inductive Level where
  | debug
  | info
  | warning
  | error
  | critical
  deriving DecidableEq, Repr

namespace Level

def name : Level → Text
  | .debug => "DEBUG".toList
  | .info => "INFO".toList
  | .warning => "WARNING".toList
  | .error => "ERROR".toList
  | .critical => "CRITICAL".toList

def upper (c : Char) : Char := if c = 'ı' then 'I' else c.toUpper

def ofName (text : Text) : Level :=
  ([debug, info, warning, error, critical].find? (·.name = text.map upper)).getD .warning

end Level

inductive Fault where
  | settings (cause : SettingsError)
  /-- The level is given by a value that is no text. -/
  | levelNotText
  | log (cause : Disk.WriteError)
  | resolution (cause : Error)
  | invalidName
  deriving DecidableEq, Repr

def Fault.kind : Fault → Text
  | .settings .notText => "settings not in UTF-8".toList
  | .settings .numeralTooLong => "number too long in settings".toList
  | .settings .wrongType => "wrong kind of value in settings".toList
  | .settings .missingKey => "missing key in settings".toList
  | .settings .tooDeep => "settings nested too deep".toList
  | .settings .nameTooLong => "name too long".toList
  | .settings .invalidName => "not a file name".toList
  | .levelNotText => "log level is no text".toList
  | .log .isFile => "log directory is a file".toList
  | .log .isDirectory => "log file is a directory".toList
  | .log .notDirectory => "log directory is below a file".toList
  | .log .missing => "no such directory for the log".toList
  | .log .invalidName | .invalidName => "not a file name".toList
  | .log .nameTooLong => "name too long".toList
  | .log .tooDeep => "log directory nested too deep".toList
  | .resolution cause => cause.kind

structure World where
  environment : Environment
  workingDirectory : Text
  disk : Disk
  host : Host

def World.get? (w : World) (name : Text) : Option Text :=
  (Entries.get? name w.environment).filter (· ≠ [])

def World.settings (w : World) : Except Fault Settings.Loaded :=
  (Settings.loadWith w.host.readDocument w.environment w.disk).mapError .settings

def chosenLevel (w : World) : Except Fault Level := do
  let named ←
    match w.get? "EDCONF_DEBUG_LEVEL".toList with
    | some text => pure (Value.text text)
    | none => (Settings.verbosity (← w.settings)).mapError Fault.settings
  match named with
  | .text text =>
    return if (w.get? "EDCONF_DEBUG".toList).isSome then .debug else .ofName text
  | _ => throw .levelNotText

def openLog (w : World) : Except Fault (Option Text × Disk) := do
  let directory ← (Settings.loggerPath w.environment (← w.settings)).mapError Fault.settings
  if directory.isEmpty then return (none, w.disk)
  let file := Path.join directory "edconf.log".toList
  let file := Path.absolute w.workingDirectory file
  let disk ← ((w.disk.makeDirectory w.host.makeLimit directory).bind
    (·.openForWriting file)).mapError Fault.log
  return (some file, disk)

structure Log where
  level : Level
  file : Option Text
  fault : Option Fault
  disk : Disk

def Log.unopened (w : World) : Log := ⟨.warning, none, none, w.disk⟩

def Log.open (w : World) : Log :=
  match chosenLevel w with
  | .error fault => ⟨.warning, none, some fault, w.disk⟩
  | .ok level =>
    match openLog w with
    | .error fault => ⟨level, none, some fault, w.disk⟩
    | .ok (file, disk) => ⟨level, file, none, disk⟩

end EditorConfig.Command
