import EditorConfig.Command.Logging

/-! Commands, from the words of the command line to what is printed. A command on several files
prints one block for each and ends at the first file without an answer, or with a line that
cannot be printed. -/
namespace EditorConfig.Command

inductive Trouble where
  | badUsage
  /-- An error that is told to the user. -/
  | complaint (cause : Error)
  /-- A failure that no command expects. -/
  | fault (cause : Fault)
  /-- A line is not in the encoding of the place where it is printed. -/
  | unprintable
  deriving DecidableEq, Repr

structure Answer where
  out : Text
  exitCode : Nat
  trouble : Option Trouble
  deriving DecidableEq, Repr

namespace Answer

def printed (out : Text) (exitCode : Nat) : Answer := ⟨out, exitCode, none⟩

def complained (e : Error) (exitCode : Nat) : Answer := ⟨[], exitCode, some (.complaint e)⟩

def failed (fault : Fault) : Answer := ⟨[], 1, some (.fault fault)⟩

def unprintable : Answer := ⟨[], 1, some .unprintable⟩

def after (out : Text) (a : Answer) : Answer := { a with out := out ++ a.out }

/-- Prints lines in front of an answer. A line is printed as a whole or not at all. -/
def behind (console : Console) (a : Answer) : List Text → Answer
  | [] => a
  | text :: rest =>
    if console.prints text then (behind console a rest).after (console.line text)
    else .unprintable

end Answer

/-- Errors about the files and words that were given. Any other ends the command unsaid. -/
def isComplaint : Error → Bool
  | .numeralTooLong | .missingGroup | .tooDeep | .unreadable .invalidName => false
  | _ => true

def Answer.ofError (exitCode : Nat) (e : Error) : Answer :=
  if isComplaint e then .complained e exitCode else .failed (.resolution e)

def blockLines (m : Properties) : Text :=
  ['\n'].intercalate (m.entries.map fun e => e.1 ++ '=' :: e.2)

def nameLine (file : Text) : Text := '[' :: file ++ [']']

def block (several : Bool) (file : Text) (m : Properties) : List Text :=
  (if several then [nameLine file] else []) ++ if m.entries.isEmpty then [] else [blockLines m]

def meetsDirectory (files : FileSystem) (stops : List Text) : List Text → Bool
  | [] => false
  | directory :: farther =>
    files.isDirectory directory ||
      (!stops.contains (Path.normal directory) && meetsDirectory files stops farther)

/-- The properties of a file. Where the name of the files to look for is no text, it fails as
soon as the name is needed. -/
def propertiesOf (files : FileSystem) (limits : Limits) (configName : Value) (version : Text)
    (stops : List Text) (path : Text) : Except Answer Properties :=
  match configName with
  | .text name =>
    ((Cascade.mk name version files limits).resolve .silent stops path).result.mapError
      (Answer.ofError 1)
  | _ => do
    (Version.require version).mapError (Answer.ofError 1)
    if meetsDirectory files (stops.map Path.normal) (Path.ancestors path) then
      throw (.failed (.settings .wrongType))
    return .empty

def printBlocks (console : Console) (several : Bool)
    (properties : Text → Except Answer Properties) : List Text → Answer
  | [] => .printed [] 0
  | file :: rest =>
    match properties file with
    | .error answer => answer
    | .ok m => (printBlocks console several properties rest).behind console (block several file m)

def canonical (w : World) (path : Text) : Except Fault Text :=
  match Path.canonical? w.workingDirectory (Settings.home w.environment) path with
  | some path => .ok path
  | none => .error .invalidName

def runResolve (w : World) (files : List Text) (configName version : Option Text)
    (stops : List Text) : Except Fault Answer := do
  let loaded ← w.settings
  let name ←
    match configName with
    | some (c :: rest) => pure (Value.text (c :: rest))
    | _ => (Settings.configName loaded).mapError Fault.settings
  let usual ← (Settings.stopDirectories w.environment loaded).mapError Fault.settings
  let stops ← (usual ++ stops).mapM (canonical w)
  let properties (file : Text) := do
    propertiesOf w.disk.fileSystem w.host.limits name (version.getD currentVersion) stops
      (← (canonical w file).mapError Answer.failed)
  return printBlocks w.host.console (1 < files.length) properties files

def runCheck (w : World) (directory pattern path : Text) : Except Fault Answer := do
  match headerMatches w.host.checkLimit (← canonical w directory) pattern
      (← canonical w path) with
  | .ok true => return (Answer.printed [] 0).behind w.host.console ["true".toList]
  | .ok false => return (Answer.printed [] 1).behind w.host.console ["false".toList]
  | .error e => return .ofError 2 e

def versionLine : Text := "EditorConfig Python Core Version ".toList ++ currentVersion

def usageLine : Text := "Usage: edconf [resolve | match | version] ...\n".toList

def Answer.errorText (a : Answer) : Text :=
  match a.trouble with
  | none => []
  | some .badUsage => usageLine
  | some (.complaint cause) => "Error: ".toList ++ cause.message.getD cause.kind ++ ['\n']
  | some (.fault cause) => "edconf: ".toList ++ cause.kind ++ ['\n']
  | some .unprintable => "edconf: not in the encoding of the output\n".toList

def Answer.ofRefusal : Refusal → Answer
  | .help => .printed usageLine 0
  | .badUsage => ⟨[], 2, some .badUsage⟩
  | .invalidName => .failed .invalidName

def Answer.ofExcept : Except Fault Answer → Answer
  | .ok answer => answer
  | .error fault => .failed fault

def Request.run (w : World) : Request → Answer
  | .resolve files configName version stops =>
    .ofExcept (runResolve w files configName version stops)
  | .check directory pattern path => .ofExcept (runCheck w directory pattern path)
  | .showVersion => (Answer.printed [] 0).behind w.host.console [versionLine]

/-- A command line's answer and its log. The log is opened once the command is known, before its
words are looked at. -/
def run (w : World) (words : List Text) : Answer × Log :=
  match w.host.parser.command words with
  | .error refusal => (.ofRefusal refusal, .unopened w)
  | .ok (name, rest) =>
    let log := Log.open w
    match log.fault with
    | some fault => (.failed fault, log)
    | none =>
      match w.host.parser.request name rest with
      | .error refusal => (.ofRefusal refusal, log)
      | .ok request => (request.run { w with disk := log.disk }, log)

end EditorConfig.Command
