import EditorConfig.Text.Basic

/-! The words of a command line. The command itself asks a parser for its name and its request; the
standard parser takes the value of an option from behind an equals sign, from the rest of the
word, or from the next word, whatever that is, and two hyphens end the options. -/
namespace EditorConfig.Command

inductive ValueOption where
  | configName
  | version
  | stopDirectory
  deriving DecidableEq, Repr

structure Spelling where
  option : ValueOption
  long : Text
  short : Option Char

inductive Refusal where
  /-- Help was asked for instead. -/
  | help
  | badUsage
  /-- A path cannot be the name of anything. -/
  | invalidName
  deriving DecidableEq, Repr

structure Given where
  values : List (ValueOption × Text)
  words : List Text
  help : Bool
  deriving DecidableEq, Repr

namespace Given

def nothing : Given := ⟨[], [], false⟩

def withValue (option : ValueOption) (value : Text) (g : Given) : Given :=
  { g with values := (option, value) :: g.values }

def withWord (word : Text) (g : Given) : Given := { g with words := word :: g.words }

def withHelp (g : Given) : Given := { g with help := true }

def all (g : Given) (option : ValueOption) : List Text :=
  (g.values.filter (·.1 = option)).map Prod.snd

def last? (g : Given) (option : ValueOption) : Option Text := (g.all option).getLast?

end Given

def cutAtEquals (word : Text) : Text × Option Text :=
  match word.span (· != '=') with
  | (name, _ :: value) => (name, some value)
  | (name, []) => (name, none)

def isOption : Text → Bool
  | '-' :: _ :: _ => true
  | _ => false

inductive Word where
  | plain
  | endOfOptions
  | help
  /-- An option, with its value if the word holds it. -/
  | option (option : ValueOption) (value : Option Text)
  | unknown
  deriving DecidableEq, Repr

def Word.ofText (spellings : List Spelling) (word : Text) : Word :=
  if word = "--".toList then .endOfOptions
  else if !isOption word then .plain
  else
    let (name, value) := cutAtEquals word
    if name = "--help".toList then (if value.isSome then .unknown else .help)
    else
      match spellings.find? (·.long = name), word with
      | some s, _ => .option s.option value
      | none, '-' :: '-' :: _ => .unknown
      | none, '-' :: c :: attached =>
        match spellings.find? (·.short = some c) with
        | some s => .option s.option (if attached = [] then none else some attached)
        | none => .unknown
      | none, _ => .unknown

def sortWords (spellings : List Spelling) : List Text → Except Refusal Given
  | [] => .ok .nothing
  | word :: rest =>
    match Word.ofText spellings word with
    | .plain => (sortWords spellings rest).map (·.withWord word)
    | .endOfOptions => .ok { Given.nothing with words := rest }
    | .help => (sortWords spellings rest).map (·.withHelp)
    | .option o (some value) => (sortWords spellings rest).map (·.withValue o value)
    | .option o none =>
      match rest with
      | value :: rest => (sortWords spellings rest).map (·.withValue o value)
      | [] => .error .badUsage
    | .unknown => .error .badUsage

def leadingWords : List Text → Except Refusal (Bool × List Text)
  | [] => .ok (false, [])
  | word :: rest =>
    match Word.ofText [] word with
    | .plain => .ok (false, word :: rest)
    | .endOfOptions => .ok (false, rest)
    | .help => (leadingWords rest).map fun (_, rest) => (true, rest)
    | _ => .error .badUsage

def commandName (words : List Text) : Except Refusal (Text × List Text) := do
  match ← leadingWords words with
  | (true, _) => throw .help
  | (false, name :: rest) => return (name, rest)
  | (false, []) => throw .badUsage

inductive Request where
  | resolve (files : List Text) (configName : Option Text) (version : Option Text)
      (stops : List Text)
  | check (directory pattern path : Text)
  | showVersion
  deriving DecidableEq, Repr

def resolveSpellings : List Spelling :=
  [⟨.configName, "--config-filename".toList, some 'f'⟩,
    ⟨.version, "--version".toList, some 'b'⟩,
    ⟨.stopDirectory, "--stop-dir".toList, none⟩]

def pathWord (word : Text) : Except Refusal Text :=
  if word.contains '\x00' then .error .invalidName else .ok word

inductive Name where
  | resolve
  | check
  | showVersion
  deriving DecidableEq, Repr

def Name.ofText? (name : Text) : Option Name :=
  if name = "resolve".toList then some .resolve
  else if name = "match".toList then some .check
  else if name = "version".toList then some .showVersion
  else none

def Request.ofWords (name : Name) (words : List Text) : Except Refusal Request := do
  match name with
  | .resolve =>
    let g ← sortWords resolveSpellings words
    if g.help then throw .help
    let stops ← (g.all .stopDirectory).mapM pathWord
    if g.words.isEmpty then throw .badUsage
    return .resolve (← g.words.mapM pathWord) (g.last? .configName) (g.last? .version) stops
  | .check =>
    let g ← sortWords [] words
    if g.help then throw .help
    match g.words with
    | directory :: pattern :: path :: more =>
      let request := Request.check (← pathWord directory) pattern (← pathWord path)
      if more.isEmpty then return request else throw .badUsage
    | directory :: _ => let _ ← pathWord directory; throw .badUsage
    | [] => throw .badUsage
  | .showVersion =>
    let g ← sortWords [] words
    if g.help then throw .help
    if g.words.isEmpty then return .showVersion else throw .badUsage

/-- How command lines are taken apart: the command with the words behind its name, and then the
request that these words make of it. -/
structure Parser where
  command : List Text → Except Refusal (Name × List Text)
  request : Name → List Text → Except Refusal Request

def Parser.standard : Parser where
  command words := do
    let (name, rest) ← commandName words
    match Name.ofText? name with
    | some name => return (name, rest)
    | none => throw .badUsage
  request := Request.ofWords

end EditorConfig.Command
