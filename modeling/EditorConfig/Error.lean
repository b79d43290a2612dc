import EditorConfig.Text.Basic

/-! The causes for which an operation gives no answer, and what is said about them. -/
namespace EditorConfig

inductive ReadError where
  | missing
  | isDirectory
  | notDirectory
  | invalidName
  | nameTooLong
  | denied
  | notText
  deriving DecidableEq, Repr

inductive Error where
  /-- A number has more digits than `Numeral.maxDigits`. -/
  | numeralTooLong
  /-- A numeric range has no group of the expression to check. -/
  | missingGroup
  /-- The choices of a pattern are nested too deep. -/
  | tooDeep
  | invalidPattern (pattern : Text)
  | malformed (lines : List Text) (path : Option Text)
  | newerVersion (required : Text)
  | unreadable (cause : ReadError)
  deriving DecidableEq, Repr

def currentVersion : Text := "0.12.0-final".toList

def malformedMessage (lines : List Text) (path : Option Text) : Text :=
  "Malformed lines".toList ++
    (match path with
      | some (c :: rest) => " in ".toList ++ c :: rest
      | _ => []) ++
    ":\n".toList ++ ['\n'].intercalate lines

def Error.message : Error → Option Text
  | .numeralTooLong => none
  | .missingGroup => some "no such group".toList
  | .tooDeep => none
  | .invalidPattern pattern => some ("Invalid pattern '".toList ++ pattern ++ ['\''])
  | .malformed lines path => some (malformedMessage lines path)
  | .newerVersion required =>
    some ("Required version ".toList ++ required ++
      " is greater than the current version ".toList ++ currentVersion)
  | .unreadable _ => none

def ReadError.kind : ReadError → Text
  | .missing => "no such file".toList
  | .isDirectory => "is a directory".toList
  | .notDirectory => "not a directory".toList
  | .invalidName => "not a file name".toList
  | .nameTooLong => "name too long".toList
  | .denied => "permission denied".toList
  | .notText => "not in UTF-8".toList

def Error.kind : Error → Text
  | .numeralTooLong => "number too long".toList
  | .missingGroup => "no such group".toList
  | .tooDeep => "nested too deep".toList
  | .invalidPattern _ => "invalid pattern".toList
  | .malformed _ _ => "malformed lines".toList
  | .newerVersion _ => "newer version".toList
  | .unreadable cause => cause.kind

def Error.inFile (path : Text) : Error → Error
  | .malformed lines _ => .malformed lines (some path)
  | error => error

end EditorConfig
