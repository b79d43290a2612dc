import EditorConfig.Glob.Matcher
import EditorConfig.Text.Line
import EditorConfig.Text.LowerCase

/-! The lines of a file: comments, section headers and options. -/
namespace EditorConfig

inductive Statement where
  /-- A blank line, a comment, or a line that an observer stopped. -/
  | skipped
  /-- The pattern of a header, and its line as written. -/
  | header (pattern line : Text)
  | option (key value : Text)
  | malformed (line : Text)
  deriving DecidableEq, Repr

namespace Statement

def isCommentMark (c : Char) : Bool := c == '#' || c == ';'

/-- What stands before the first comment mark that is not directly behind a backslash. -/
def beforeComment : Bool → Text → Text
  | _, [] => []
  | behindBackslash, c :: rest =>
    if isCommentMark c && !behindBackslash then [] else c :: beforeComment (c == '\\') rest

def beforeLast? (mark : Char) : Text → Option Text
  | [] => none
  | c :: rest =>
    match beforeLast? mark rest with
    | some start => some (c :: start)
    | none => if c = mark then some [] else none

def unescapeMarks : Text → Text
  | [] => []
  | '\\' :: c :: rest =>
    if isCommentMark c then c :: unescapeMarks rest else '\\' :: unescapeMarks (c :: rest)
  | c :: rest => c :: unescapeMarks rest

/-- The pattern of a header. It reaches to the last closing bracket in front of a comment. -/
def pattern? : Text → Option Text
  | '[' :: rest =>
    match beforeLast? ']' (beforeComment false rest) with
    | some (c :: body) => some (unescapeMarks (c :: body))
    | _ => none
  | _ => none

def isSeparator (c : Char) : Bool := c == ':' || c == '='

/-- The key and the value of an option. Keys are in lower case, and two quotes are an empty
value. -/
def option? (line : Text) : Option (Text × Text) :=
  match line.takeWhile (!isSeparator ·), line.dropWhile (!isSeparator ·) with
  | c :: key, _ :: rest =>
    let value := Text.trimStart rest
    some (Text.lower (Text.trim (c :: key)), if value = ['"', '"'] then [] else value)
  | _, _ => none

/-- Reads a line without white space around it. A header counts only if its pattern can be made
out; fails if a number in it is too long or there is no room for its groups. -/
def read (limit : Nat) (line : Text) : Except Error Statement :=
  if line.isEmpty || line.head?.any isCommentMark then .ok .skipped
  else
    match pattern? line with
    | some pattern =>
      match Matcher.ofHeader limit pattern ['/'] with
      | .ok _ => .ok (.header pattern line)
      | .error (.invalidPattern _) => .ok (.malformed line)
      | .error e => .error e
    | none =>
      match option? line with
      | some (key, value) => .ok (.option key value)
      | none => .ok (.malformed line)

def malformed? : Statement → Option Text
  | .malformed line => some line
  | _ => none

end Statement

/-- Cuts a value at the first semicolon behind a space, or if there is none at the first number
sign behind one. -/
def withoutComment (value : Text) : Text :=
  ((Text.before? [' ', ';'] value).or (Text.before? [' ', '#'] value)).getD value

end EditorConfig
