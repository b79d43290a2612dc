import EditorConfig.Glob.Piece
import EditorConfig.Regex.Written

/-! Section headers as matchers: a header is anchored to the directory of its file, read as a
glob, and written as a regular expression with one group for each numeric range. -/
namespace EditorConfig

namespace Glob

structure Expression where
  text : Text
  ranges : List NumericRange
  deriving DecidableEq, Repr

def expression (glob : Text) : Except Error Expression :=
  let ps := pieces glob
  let bounds := ps.filterMap Piece.bounds?
  if bounds.any Bounds.isTooLong then .error .numeralTooLong
  else .ok ⟨ps.flatMap Piece.text, bounds.map Bounds.range⟩

def isWildcard (c : Char) : Bool := "\\*?[]\x7b\x7d,".toList.contains c

def quote (text : Text) : Text := text.flatMap fun c => if isWildcard c then ['\\', c] else [c]

end Glob

def withSlash (directory : Text) : Text :=
  if directory.getLast? = some '/' then directory else directory ++ ['/']

/-- A header with a separator is relative to the directory; any other matches at any depth below
it. The directory itself is taken literally. -/
def Glob.anchor (pattern directory : Text) : Text :=
  quote (withSlash directory) ++
    match pattern with
    | '/' :: rest => rest
    | _ => if pattern.contains '/' then pattern else "**/".toList ++ pattern

structure Matcher where
  glob : Text
  regex : Regex
  ranges : List NumericRange
  deriving DecidableEq, Repr

namespace Matcher

def ofHeader (limit : Nat) (pattern directory : Text) : Except Error Matcher := do
  let glob := Glob.anchor pattern directory
  let expression ← Glob.expression glob
  match Regex.ofText limit expression.text with
  | .ok regex => return ⟨glob, regex, expression.ranges⟩
  | .error .invalid => throw (.invalidPattern pattern)
  | .error .tooDeep => throw .tooDeep

/-- Only the first match counts: there is no search for another with numbers in range. -/
def matches? (m : Matcher) (path : Text) : Except Error Bool :=
  match m.regex.fullMatch? path with
  | none => .ok false
  | some captures => NumericRange.acceptAll m.ranges captures

end Matcher

def headerMatches (limit : Nat) (directory pattern path : Text) : Except Error Bool := do
  (← Matcher.ofHeader limit pattern directory).matches? path

end EditorConfig
