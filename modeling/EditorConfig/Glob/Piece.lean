import EditorConfig.Text.Letter
import EditorConfig.Glob.NumericRange

/-! Globs, read as a list of pieces of a regular expression. The contents of a class are read
like everything else, so what a piece means is settled only by the expression as a whole. -/
namespace EditorConfig.Glob

inductive Piece where
  /-- A character that stands for itself. -/
  | plain (c : Char)
  /-- A character behind a backslash. -/
  | quoted (c : Char)
  /-- A character that is written as it is and takes the meaning it has there. -/
  | bare (c : Char)
  | anyText
  | anyName
  | anyChar
  | openClass (negated : Bool)
  | openChoice
  | nextChoice
  | closeChoice
  /-- A separator, or two with any directories between them. -/
  | anyDirectories
  | number (bounds : Bounds)
  deriving DecidableEq, Repr

def isPlain (c : Char) : Bool :=
  c == ' ' || c == '_' || c == '-' || Text.isLetter c || Text.isDigit c

def isSpecial (c : Char) : Bool := "\t\n\x0b\x0c\r #$&()*+-.?[\\]^\x7b|\x7d~".toList.contains c

def Piece.text : Piece → Text
  | .plain c => if isPlain c then [c] else if c = '\n' then ['\\', 'n'] else ['\\', c]
  | .quoted c => if isSpecial c then ['\\', c] else [c]
  | .bare c => [c]
  | .anyText => ".*".toList
  | .anyName => "[^/]*".toList
  | .anyChar => ".".toList
  | .openClass negated => if negated then "[^".toList else "[".toList
  | .openChoice => "(?:".toList
  | .nextChoice => "|".toList
  | .closeChoice => ")".toList
  | .anyDirectories => "(?:/|/.*/)".toList
  | .number _ => "([0-9]+)".toList

def Piece.bounds? : Piece → Option Bounds
  | .number bounds => some bounds
  | _ => none

/-- Cuts at the first `stop` that no backslash precedes, unless an `avoid` comes before it. -/
def cut? (stop avoid : Char) : Bool → Text → Option (Text × Text)
  | _, [] => none
  | true, c :: rest => (cut? stop avoid false rest).map fun (u, v) => (c :: u, v)
  | false, c :: rest =>
    if c = stop then some ([], rest)
    else if c = avoid then none
    else (cut? stop avoid (c == '\\') rest).map fun (u, v) => (c :: u, v)

theorem cut?_eq_append {stop avoid : Char} {escaped : Bool} {text u v : Text}
    (h : cut? stop avoid escaped text = some (u, v)) : text = u ++ stop :: v := by
  fun_induction cut? stop avoid escaped text generalizing u v <;> simp_all
  all_goals grind

def countUnescaped (c : Char) : Bool → Text → Nat
  | _, [] => 0
  | true, _ :: rest => countUnescaped c false rest
  | false, d :: rest => (if d = c then 1 else 0) + countUnescaped c (d == '\\') rest

/-- A class never spans a separator, so a bracket opens one only if an unescaped closing bracket
comes before any unescaped separator. -/
def opensClass (rest : Text) : Bool := (cut? ']' '/' false rest).isSome

/-- What `c` means in front of `rest` where braces and commas are text, and what is left to
read. -/
def piecesAt (c : Char) (rest : Text) : List Piece × Text :=
  match c, rest with
  | '\\', [] => ([], [])
  | '\\', d :: rest => ([.quoted d], rest)
  | '*', '*' :: rest => ([.anyText], rest)
  | '*', rest => ([.anyName], rest)
  | '?', rest => ([.anyChar], rest)
  | '[', rest =>
    if opensClass rest then
      match rest with
      | '!' :: rest | '^' :: rest => ([.openClass true], rest)
      | rest => ([.openClass false], rest)
    else ([.quoted '['], rest)
  | ']', rest => ([.bare ']'], rest)
  | '{', rest => ([.quoted '{'], rest)
  | ',', rest => ([.bare ','], rest)
  | '/', '*' :: '*' :: '/' :: rest => ([.anyDirectories], rest)
  | '/', rest => ([.bare '/'], rest)
  | '}', rest => ([.bare '}'], rest)
  | c, rest => ([.plain c], rest)

theorem piecesAt_length_le (c : Char) (rest : Text) :
    (piecesAt c rest).2.length ≤ rest.length := by
  unfold piecesAt
  repeat' split
  all_goals simp <;> omega

def literalBraces : Text → List Piece
  | [] => []
  | c :: rest =>
    have := piecesAt_length_le c rest
    (piecesAt c rest).1 ++ literalBraces (piecesAt c rest).2
termination_by text => text.length

def braced (body : Text) : List Piece :=
  match Bounds.ofText? body with
  | some bounds => [.number bounds]
  | none => .quoted '{' :: (literalBraces body ++ [.quoted '}'])

/-- The pieces of a glob inside of `depth` choices. An unescaped brace that is not the first of a
pair without commas opens a choice if the braces of the glob are balanced. Spaces behind the
comma of a choice are dropped. -/
def piecesFrom (balanced : Bool) (depth : Nat) (text : Text) : List Piece :=
  match text with
  | [] => []
  | c :: rest =>
    if c = '{' then
      match h : cut? '}' ',' false rest with
      | some (body, rest') =>
        have : rest'.length ≤ rest.length := by
          have := congrArg List.length (cut?_eq_append h)
          simp at this
          omega
        braced body ++ piecesFrom balanced depth rest'
      | none =>
        if balanced then .openChoice :: piecesFrom balanced (depth + 1) rest
        else .quoted '{' :: piecesFrom balanced depth rest
    else if c = ',' && depth != 0 then
      have : (rest.dropWhile (· == ' ')).length ≤ rest.length :=
        (List.dropWhile_suffix _).length_le
      .nextChoice :: piecesFrom balanced depth (rest.dropWhile (· == ' '))
    else if c = '}' && depth != 0 then
      .closeChoice :: piecesFrom balanced (depth - 1) rest
    else
      have := piecesAt_length_le c rest
      (piecesAt c rest).1 ++ piecesFrom balanced depth (piecesAt c rest).2
termination_by text.length

def pieces (glob : Text) : List Piece :=
  piecesFrom (countUnescaped '{' false glob == countUnescaped '}' false glob) 0 glob

end EditorConfig.Glob
