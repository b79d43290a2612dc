import EditorConfig.Regex.Basic

/-! The written form of regular expressions, and how it is read. A backslash takes the meaning
from the character behind it, inside and outside of classes alike. Reading goes in three steps:
characters with or without meaning, then single items, then the tree. The first thing from the
left that cannot be read decides why there is no expression. -/
namespace EditorConfig.Regex

inductive Flaw where
  | invalid
  /-- Groups are nested deeper than the caller has room for on its stack. -/
  | tooDeep
  deriving DecidableEq, Repr

inductive Mark where
  | bare (c : Char)
  | quoted (c : Char)
  deriving DecidableEq, Repr

def Mark.char : Mark → Char
  | .bare c | .quoted c => c

def Mark.escaped (c : Char) : Mark := .quoted (if c = 'n' then '\n' else c)

def marks? : Text → Option (List Mark)
  | [] => some []
  | '\\' :: [] => none
  | '\\' :: c :: rest => (marks? rest).map (Mark.escaped c :: ·)
  | c :: rest => (marks? rest).map (Mark.bare c :: ·)

/-- Reads the members of a class up to the bracket that closes it. A closing bracket in the first
place is a member, and so is a hyphen in the last. Fails if the class does not end or a range
runs backwards. -/
def members? : Bool → List Mark → Option (List ClassItem × List Mark)
  | _, [] => none
  | false, .bare ']' :: rest => some ([], rest)
  | _, m :: .bare '-' :: .bare ']' :: rest => some ([.one m.char, .one '-'], rest)
  | _, m :: .bare '-' :: n :: rest =>
    if m.char ≤ n.char then
      (members? false rest).map fun (items, rest) => (.span m.char n.char :: items, rest)
    else none
  | _, m :: rest => (members? false rest).map fun (items, rest) => (.one m.char :: items, rest)

theorem members?_length_lt {first : Bool} {marks rest : List Mark} {items : List ClassItem}
    (h : members? first marks = some (items, rest)) : rest.length < marks.length := by
  fun_induction members? first marks generalizing items rest
  all_goals simp_all
  all_goals grind

inductive Item where
  | one (set : CharSet)
  | many (set : CharSet)
  | opening (capturing : Bool)
  | bar
  | closing
  | unreadable
  deriving DecidableEq, Repr

def repeated (set : CharSet) : List Mark → List Item × List Mark
  | .bare '*' :: rest => ([.many set], rest)
  | .bare '+' :: rest => ([.one set, .many set], rest)
  | rest => ([.one set], rest)

theorem repeated_length_le (set : CharSet) (marks : List Mark) :
    (repeated set marks).2.length ≤ marks.length := by
  unfold repeated
  split <;> simp

def charSet? : List Mark → Option (CharSet × List Mark)
  | .bare '[' :: .bare '^' :: rest =>
    (members? true rest).map fun (items, rest) => (.noneOf items, rest)
  | .bare '[' :: rest => (members? true rest).map fun (items, rest) => (.oneOf items, rest)
  | .bare '.' :: rest => some (.notNewline, rest)
  | .bare '*' :: _ => none
  | .bare '+' :: _ => none
  | .bare '?' :: _ => none
  | m :: rest => some (.exactly m.char, rest)
  | [] => none

theorem charSet?_length_lt {marks rest : List Mark} {set : CharSet}
    (h : charSet? marks = some (set, rest)) : rest.length < marks.length := by
  unfold charSet? at h
  split at h
  case h_1 =>
    obtain ⟨⟨items, r⟩, hm, he⟩ := Option.map_eq_some_iff.1 h
    have := members?_length_lt hm
    cases he
    simp only [List.length_cons]
    omega
  case h_2 =>
    obtain ⟨⟨items, r⟩, hm, he⟩ := Option.map_eq_some_iff.1 h
    have := members?_length_lt hm
    cases he
    simp only [List.length_cons]
    omega
  all_goals simp_all

def items (marks : List Mark) : List Item :=
  match marks with
  | [] => []
  | .bare '(' :: .bare '?' :: .bare ':' :: rest => .opening false :: items rest
  | .bare '(' :: rest => .opening true :: items rest
  | .bare '|' :: rest => .bar :: items rest
  | .bare ')' :: rest => .closing :: items rest
  | m :: rest =>
    match h : charSet? (m :: rest) with
    | none => [.unreadable]
    | some (set, rest') =>
      have : rest'.length < rest.length + 1 := charSet?_length_lt h
      have := repeated_length_le set rest'
      (repeated set rest').1 ++ items (repeated set rest').2
termination_by marks.length

/-- A group that is being read, or the whole expression: the group's number if it captures, the
branches before the last bar, and the sequence since then. -/
structure Level where
  capture : Option Nat
  branches : Option Regex
  sequence : Regex
  deriving DecidableEq, Repr

namespace Level

def start (capture : Option Nat) : Level := ⟨capture, none, .empty⟩

def push (level : Level) (r : Regex) : Level := { level with sequence := .seq level.sequence r }

def choice (level : Level) : Regex :=
  match level.branches with
  | none => level.sequence
  | some r => .either r level.sequence

def bar (level : Level) : Level := ⟨level.capture, some level.choice, .empty⟩

def close (level : Level) : Regex :=
  match level.capture with
  | none => level.choice
  | some index => .group index level.choice

end Level

/-- Builds the tree. `outer` are the groups around the current one, innermost first, and `next`
is the number of the next capturing group. A group is read by two calls inside of those that read
the groups around it, and a repetition by one; `limit` is the number of calls that the caller has
room for. -/
def tree (limit : Nat) (outer : List Level) (current : Level) (next : Nat) :
    List Item → Except Flaw Regex
  | [] => if outer.isEmpty then .ok current.close else .error .invalid
  | .one set :: items => tree limit outer (current.push (.one set)) next items
  | .many set :: items =>
    if limit < 2 * outer.length + 1 then .error .tooDeep
    else tree limit outer (current.push (.many set)) next items
  | .bar :: items => tree limit outer current.bar next items
  | .opening capturing :: items =>
    if limit < 2 * outer.length + 2 then .error .tooDeep
    else if capturing then
      tree limit (current :: outer) (Level.start (some next)) (next + 1) items
    else tree limit (current :: outer) (Level.start none) next items
  | .closing :: items =>
    match outer with
    | [] => .error .invalid
    | level :: outer => tree limit outer (level.push current.close) next items
  | .unreadable :: _ => .error .invalid

def ofText (limit : Nat) (text : Text) : Except Flaw Regex :=
  match marks? text with
  | some marks => tree limit [] (Level.start none) 0 (items marks)
  | none => .error .invalid

end EditorConfig.Regex
