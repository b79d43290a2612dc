import EditorConfig.Glob.Piece
import Mathlib.Computability.Language

/-! The language of globs as it is declared: terms, how they are written, and the paths they
stand for. Nothing here refers to regular expressions. -/
namespace EditorConfig.Glob

inductive Member where
  | single (c : Char)
  | span (first last : Char) (ordered : first ≤ last)

def Member.text : Member → Text
  | .single c => ['\\', c]
  | .span first last _ => ['\\', first, '-', '\\', last]

def Member.Has : Member → Char → Prop
  | .single d, c => c = d
  | .span first last _, c => first ≤ c ∧ c ≤ last

inductive Atom where
  | literal (c : Char)
  | anyChar
  | anyName
  | anyText
  | separator
  | anyDirectories
  | oneOf (negated : Bool) (first : Member) (others : List Member)

def Atom.text : Atom → Text
  | .literal c => ['\\', c]
  | .anyChar => ['?']
  | .anyName => ['*']
  | .anyText => ['*', '*']
  | .separator => ['/']
  | .anyDirectories => ['/', '*', '*', '/']
  | .oneOf negated first others =>
    '[' :: (if negated then ['!'] else []) ++ (first :: others).flatMap Member.text ++ [']']

def Atom.language : Atom → Language Char
  | .literal c => {p | p = [c]}
  | .anyChar => {p | ∃ c, p = [c]}
  | .anyName => {p | '/' ∉ p}
  | .anyText => {_p | True}
  | .separator => {p | p = ['/']}
  | .anyDirectories => {p | p = ['/'] ∨ ∃ s, p = '/' :: s ++ ['/']}
  | .oneOf negated first others =>
    {p | ∃ c, p = [c] ∧ (negated = true ↔ ¬ ∃ member ∈ first :: others, member.Has c)}

/-- How many calls it takes to read the expression of a part. Any directories are written as a
group with a repetition in it. -/
def Atom.calls : Atom → Nat
  | .literal _ | .anyChar | .separator | .oneOf _ _ _ => 0
  | .anyName | .anyText => 1
  | .anyDirectories => 3

/-- A glob: parts one after the other. A choice has two alternatives at least, each a glob. -/
inductive Term where
  | empty
  | atom (a : Atom) (rest : Term)
  | choice (n : Nat) (alternative : Fin (n + 2) → Term) (rest : Term)

namespace Term

def text : Term → Text
  | .empty => []
  | .atom a rest => a.text ++ rest.text
  | .choice _ alternative rest =>
    '{' :: [','].intercalate (List.ofFn fun i => (alternative i).text) ++ '}' :: rest.text

def anyOf {ι : Type} (f : ι → Language Char) : Language Char := {p | ∃ i, p ∈ f i}

def language : Term → Language Char
  | .empty => 1
  | .atom a rest => a.language * rest.language
  | .choice _ alternative rest => anyOf (fun i => (alternative i).language) * rest.language

/-- How many calls inside of one another it takes to read the expression of a glob. -/
def calls : Term → Nat
  | .empty => 0
  | .atom a rest => max a.calls rest.calls
  | .choice _ alternative rest =>
    max ((List.ofFn fun i => (alternative i).calls).foldr max 0 + 2) rest.calls

/-- What may not stand directly behind a part, because the two would be read as another part. -/
def Merges : Atom → Term → Prop
  | .anyName, .atom .anyName _ | .anyName, .atom .anyText _ => True
  | .anyText, .atom .anyName _ | .anyText, .atom .anyText _ => True
  | .separator, .atom .anyText (.atom .separator _) => True
  | .separator, .atom .anyText (.atom .anyDirectories _) => True
  | _, _ => False

def Separated : Term → Prop
  | .empty => True
  | .atom a rest => ¬ Merges a rest ∧ rest.Separated
  | .choice _ alternative rest => (∀ i, (alternative i).Separated) ∧ rest.Separated

end Term
end EditorConfig.Glob
