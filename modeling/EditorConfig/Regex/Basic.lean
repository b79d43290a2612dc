import EditorConfig.Text.Basic

/-! Regular expressions and the search for a match of a whole text. The search is ordered: a
repetition takes as much as it can, a choice takes its first branch, and the first way through
that reaches the end of the text decides what the groups hold. -/
namespace EditorConfig

inductive ClassItem where
  | one (c : Char)
  | span (first last : Char)
  deriving DecidableEq, Repr

def ClassItem.has : ClassItem → Char → Bool
  | .one d, c => c == d
  | .span first last, c => first ≤ c && c ≤ last

inductive CharSet where
  | exactly (c : Char)
  | notNewline
  | oneOf (items : List ClassItem)
  | noneOf (items : List ClassItem)
  deriving DecidableEq, Repr

def CharSet.has : CharSet → Char → Bool
  | .exactly d, c => c == d
  | .notNewline, c => c != '\n'
  | .oneOf items, c => items.any (·.has c)
  | .noneOf items, c => !items.any (·.has c)

inductive Regex where
  | empty
  | one (set : CharSet)
  | many (set : CharSet)
  | seq (first next : Regex)
  | either (first second : Regex)
  | group (index : Nat) (body : Regex)
  deriving DecidableEq, Repr

abbrev Captures := List (Option Text)

namespace Regex
variable {α : Type}

def groups : Regex → Nat
  | .empty | .one _ | .many _ => 0
  | .seq a b | .either a b => a.groups + b.groups
  | .group _ body => body.groups + 1

def searchMany (set : CharSet) (next : Text → Option α) : Text → Option α
  | [] => next []
  | c :: rest =>
    if set.has c then searchMany set next rest <|> next (c :: rest) else next (c :: rest)

/-- Takes a beginning of the text and goes on with what is left, in the order of the search. -/
def search : Regex → Text → Captures → (Text → Captures → Option α) → Option α
  | .empty, text, caps, next => next text caps
  | .one _, [], _, _ => none
  | .one set, c :: rest, caps, next => if set.has c then next rest caps else none
  | .many set, text, caps, next => searchMany set (next · caps) text
  | .seq a b, text, caps, next =>
    a.search text caps fun rest caps => b.search rest caps next
  | .either a b, text, caps, next => a.search text caps next <|> b.search text caps next
  | .group index body, text, caps, next =>
    body.search text caps fun rest caps =>
      next rest (caps.set index (some (text.take (text.length - rest.length))))

def fullMatch? (r : Regex) (text : Text) : Option Captures :=
  r.search text (List.replicate r.groups none) fun rest caps =>
    if rest.isEmpty then some caps else none

end Regex
end EditorConfig
