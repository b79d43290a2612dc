import EditorConfig.Proofs.Regex.Reading

/-! Groups of an expression, as they are opened and closed between its items. Main statement: an
expression whose bars all stand inside of groups is one sequence, with no branch behind the
first. -/
namespace EditorConfig.Regex
variable {limit : Nat}

/-- Every bar stands inside of a group, where `depth` groups are open at the start. -/
def BarsInside : Nat → List Item → Prop
  | _, [] => True
  | depth, .opening _ :: items => BarsInside (depth + 1) items
  | depth, .closing :: items => BarsInside (depth - 1) items
  | depth, .bar :: items => 0 < depth ∧ BarsInside depth items
  | depth, _ :: items => BarsInside depth items

def bottom : List Level → Level → Level
  | [], current => current
  | level :: outer, _ => bottom outer level

structure Level.IsStraight (level : Level) : Prop extends level.IsBase where
  branches : level.branches = none

namespace Level

theorem IsStraight.start : (start none).IsStraight := ⟨.start, rfl⟩

theorem IsStraight.push {level : Level} (h : level.IsStraight) (r : Regex) :
    (level.push r).IsStraight :=
  ⟨h.toIsBase.push r, h.branches⟩

theorem IsStraight.close {level : Level} (h : level.IsStraight) : level.close.IsSequence := by
  rw [Level.close, h.capture, choice, h.branches]
  exact h.sequence

end Level

/-- What is pushed onto the current level leaves the whole expression straight. -/
theorem isStraight_bottom_push {outer : List Level} {current : Level}
    (h : (bottom outer current).IsStraight) (r : Regex) :
    (bottom outer (current.push r)).IsStraight := by
  cases outer with
  | nil => exact h.push r
  | cons level outer => exact h

theorem isSequence_of_tree {outer : List Level} {current : Level} {next : Nat}
    {items : List Item} {r : Regex} (h : tree limit outer current next items = .ok r)
    (hb : BarsInside outer.length items) (hs : (bottom outer current).IsStraight) :
    r.IsSequence := by
  induction items generalizing outer current next with
  | nil =>
    cases outer with
    | nil =>
      cases h
      exact hs.close
    | cons level outer => cases h
  | cons item items ih =>
    cases item with
    | one set => exact ih h hb (isStraight_bottom_push hs _)
    | many set => exact ih (tree_of_many h) hb (isStraight_bottom_push hs _)
    | bar =>
      cases outer with
      | nil => exact absurd hb.1 (Nat.lt_irrefl 0)
      | cons level outer => exact ih h hb.2 hs
    | opening capturing =>
      obtain ⟨capture, next', h⟩ := tree_of_opening h
      exact ih h hb hs
    | closing =>
      cases outer with
      | nil => cases h
      | cons level outer =>
        have hl : (bottom outer level).IsStraight := hs
        exact ih h hb (isStraight_bottom_push hl _)
    | unreadable => cases h

theorem later?_of_isSequence {r : Regex} (h : r.IsSequence) : r.later? = none := by
  cases r <;> simp_all [IsSequence, later?]

theorem first_of_isSequence {r : Regex} (h : r.IsSequence) : r.first = r := by
  cases r <;> simp_all [IsSequence, first]

/-- A sequence is matched behind whatever is put in front of it. -/
theorem search_leading_of_isSequence {α : Type} {r : Regex} (h : r.IsSequence) (start : Regex)
    (text : Text) (caps : Captures) (next : Text → Captures → Option α) :
    (leading start r).search text caps next =
      start.search text caps fun rest caps => r.search rest caps next := by
  rw [search_leading, later?_of_isSequence h, first_of_isSequence h, Option.bind_none,
    Option.or_none]

end EditorConfig.Regex
