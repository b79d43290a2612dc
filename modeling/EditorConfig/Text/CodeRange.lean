import EditorConfig.Text.Basic

/-! Tables of code points: disjoint ranges in increasing order, both ends included. -/
namespace EditorConfig.Text.CodeRange

def has : List (Nat × Nat) → Nat → Bool
  | [], _ => false
  | (first, last) :: ranges, n => first ≤ n && (n ≤ last || has ranges n)

end EditorConfig.Text.CodeRange
