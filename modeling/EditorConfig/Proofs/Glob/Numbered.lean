import EditorConfig.Proofs.Glob.Anchor
import EditorConfig.Proofs.Numeral
import EditorConfig.Proofs.Regex.Digits

/-! Headers of numeric ranges between texts that stand for themselves. Main statement: the
expression of such a header has a group of digits for each range, in order, and letter by letter
what stands between them. -/
namespace EditorConfig.Glob
open Regex (Item Level Mark digit digits)
variable {limit : Nat}

structure Field where
  range : NumericRange
  behind : Text
  deriving DecidableEq

namespace Field

def bounds (f : Field) : Bounds := ⟨.ofInt f.range.min, .ofInt f.range.max⟩

def text (f : Field) : Text := '\x7b' :: (f.bounds.text ++ '\x7d' :: quote f.behind)

def pieces (f : Field) : List Piece := .number f.bounds :: f.behind.map literalPiece

def items (f : Field) : List Item :=
  .opening true :: .one digit :: .many digit :: .closing ::
    f.behind.map fun c => .one (.exactly c)

def regex (r : Regex) (next : Nat) : List Field → Regex
  | [] => r
  | f :: fields =>
    regex (f.behind.foldl (fun r c => .seq r (.one (.exactly c))) (.seq r (.group next digits)))
      (next + 1) fields

theorem range_bounds (f : Field) : f.bounds.range = f.range := by
  rw [Bounds.range, bounds, Numeral.value_ofInt, Numeral.value_ofInt]

end Field

def numbered (start : Text) (fields : List Field) : Text :=
  '/' :: (quote start ++ fields.flatMap Field.text)

theorem clear_bounds (f : Field) : Clear "\x7d,".toList f.bounds.text := by
  refine clear_of_forall fun c hc => ?_
  have hk : c.isDigit = true ∨ c = '-' ∨ c = '.' := by
    rw [Bounds.text, List.mem_append, List.mem_cons, List.mem_cons] at hc
    obtain h | h | h | h := hc
    · exact (Numeral.mem_text_ofInt h).imp_right .inl
    · exact .inr (.inr h)
    · exact .inr (.inr h)
    · exact (Numeral.mem_text_ofInt h).imp_right .inl
  constructor
  · intro hm
    obtain rfl | rfl : c = '\x7d' ∨ c = ',' := by simpa using hm
    all_goals exact absurd hk (by decide)
  · intro he
    subst he
    exact absurd hk (by decide)

theorem cut?_field (f : Field) (rest : Text) :
    cut? '\x7d' ',' false (f.bounds.text ++ '\x7d' :: rest) = some (f.bounds.text, rest) := by
  rw [cut?_append (by simp) (by simp) (by simp) (clear_bounds f)]
  simp [cut?]

theorem braced_bounds (f : Field) : braced f.bounds.text = [.number f.bounds] := by
  rw [braced, Bounds.ofText?_text (Numeral.isDigits_ofInt _) (Numeral.isDigits_ofInt _)]

theorem piecesFrom_field (balanced : Bool) (depth : Nat) (f : Field) (rest : Text) :
    piecesFrom balanced depth (f.text ++ rest) =
      .number f.bounds :: piecesFrom balanced depth (quote f.behind ++ rest) := by
  have hc := cut?_field f (quote f.behind ++ rest)
  rw [Field.text, List.cons_append, List.append_assoc, List.cons_append, piecesFrom, if_pos rfl]
  split
  · next body rest' h =>
    rw [hc] at h
    cases h
    rw [braced_bounds]
    rfl
  · next h =>
    rw [hc] at h
    cases h

theorem flatMap_text_ne_star (fields : List Field) (more : Text) :
    fields.flatMap Field.text ≠ '*' :: more := by
  cases fields with
  | nil => exact nofun
  | cons f fields => simp [Field.text]

theorem piecesFrom_fields (balanced : Bool) (depth : Nat) (fields : List Field) :
    piecesFrom balanced depth (fields.flatMap Field.text) = fields.flatMap Field.pieces := by
  induction fields with
  | nil => rw [List.flatMap_nil, piecesFrom, List.flatMap_nil]
  | cons f fields ih =>
    rw [List.flatMap_cons, piecesFrom_field, piecesFrom_quote _ _ _ (flatMap_text_ne_star fields),
      ih]
    rfl

/-- The pieces of a header of ranges, all but the ranges of texts that stand for themselves. -/
theorem pieces_numbered (start : Text) (fields : List Field) (directory : Text) :
    pieces (anchor (numbered start fields) directory) =
      (withSlash directory ++ start).map literalPiece ++ fields.flatMap Field.pieces := by
  have ha : anchor (numbered start fields) directory =
      quote (withSlash directory ++ start) ++ fields.flatMap Field.text := by
    rw [quote_append, List.append_assoc]
    rfl
  rw [ha, pieces, piecesFrom_quote _ _ _ (flatMap_text_ne_star fields), piecesFrom_fields]

theorem bounds_fields (fields : List Field) :
    (fields.flatMap Field.pieces).filterMap Piece.bounds? = fields.map Field.bounds := by
  induction fields with
  | nil => rfl
  | cons f fields ih =>
    rw [List.flatMap_cons, List.filterMap_append, ih, Field.pieces, List.filterMap_cons,
      bounds?_literalPieces]
    rfl

theorem readable_fields (fields : List Field) :
    ∀ p ∈ fields.flatMap Field.pieces, p.Readable := by
  rw [← piecesFrom_fields true 0]
  exact readable_piecesFrom true 0 _

theorem items_fields (fields : List Field) :
    Regex.items ((fields.flatMap Field.pieces).flatMap Piece.marks) =
      fields.flatMap Field.items := by
  induction fields with
  | nil => simp [Regex.items]
  | cons f fields ih =>
    rw [List.flatMap_cons, Field.pieces, List.cons_append, List.flatMap_cons, Piece.marks]
    simp only [List.cons_append, List.nil_append]
    rw [Regex.items_digits, items_literalPieces _ (readable_fields fields), ih]
    rfl

theorem tree_fields (hl : 3 ≤ limit) (r : Regex) (next : Nat) (fields : List Field) :
    Regex.tree limit [] ⟨none, none, r⟩ next (fields.flatMap Field.items) =
      .ok (Field.regex r next fields) := by
  induction fields generalizing r next with
  | nil => rfl
  | cons f fields ih =>
    have hp := Regex.foldl_push ⟨none, none, .seq r (.group next digits)⟩ f.behind
    have hg : Regex.tree limit [] ⟨none, none, r⟩ next ((f :: fields).flatMap Field.items) =
        Regex.tree limit [] ⟨none, none, .seq r (.group next digits)⟩ (next + 1)
          (f.behind.map (fun c => .one (.exactly c)) ++ fields.flatMap Field.items) := by
      rw [List.flatMap_cons, Field.items]
      apply (Regex.tree_digits [] _ next _).trans
      exact if_neg (Nat.not_lt.2 hl)
    rw [hg, Regex.tree_ones, hp, ih, Field.regex]

/-- The expression of a header of ranges. -/
theorem ofText_numbered (hl : 3 ≤ limit) (start : Text) (fields : List Field)
    (directory : Text) :
    Regex.ofText limit ((pieces (anchor (numbered start fields) directory)).flatMap Piece.text) =
      .ok (Field.regex (.literal (withSlash directory ++ start)) 0 fields) := by
  rw [ofText_flatMap_text (readable_anchor _ directory), pieces_numbered,
    items_literalPieces _ (readable_fields fields), items_fields, Regex.tree_ones,
    Regex.foldl_push]
  exact tree_fields hl _ 0 fields

end EditorConfig.Glob
