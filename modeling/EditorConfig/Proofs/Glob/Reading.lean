import EditorConfig.Glob.Matcher
import EditorConfig.Proofs.Regex.Reading

/-! The written form of the pieces of a glob, read back. Main statement: the text of an
expression is always made out mark by mark, and each piece gives marks of its own. -/
namespace EditorConfig.Glob
open Regex (Mark marks? Unrepeated)
variable {limit : Nat}

theorem ne_of_isPlain {c d : Char} (h : isPlain c = true) (hd : isPlain d = false) : c ≠ d := by
  rintro rfl
  simp [h] at hd

theorem ne_of_not_isSpecial {c d : Char} (h : isSpecial c = false) (hd : isSpecial d = true) :
    c ≠ d := by
  rintro rfl
  simp [h] at hd

theorem isPlain_backslash : isPlain '\\' = false := by decide

theorem isPlain_star : isPlain '*' = false := by decide

theorem isPlain_plus : isPlain '+' = false := by decide

theorem isPlain_n : isPlain 'n' = true := by decide

theorem Piece.text_plain (c : Char) : (Piece.plain c).text =
    if isPlain c then [c] else if c = '\n' then ['\\', 'n'] else ['\\', c] := rfl

theorem Piece.text_quoted (c : Char) : (Piece.quoted c).text =
    if isSpecial c then ['\\', c] else [c] := rfl

def plainMark (c : Char) : Mark := if isPlain c then .bare c else .quoted c

def quotedMark (c : Char) : Mark := if isSpecial c then .quoted c else .bare c

theorem char_plainMark (c : Char) : (plainMark c).char = c := by
  unfold plainMark
  split <;> rfl

theorem char_quotedMark (c : Char) : (quotedMark c).char = c := by
  unfold quotedMark
  split <;> rfl

def Piece.marks : Piece → List Mark
  | .plain c => [plainMark c]
  | .quoted c => [quotedMark c]
  | .bare c => [.bare c]
  | .anyText => [.bare '.', .bare '*']
  | .anyName => [.bare '[', .bare '^', .bare '/', .bare ']', .bare '*']
  | .anyChar => [.bare '.']
  | .openClass negated => if negated then [.bare '[', .bare '^'] else [.bare '[']
  | .openChoice => [.bare '(', .bare '?', .bare ':']
  | .nextChoice => [.bare '|']
  | .closeChoice => [.bare ')']
  | .anyDirectories =>
    [.bare '(', .bare '?', .bare ':', .bare '/', .bare '|', .bare '/', .bare '.', .bare '*',
      .bare '/', .bare ')']
  | .number _ =>
    [.bare '(', .bare '[', .bare '0', .bare '-', .bare '9', .bare ']', .bare '+', .bare ')']

def Piece.Readable : Piece → Prop
  | .bare c => c ∈ "],/\x7d".toList
  | _ => True

theorem marks?_bare {c : Char} (hc : c ≠ '\\') (text : Text) :
    marks? (c :: text) = (marks? text).map (Mark.bare c :: ·) :=
  Regex.marks?.eq_4 c text (fun h => absurd h hc) fun _ _ h => absurd h hc

theorem marks?_bares {literals : Text} (h : '\\' ∉ literals) (text : Text) :
    marks? (literals ++ text) = (marks? text).map (literals.map Mark.bare ++ ·) := by
  induction literals with
  | nil => simp
  | cons c literals ih =>
    rw [List.mem_cons, not_or] at h
    rw [List.cons_append, marks?_bare (Ne.symm h.1), ih h.2, Option.map_map]
    rfl

theorem marks?_quoted {c : Char} (hc : c ≠ 'n') (text : Text) :
    marks? ('\\' :: c :: text) = (marks? text).map (Mark.quoted c :: ·) := by
  rw [marks?, Mark.escaped, if_neg hc]

theorem marks?_text {p : Piece} (hp : p.Readable) (text : Text) :
    marks? (p.text ++ text) = (marks? text).map (p.marks ++ ·) := by
  cases p with
  | plain c =>
    rw [Piece.text_plain, Piece.marks, plainMark]
    cases h : isPlain c with
    | true => exact marks?_bare (ne_of_isPlain h isPlain_backslash) text
    | false =>
      by_cases hc : c = '\n'
      · subst hc
        rfl
      · simp only [hc, Bool.false_eq_true, if_false]
        refine marks?_quoted ?_ text
        rintro rfl
        simp [isPlain_n] at h
  | quoted c =>
    rw [Piece.text_quoted, Piece.marks, quotedMark]
    cases h : isSpecial c with
    | true =>
      refine marks?_quoted ?_ text
      rintro rfl
      exact absurd h (by decide)
    | false => exact marks?_bare (ne_of_not_isSpecial h (by decide)) text
  | bare c =>
    refine marks?_bare ?_ text
    rintro rfl
    simp [Piece.Readable] at hp
  | openClass negated => cases negated <;> exact marks?_bares (by decide) text
  | number bounds => exact @marks?_bares "([0-9]+)".toList (by decide) text
  | _ => exact marks?_bares (by decide) text

theorem marks?_flatMap_text {ps : List Piece} (hp : ∀ p ∈ ps, p.Readable) :
    marks? (ps.flatMap Piece.text) = some (ps.flatMap Piece.marks) := by
  induction ps with
  | nil => rfl
  | cons p ps ih =>
    rw [List.flatMap_cons, marks?_text (hp p List.mem_cons_self),
      ih fun q h => hp q (List.mem_cons_of_mem p h)]
    rfl

/-- No piece begins with a mark that would repeat what the piece before it ends with. -/
theorem unrepeated_marks {p : Piece} (hp : p.Readable) (marks : List Mark) :
    Unrepeated (p.marks ++ marks) := by
  cases p with
  | plain c =>
    rw [Piece.marks, plainMark]
    cases h : isPlain c with
    | true =>
      exact Regex.unrepeated_cons marks
        (fun e => ne_of_isPlain h isPlain_star (Mark.bare.inj e))
        fun e => ne_of_isPlain h isPlain_plus (Mark.bare.inj e)
    | false => exact Regex.unrepeated_cons marks (by simp) (by simp)
  | quoted c =>
    rw [Piece.marks, quotedMark]
    cases h : isSpecial c with
    | true => exact Regex.unrepeated_cons marks (by simp) (by simp)
    | false =>
      exact Regex.unrepeated_cons marks
        (fun e => ne_of_not_isSpecial h (by decide) (Mark.bare.inj e))
        fun e => ne_of_not_isSpecial h (by decide) (Mark.bare.inj e)
  | bare c =>
    refine Regex.unrepeated_cons marks ?_ ?_ <;> rintro ⟨⟩ <;> simp [Piece.Readable] at hp
  | openClass negated => cases negated <;> exact Regex.unrepeated_cons _ (by simp) (by simp)
  | _ => exact Regex.unrepeated_cons _ (by simp) (by simp)

theorem unrepeated_flatMap_marks {ps : List Piece} (hp : ∀ p ∈ ps, p.Readable)
    {marks : List Mark} (hm : Unrepeated marks) : Unrepeated (ps.flatMap Piece.marks ++ marks) := by
  cases ps with
  | nil => exact hm
  | cons p ps =>
    rw [List.flatMap_cons, List.append_assoc]
    exact unrepeated_marks (hp p List.mem_cons_self) _

theorem readable_piecesAt (c : Char) (rest : Text) :
    ∀ p ∈ (piecesAt c rest).1, p.Readable := by
  unfold piecesAt
  repeat' split
  all_goals simp [Piece.Readable]

theorem readable_literalBraces (text : Text) : ∀ p ∈ literalBraces text, p.Readable := by
  fun_induction literalBraces text with
  | case1 => simp
  | case2 c rest _ ih =>
    intro p hp
    exact (List.mem_append.1 hp).elim (readable_piecesAt c rest p) (ih p)

theorem readable_braced (body : Text) : ∀ p ∈ braced body, p.Readable := by
  unfold braced
  split
  · simp [Piece.Readable]
  · intro p hp
    rcases List.mem_cons.1 hp with rfl | hp
    · trivial
    · rcases List.mem_append.1 hp with hp | hp
      · exact readable_literalBraces body p hp
      · exact (List.mem_singleton.1 hp) ▸ trivial

theorem readable_piecesFrom (balanced : Bool) (depth : Nat) (text : Text) :
    ∀ p ∈ piecesFrom balanced depth text, p.Readable := by
  fun_induction piecesFrom balanced depth text with
  | case1 => simp
  | case2 depth _ body rest' _ _ ih =>
    intro p hp
    exact (List.mem_append.1 hp).elim (readable_braced body p) (ih p)
  | case3 depth rest _ _ ih | case4 depth rest _ _ ih => simpa [Piece.Readable] using ih
  | case5 depth _ rest _ _ _ ih | case6 depth _ rest _ _ _ ih => simpa [Piece.Readable] using ih
  | case7 depth c rest _ _ _ _ ih =>
    intro p hp
    exact (List.mem_append.1 hp).elim (readable_piecesAt c rest p) (ih p)

/-- The expression of a glob, read item by item. -/
theorem ofText_flatMap_text {ps : List Piece} (hp : ∀ p ∈ ps, p.Readable) :
    Regex.ofText limit (ps.flatMap Piece.text) =
      Regex.tree limit [] (Regex.Level.start none) 0 (Regex.items (ps.flatMap Piece.marks)) := by
  rw [Regex.ofText, marks?_flatMap_text hp]

end EditorConfig.Glob
