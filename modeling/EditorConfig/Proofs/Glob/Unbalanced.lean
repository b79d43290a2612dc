import EditorConfig.Proofs.Glob.Alternatives

/-! Headers whose braces are not balanced. Main statement: without wildcards, backslashes and
numeric ranges such a header names a single path, and its braces, commas and brackets are text. -/
namespace EditorConfig.Glob
open Text (IsSigned)
variable {limit : Nat}

def Piece.letter? : Piece → Option Char
  | .plain c | .quoted c | .bare c => some c
  | _ => none

def Spells (ps : List Piece) (text : Text) : Prop :=
  List.Forall₂ (fun p c => p.letter? = some c) ps text

namespace Spells
variable {ps : List Piece} {text : Text}

theorem append {ps' : List Piece} {text' : Text} (h : Spells ps text) (h' : Spells ps' text') :
    Spells (ps ++ ps') (text ++ text') :=
  List.rel_append h h'

theorem cons {p : Piece} {c : Char} (hp : p.letter? = some c) (h : Spells ps text) :
    Spells (p :: ps) (c :: text) :=
  List.Forall₂.cons hp h

theorem isPart (h : Spells ps text) : ∀ p ∈ ps, p.IsPart := by
  induction h with
  | nil => exact List.forall_mem_nil _
  | @cons p c ps text hp _ ih =>
    have ht : p.IsPart := by
      cases p with
      | openClass _ | openChoice | nextChoice | closeChoice => cases hp
      | _ => trivial
    exact List.forall_mem_cons.2 ⟨ht, ih⟩

theorem items (h : Spells ps text) :
    ps.flatMap Piece.items = (Spelling.letters text).flatMap Token.items := by
  induction h with
  | nil => rfl
  | @cons p c ps text hp _ ih =>
    have hi : p.items = (Token.letter c).items := by
      cases p with
      | plain d | quoted d | bare d =>
        cases hp
        rfl
      | _ => cases hp
    have hl : Spelling.letters (c :: text) = .letter c :: Spelling.letters text := rfl
    rw [hl, List.flatMap_cons, List.flatMap_cons, hi, ih]

theorem bounds (h : Spells ps text) : ps.filterMap Piece.bounds? = [] := by
  induction h with
  | nil => rfl
  | @cons p c ps text hp _ ih =>
    have hb : p.bounds? = none := by
      cases p with
      | number b => cases hp
      | _ => rfl
    rw [List.filterMap_cons_none hb, ih]

end Spells

def NoWildcards (text : Text) : Prop := ∀ c ∈ text, c ∉ "*?[\\".toList

/-- No part of the text in braces is a pair of signed numbers with two dots between them. -/
def NoRanges (text : Text) : Prop :=
  ∀ low high, IsSigned low → IsSigned high →
    ¬ '\x7b' :: (low ++ '.' :: '.' :: (high ++ ['\x7d'])) <:+: text

instance (text : Text) : Decidable (NoWildcards text) := List.decidableBAll _ text

theorem NoWildcards.of_isInfix {text part : Text} (h : NoWildcards text) (hp : part <:+: text) :
    NoWildcards part :=
  fun c hc => h c (hp.subset hc)

theorem NoRanges.of_isInfix {text part : Text} (h : NoRanges text) (hp : part <:+: text) :
    NoRanges part :=
  fun low high hl hh hi => h low high hl hh (hi.trans hp)

theorem NoWildcards.ne_star {text : Text} (h : NoWildcards text) (more : Text) :
    text ≠ '*' :: more := by
  rintro rfl
  exact h '*' List.mem_cons_self (by decide)

/-- The body of a pair of braces is no pair of bounds. -/
theorem NoRanges.ofText?_eq_none {body more : Text}
    (h : NoRanges ('\x7b' :: (body ++ '\x7d' :: more))) : Bounds.ofText? body = none := by
  rw [Option.eq_none_iff_forall_not_mem]
  intro b hb
  obtain ⟨low, high, hl, hh, rfl⟩ := Bounds.isSigned_of_ofText? hb
  refine h low high hl hh ⟨[], more, ?_⟩
  simp

/-- Where braces and commas are text, every character is but the wildcards. -/
theorem piecesAt_letter {c : Char} {rest : Text} (h : NoWildcards (c :: rest)) :
    ∃ p, piecesAt c rest = ([p], rest) ∧ p.letter? = some c := by
  have hc : c ∉ "*?[\\".toList := h c List.mem_cons_self
  have hs := (h.of_isInfix (List.suffix_cons c rest).isInfix).ne_star
  fun_cases piecesAt c rest
  case case10 | case11 | case12 | case14 | case15 | case16 => exact ⟨_, rfl, rfl⟩
  case case13 more => exact absurd rfl (hs ('*' :: '/' :: more))
  all_goals exact absurd (by decide) hc

theorem spells_literalBraces {text : Text} (h : NoWildcards text) :
    Spells (literalBraces text) text := by
  induction text with
  | nil =>
    rw [literalBraces]
    exact List.Forall₂.nil
  | cons c text ih =>
    obtain ⟨p, hp, hl⟩ := piecesAt_letter h
    rw [literalBraces, hp]
    exact .cons hl (ih (h.of_isInfix (List.suffix_cons c text).isInfix))

/-- A pair of braces that holds no range. -/
theorem spells_braced {body : Text} (h : NoWildcards body) (hb : Bounds.ofText? body = none) :
    Spells (braced body) ('\x7b' :: (body ++ ['\x7d'])) := by
  rw [braced, hb]
  exact .cons rfl ((spells_literalBraces h).append (.cons rfl List.Forall₂.nil))

/-- Where the braces are not balanced no choice opens, and every character is a letter. -/
theorem spells_piecesFrom {balanced : Bool} {depth : Nat} {text : Text} (hb : balanced = false)
    (hd : depth = 0) (hw : NoWildcards text) (hr : NoRanges text) :
    Spells (piecesFrom balanced depth text) text := by
  fun_induction piecesFrom balanced depth text with
  | case1 depth => exact List.Forall₂.nil
  | case2 depth rest body rest' hc _ ih =>
    obtain rfl := cut?_eq_append hc
    have hi : body <:+: '\x7b' :: (body ++ '\x7d' :: rest') :=
      ⟨['\x7b'], '\x7d' :: rest', by simp⟩
    have hs : rest' <:+ '\x7b' :: (body ++ '\x7d' :: rest') :=
      ⟨'\x7b' :: (body ++ ['\x7d']), by simp⟩
    have hp := (spells_braced (hw.of_isInfix hi) hr.ofText?_eq_none).append
      (ih hd (hw.of_isInfix hs.isInfix) (hr.of_isInfix hs.isInfix))
    rwa [List.cons_append, List.append_assoc, List.singleton_append] at hp
  | case3 depth rest _ ht ih => exact absurd (ht.symm.trans hb) (by decide)
  | case4 depth rest _ _ ih =>
    have hs := (List.suffix_cons '\x7b' rest).isInfix
    exact .cons rfl (ih hd (hw.of_isInfix hs) (hr.of_isInfix hs))
  | case5 depth c rest _ hn _ ih => exact absurd hn (by simp [hd])
  | case6 depth c rest _ _ hn ih => exact absurd hn (by simp [hd])
  | case7 depth c rest _ _ _ _ ih =>
    obtain ⟨p, hp, hl⟩ := piecesAt_letter hw
    have hs := (List.suffix_cons c rest).isInfix
    rw [hp] at ih ⊢
    exact .cons hl (ih hd (hw.of_isInfix hs) (hr.of_isInfix hs))

theorem countUnescaped_eq_count {text : Text} (h : NoWildcards text) (c : Char) :
    countUnescaped c false text = text.count c := by
  induction text with
  | nil => rfl
  | cons d text ih =>
    have hd : (d == '\\') = false := by
      rw [beq_eq_false_iff_ne]
      rintro rfl
      exact h '\\' List.mem_cons_self (by decide)
    rw [countUnescaped, hd, ih (h.of_isInfix (List.suffix_cons d text).isInfix), List.count_cons,
      Nat.add_comm]
    simp

namespace Spelling

/-- A text accepts no other. -/
theorem outcome_letters_only (text lead path : Text) :
    (letters text).outcome lead path = .ok (decide (path = lead ++ text)) := by
  have hl := outcome_letters text [] lead path
  rw [List.append_nil] at hl
  rw [hl, outcome]
  cases hd : path.dropPrefix? (lead ++ text) with
  | none =>
    have hn : path ≠ lead ++ text := by
      rintro rfl
      have hs : (lead ++ text).dropPrefix? (lead ++ text) = some [] :=
        Text.dropPrefix?_iff.2 (List.append_nil _).symm
      rw [hs] at hd
      cases hd
    rw [decide_eq_false hn]
    rfl
  | some rest =>
    rw [Text.dropPrefix?_iff.1 hd]
    cases rest with
    | nil => simp [reading?, readings, bounds, ranges, NumericRange.acceptAll]
    | cons c rest => simp [reading?, readings, bounds]

end Spelling

/-- A header whose braces are not balanced, and which holds neither wildcards nor ranges, names
the path that it spells. -/
theorem headerMatches_unbalanced (directory path : Text) {text : Text} (hw : NoWildcards text)
    (hu : text.count '\x7b' ≠ text.count '\x7d') (hr : NoRanges text) :
    headerMatches limit directory ('/' :: text) path =
      .ok (decide (path = withSlash directory ++ text)) := by
  have hb : (countUnescaped '\x7b' false text == countUnescaped '\x7d' false text) = false := by
    rw [countUnescaped_eq_count hw, countUnescaped_eq_count hw]
    exact beq_false_of_ne hu
  have hs := spells_piecesFrom hb rfl hw hr
  rw [← Spelling.outcome_letters_only]
  exact Spelling.headerMatches_of_pieces (pieces_relative directory hw.ne_star) hs.isPart hs.items
    (hs.bounds.trans (Spelling.bounds_letters text).symm)
    (fun h => absurd (Spelling.bounds_letters text) h) path

theorem headerMatches_unbalanced_stray :
    headerMatches 100 "/p".toList "/a, \x7bb\x7d]\x7b1..3".toList
        "/p/a, \x7bb\x7d]\x7b1..3".toList = .ok true ∧
      headerMatches 100 "/p".toList "/a, \x7bb\x7d]\x7b1..3".toList "/p/a,b]\x7b1..3".toList =
        .ok false := by
  have hr : NoRanges "a, \x7bb\x7d]\x7b1..3".toList := by
    intro low high _ _ hi
    have hb : ['\x7d'].Sublist (high ++ ['\x7d']) := List.sublist_append_right high ['\x7d']
    have hs : ['.', '.', '\x7d'].Sublist (low ++ '.' :: '.' :: (high ++ ['\x7d'])) :=
      ((hb.cons_cons '.').cons_cons '.').trans (List.sublist_append_right low _)
    exact absurd ((hs.cons '\x7b').trans hi.sublist) (by decide)
  have hm := fun path =>
    @headerMatches_unbalanced 100 "/p".toList path "a, \x7bb\x7d]\x7b1..3".toList (by decide)
      (by decide) hr
  exact ⟨hm _, hm _⟩

end EditorConfig.Glob
