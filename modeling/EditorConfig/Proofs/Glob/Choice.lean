import EditorConfig.Proofs.Glob.Pieces
import EditorConfig.Proofs.Glob.Spelling

/-! Choices between spellings. Main statement: what a choice says about a path is settled by the
first of its alternatives that can be read, and every range of the others has no digits. -/
namespace EditorConfig
variable {limit : Nat}

namespace Glob
open Regex (Item Level tree)
open EditorConfig.Glob.Field (fill)

namespace Spelling

def between (start : Text) (s : Spelling) (behind : Text) : Spelling :=
  letters start ++ (s ++ letters behind)

def choice (start : Text) (alternatives : List Spelling) (behind : Text) : Text :=
  '/' :: ((letters start).text ++
    '\x7b' :: ([','].intercalate (alternatives.map text) ++ '\x7d' :: (letters behind).text))

def allBounds (alternatives : List Spelling) : List Bounds := alternatives.flatMap bounds

def allRanges (alternatives : List Spelling) : List NumericRange :=
  (allBounds alternatives).map Bounds.range

theorem length_allBounds_cons (s : Spelling) (others : List Spelling) :
    (allBounds (s :: others)).length = s.bounds.length + (allBounds others).length := by
  rw [allBounds, List.flatMap_cons, List.length_append]
  rfl

def branches (r : Regex) (next : Nat) : List Spelling → Regex
  | [] => r
  | s :: others => branches (.either r (s.regex .empty next)) (next + s.bounds.length) others

theorem tree_branches (others : List Spelling) {outer : List Level}
    (ho : 2 * outer.length + 5 ≤ limit) (current : Level) (before : Option Regex)
    (sequence : Regex) (next : Nat) (more : List Item) :
    tree limit (current :: outer) ⟨none, before, sequence⟩ next
        (others.flatMap (fun s => .bar :: s.flatMap Token.items) ++ .closing :: more) =
      tree limit outer
        (current.push (branches (Level.choice ⟨none, before, sequence⟩) next others))
        (next + (allBounds others).length) more := by
  induction others generalizing before sequence next with
  | nil => rfl
  | cons s others ih =>
    have hl : 2 * (current :: outer).length + 3 ≤ limit := by
      rw [List.length_cons]
      omega
    have hs := @tree_items limit s (current :: outer) (fun _ => hl)
      ⟨none, some (Level.choice ⟨none, before, sequence⟩), .empty⟩ next
      (others.flatMap (fun s => .bar :: s.flatMap Token.items) ++ .closing :: more)
    have hi := ih (some (Level.choice ⟨none, before, sequence⟩)) (s.regex .empty next)
      (next + s.bounds.length)
    rw [Nat.add_assoc, ← length_allBounds_cons] at hi
    rw [List.flatMap_cons, List.append_assoc, List.cons_append, tree]
    exact hs.trans hi

theorem groups_branches (others : List Spelling) (r : Regex) (next : Nat) :
    (branches r next others).groups = r.groups + (allBounds others).length := by
  induction others generalizing r next with
  | nil => rfl
  | cons s others ih =>
    have he : Regex.groups .empty = 0 := rfl
    rw [branches, ih, Regex.groups, groups_regex, he, Nat.zero_add, Nat.add_assoc,
      ← length_allBounds_cons]

theorem findSome?_letters {α : Type} (behind rest : Text) (f : List Text → α) :
    ((readings (letters behind) rest).findSome? fun way =>
      if way.1.isEmpty then some (f way.2) else none) =
        if rest = behind then some (f []) else none := by
  have hr := readings_letters behind [] rest
  rw [List.append_nil] at hr
  rw [hr]
  cases hd : rest.dropPrefix? behind with
  | none =>
    have hn : rest ≠ behind := by
      rintro rfl
      rw [Text.dropPrefix?_iff.2 (List.append_nil rest).symm] at hd
      cases hd
    rw [if_neg hn]
    rfl
  | some rest' =>
    rw [Text.dropPrefix?_iff.1 hd]
    cases rest' with
    | nil => simp [readings]
    | cons c rest' => simp [readings]

/-- What a search finds if a text is to follow: the first reading that leaves it. -/
theorem findSome?_behind {α : Type} (s : Spelling) (text behind : Text) (f : List Text → α) :
    ((readings s text).findSome? fun reading =>
      if reading.1 = behind then some (f reading.2) else none) =
        ((s ++ letters behind).reading? text).map f := by
  rw [← findSome?_readings, readings_append, Regex.findSome?_flatMap]
  congr
  funext way
  have hl := findSome?_letters behind way.1 fun numbers => f (way.2 ++ numbers)
  rw [List.append_nil] at hl
  rw [List.findSome?_map, ← hl]
  rfl

/-- What the groups hold if the first alternative that can be read in front of `behind` is taken;
its groups are numbered behind those of the alternatives before it. -/
def choose? (behind text : Text) (caps : Captures) (next : Nat) : List Spelling → Option Captures
  | [] => none
  | s :: others =>
    (((s ++ letters behind).reading? text).map (fill caps next)).or
      (choose? behind text caps (next + s.bounds.length) others)

theorem search_branches (behind text : Text) (caps : Captures) (others : List Spelling) (r : Regex)
    (next : Nat) :
    ((branches r next others).search text caps fun rest caps =>
        if rest = behind then some caps else none) =
      (r.search text caps fun rest caps => if rest = behind then some caps else none).or
        (choose? behind text caps next others) := by
  induction others generalizing r next with
  | nil => exact Option.or_none.symm
  | cons s others ih =>
    rw [branches, ih, Regex.search, search_regex, Regex.search, findSome?_behind, choose?,
      Option.orElse_eq_orElse, Option.orElse_eq_or, Option.or_assoc]

def choiceRegex (lead : Text) (first : Spelling) (others : List Spelling) (behind : Text) : Regex :=
  (letters behind).regex
    (.seq (.literal lead) (branches (first.regex .empty 0) first.bounds.length others))
    (allBounds (first :: others)).length

theorem fullMatch?_choiceRegex (lead : Text) (first : Spelling) (others : List Spelling)
    (behind path : Text) :
    (choiceRegex lead first others behind).fullMatch? path =
      (path.dropPrefix? lead).bind fun rest =>
        choose? behind rest (List.replicate (allBounds (first :: others)).length none) 0
          (first :: others) := by
  have he : Regex.groups .empty = 0 := rfl
  have hg : (choiceRegex lead first others behind).groups =
      (allBounds (first :: others)).length := by
    rw [choiceRegex, groups_regex, Regex.groups, Regex.groups_literal, groups_branches,
      groups_regex, length_allBounds_cons, he]
    have hb : (letters behind).bounds = [] := bounds_letters behind
    rw [hb, List.length_nil]
    omega
  have hf : ∀ (caps : Captures) next, fill caps next [] = caps := fun _ _ => rfl
  rw [Regex.fullMatch?, hg, choiceRegex, search_regex]
  simp only [findSome?_letters, hf]
  rw [Regex.search, Regex.search_literal]
  congr
  funext rest
  rw [search_branches, search_regex, Regex.search, findSome?_behind, choose?, Nat.zero_add]

theorem eq_letters {s : Spelling} (h : s.bounds = []) : ∃ start, s = letters start := by
  induction s with
  | nil => exact ⟨[], rfl⟩
  | cons t s ih =>
    cases t with
    | letter c =>
      obtain ⟨start, rfl⟩ := ih h
      exact ⟨c :: start, rfl⟩
    | range r => cases h

theorem clear_letter (c : Char) : Clear "\x7b\x7d,".toList (Token.letter c).text := by
  rw [Token.text]
  cases hc : isWildcard c || c == ' ' with
  | true => exact .quoted c .nil
  | false =>
    rw [Bool.or_eq_false_iff] at hc
    have hw : ∀ d ∈ "\x7b\x7d,".toList, isWildcard d = true := List.all_eq_true.1 (by decide)
    exact .bare (fun h => ne_of_isWildcard hc.1 (hw c h) rfl)
      (ne_of_isWildcard hc.1 (by decide)) .nil

theorem clear_letters (start : Text) : Clear "\x7b\x7d,".toList (letters start).text := by
  rw [text, letters, List.flatMap_map]
  exact clear_flatMap clear_letter

theorem balanced_token (t : Token) : Term.Balanced t.text := by
  cases t with
  | letter c => exact Term.balanced_of_clear (clear_letter c)
  | range r =>
    intro rest
    have hc := clear_written r
    rw [Token.text, List.cons_append, List.append_assoc, List.singleton_append,
      countUnescaped_bare (by decide), countUnescaped_bare (by decide),
      countUnescaped_append (by simp) (by simp) hc, countUnescaped_append (by simp) (by simp) hc,
      countUnescaped_bare (by decide), countUnescaped_bare (by decide)]
    simp
    omega

theorem balanced_text (s : Spelling) : Term.Balanced s.text := by
  induction s with
  | nil => exact Term.balanced_of_clear .nil
  | cons t s ih => exact Term.balanced_append (balanced_token t) ih

theorem intercalate_cons (u : Text) (texts : List Text) :
    [','].intercalate (u :: texts) = u ++ texts.flatMap (',' :: ·) := by
  induction texts generalizing u with
  | nil => simp
  | cons v texts ih => rw [List.intercalate_cons_cons, ih, List.append_assoc]; rfl

theorem text_alternatives (first : Spelling) (others : List Spelling) :
    [','].intercalate ((first :: others).map text) =
      first.text ++ others.flatMap fun s => ',' :: s.text := by
  rw [List.map_cons, intercalate_cons, List.flatMap_map]

/-- As many braces open as close in a choice. -/
theorem balanced_choice (start behind : Text) (alternatives : List Spelling) :
    Term.Balanced ((letters start).text ++
      '\x7b' :: ([','].intercalate (alternatives.map text) ++
        '\x7d' :: (letters behind).text)) := by
  have hi : Term.Balanced ([','].intercalate (alternatives.map text)) := by
    refine Term.balanced_intercalate fun t h => ?_
    obtain ⟨s, -, rfl⟩ := List.mem_map.1 h
    exact balanced_text s
  refine Term.balanced_append (balanced_text _) fun rest => ?_
  have hr := hi ('\x7d' :: ((letters behind).text ++ rest))
  have hb := balanced_text (letters behind) rest
  simp only [List.cons_append, List.append_assoc]
  rw [countUnescaped_bare (by decide), countUnescaped_bare (by decide)] at hr ⊢
  simp at hr ⊢
  omega

theorem others_ne_cons (others : List Spelling) {c : Char} (hc : c = '*' ∨ c = ' ')
    (more more' : Text) :
    others.flatMap (fun s => ',' :: s.text) ++ '\x7d' :: more ≠ c :: more' := by
  cases others with
  | nil =>
    obtain rfl | rfl := hc <;> simp
  | cons s others =>
    obtain rfl | rfl := hc <;> simp

theorem dropWhile_spaces {text : Text} (h : ∀ more, text ≠ ' ' :: more) :
    text.dropWhile (· == ' ') = text := by
  cases text with
  | nil => rfl
  | cons c text => exact List.dropWhile_cons_of_neg fun hc => h text (by rw [beq_iff_eq.1 hc])

theorem piecesFrom_others (depth : Nat) (others : List Spelling) (more : Text) :
    piecesFrom true (depth + 1) (others.flatMap (fun s => ',' :: s.text) ++ '\x7d' :: more) =
      others.flatMap (fun s => .nextChoice :: s.map Token.piece) ++
        .closeChoice :: piecesFrom true depth more := by
  induction others with
  | nil => exact piecesFrom_closeChoice depth more
  | cons s others ih =>
    have hd := dropWhile_spaces (text_ne_cons s (.inr rfl) (others_ne_cons others (.inr rfl) more))
    rw [List.flatMap_cons, List.append_assoc, List.cons_append, piecesFrom_nextChoice, hd,
      piecesFrom_text _ _ s (others_ne_cons others (.inl rfl) more), ih, List.flatMap_cons,
      List.append_assoc]
    rfl

/-- The pieces of a choice whose first alternative holds no range. -/
theorem pieces_choice (directory start behind : Text) {first : Spelling} {others : List Spelling}
    (hf : first.bounds = []) (ho : others ≠ []) :
    pieces (anchor (choice start (first :: others) behind) directory) =
      (withSlash directory).map literalPiece ++ ((letters start).map Token.piece ++
        .openChoice :: (first.map Token.piece ++
          (others.flatMap (fun s => .nextChoice :: s.map Token.piece) ++
            .closeChoice :: (letters behind).map Token.piece))) := by
  have hb := balanced_choice start behind (first :: others) []
  simp only [countUnescaped, Nat.add_zero, List.append_nil] at hb
  have hn : ∀ more, (letters start).text ++ '\x7b' :: ([','].intercalate
      ((first :: others).map text) ++ '\x7d' :: (letters behind).text) ≠ '*' :: more :=
    text_ne_cons _ (.inl rfl) (by simp)
  have hc : cut? '\x7d' ',' false (first.text ++ (others.flatMap (fun s => ',' :: s.text) ++
      '\x7d' :: (letters behind).text)) = none := by
    obtain ⟨t, rfl⟩ := eq_letters hf
    obtain ⟨s, others, rfl⟩ := List.exists_cons_of_ne_nil ho
    rw [cut?_append (by simp) (by simp) (by simp) (clear_letters t)]
    simp [cut?]
  rw [choice, pieces_relative directory hn, hb, beq_self_eq_true, text_alternatives,
    List.append_assoc,
    piecesFrom_text _ _ _ (by simp), piecesFrom_openChoice 0 hc,
    piecesFrom_text _ _ _ (others_ne_cons others (.inl rfl) _), piecesFrom_others, piecesFrom_all]

theorem items_letters (start : Text) :
    (letters start).flatMap Token.items = start.map fun c => .one (.exactly c) := by
  rw [letters, List.flatMap_map, ← List.flatMap_singleton' (start.map _), List.flatMap_map]
  rfl

theorem tree_choice (hl : 5 ≤ limit) (lead : Text) (first : Spelling)
    (others : List Spelling) (behind : Text) :
    tree limit [] (Level.start none) 0
        (lead.map (fun c => .one (.exactly c)) ++
          .opening false :: (first.flatMap Token.items ++
            (others.flatMap (fun s => .bar :: s.flatMap Token.items) ++
              .closing :: (letters behind).flatMap Token.items))) =
      .ok (choiceRegex lead first others behind) := by
  have hn : ¬ limit < 2 * ([] : List Level).length + 2 := by
    rw [List.length_nil]
    omega
  have hf := @tree_items limit first [⟨none, none, .literal lead⟩] (fun _ => hl)
    (Level.start none) 0 (others.flatMap (fun s => .bar :: s.flatMap Token.items) ++
      .closing :: (letters behind).flatMap Token.items)
  have ho := @tree_branches limit others [] hl ⟨none, none, .literal lead⟩ none
    (first.regex .empty 0) (0 + first.bounds.length) ((letters behind).flatMap Token.items)
  have hb := @tree_items limit (letters behind) [] (fun _ => by rw [List.length_nil]; omega)
    ⟨none, none, .seq (.literal lead) (branches (first.regex .empty 0) first.bounds.length others)⟩
    (first.bounds.length + (allBounds others).length) []
  rw [List.append_nil] at hb
  rw [Nat.zero_add] at hf ho
  rw [Regex.tree_ones, Regex.foldl_push, tree, if_neg hn, if_neg Bool.false_ne_true,
    choiceRegex, length_allBounds_cons]
  exact hf.trans (ho.trans hb)

def outcomeOfChoice (alternatives : List Spelling) (behind lead path : Text) : Except Error Bool :=
  if (allBounds alternatives).any Bounds.isTooLong then .error .numeralTooLong
  else match (path.dropPrefix? lead).bind fun rest =>
      choose? behind rest (List.replicate (allBounds alternatives).length none) 0 alternatives with
    | none => .ok false
    | some captures => NumericRange.acceptAll (allRanges alternatives) captures

theorem items_choice {first : Spelling} {others : List Spelling} (start behind : Text) :
    ((letters start).map Token.piece ++ .openChoice :: (first.map Token.piece ++
        (others.flatMap (fun s => .nextChoice :: s.map Token.piece) ++
          .closeChoice :: (letters behind).map Token.piece))).flatMap Piece.items =
      start.map (fun c => .one (.exactly c)) ++ .opening false :: (first.flatMap Token.items ++
        (others.flatMap (fun s => .bar :: s.flatMap Token.items) ++
          .closing :: (letters behind).flatMap Token.items)) := by
  have hn : Piece.nextChoice.items = [.bar] := rfl
  have ho : Piece.openChoice.items = [.opening false] := rfl
  have hc : Piece.closeChoice.items = [.closing] := rfl
  simp only [List.flatMap_append, List.flatMap_cons, items_pieces, items_letters,
    List.flatMap_assoc,
    hn, ho, hc, List.singleton_append]

theorem bounds_choice {first : Spelling} {others : List Spelling} (start behind : Text) :
    ((letters start).map Token.piece ++ .openChoice :: (first.map Token.piece ++
        (others.flatMap (fun s => .nextChoice :: s.map Token.piece) ++
          .closeChoice :: (letters behind).map Token.piece))).filterMap Piece.bounds? =
      allBounds (first :: others) := by
  have hn : Piece.nextChoice.bounds? = none := rfl
  have ho : Piece.openChoice.bounds? = none := rfl
  have hc : Piece.closeChoice.bounds? = none := rfl
  simp only [List.filterMap_append, List.filterMap_cons, bounds_pieces, bounds_letters, hn, ho, hc,
    List.filterMap_flatMap, List.nil_append, List.append_nil]
  rfl

theorem headerMatches_choice_eq (hl : 5 ≤ limit) (directory start behind : Text) {first : Spelling}
    {others : List Spelling} (hf : first.bounds = []) (ho : others ≠ []) (path : Text) :
    headerMatches limit directory (choice start (first :: others) behind) path =
      outcomeOfChoice (first :: others) behind (withSlash directory ++ start) path := by
  have hp := pieces_choice directory start behind hf ho
  have hr := readable_anchor (choice start (first :: others) behind) directory
  have hq : ∀ (s : Spelling) negated, .openClass negated ∉ s.map Token.piece :=
    fun s negated h => isPart_ne_openClass (s.isPart_pieces _ h) negated rfl
  have hb : (pieces (anchor (choice start (first :: others) behind) directory)).filterMap
      Piece.bounds? = allBounds (first :: others) := by
    rw [hp, List.filterMap_append, bounds?_literalPieces, List.nil_append, bounds_choice]
  have ht : Regex.ofText limit
      ((pieces (anchor (choice start (first :: others) behind) directory)).flatMap
      Piece.text) = .ok (choiceRegex (withSlash directory ++ start) first others behind) := by
    rw [ofText_flatMap_text hr]
    rw [hp] at hr ⊢
    have hr' := fun p h => hr p (List.mem_append_right _ h)
    rw [items_literalPieces _ hr', items_flatMap hr' (by simp [hq]), items_choice,
      ← List.append_assoc,
      ← List.map_append]
    exact tree_choice hl _ first others behind
  rw [headerMatches_of_ofText ht hb, outcomeOfChoice, fullMatch?_choiceRegex]
  rfl

end Spelling
end Glob
end EditorConfig
