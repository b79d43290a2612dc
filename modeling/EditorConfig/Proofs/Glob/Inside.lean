import EditorConfig.Proofs.Glob.Anchor

/-! Whether a header stays inside its directory. Main statement: it does for every directory
exactly if it accepts nothing by a branch of its expression behind the first, because only the
first branch begins with the directory. -/
namespace EditorConfig
variable {limit : Nat}

theorem Text.dropPrefix?_iff {text start rest : Text} :
    text.dropPrefix? start = some rest ↔ text = start ++ rest := by
  simp [List.dropPrefix?_eq_some_iff]

theorem Text.dropPrefix?_append (u v text : Text) :
    text.dropPrefix? (u ++ v) = (text.dropPrefix? u).bind (·.dropPrefix? v) := by
  ext rest
  simp only [Option.bind_eq_some_iff, Text.dropPrefix?_iff, List.append_assoc]
  constructor
  · intro h
    exact ⟨v ++ rest, h, rfl⟩
  · intro ⟨w, h, hw⟩
    rw [h, hw]

namespace Regex
variable {α : Type}

theorem search_exactly_cons (c d : Char) (rest : Text) (caps : Captures)
    (next : Text → Captures → Option α) :
    (one (.exactly c)).search (d :: rest) caps next = if d = c then next rest caps else none := by
  simp [search, CharSet.has]

theorem search_foldl_exactly (r : Regex) (text input : Text) (caps : Captures)
    (next : Text → Captures → Option α) :
    (text.foldl (fun r c => .seq r (.one (.exactly c))) r).search input caps next =
      r.search input caps fun rest caps => (rest.dropPrefix? text).bind (next · caps) := by
  induction text generalizing r with
  | nil => simp
  | cons c text ih =>
    rw [List.foldl_cons, ih, search]
    congr 1
    funext rest caps
    cases rest with
    | nil => rfl
    | cons d rest => by_cases hd : d = c <;> simp [search_exactly_cons, List.dropPrefix?, hd]

theorem search_literal (text input : Text) (caps : Captures)
    (next : Text → Captures → Option α) :
    (literal text).search input caps next = (input.dropPrefix? text).bind (next · caps) :=
  search_foldl_exactly .empty text input caps next

theorem first_leading {start : Regex} (hs : start.IsSequence) (r : Regex) :
    (leading start r).first = after start r.first := by
  induction r with
  | either a b iha _ => exact iha
  | empty => cases start <;> simp_all [IsSequence, leading, after, first]
  | _ => rfl

theorem groups_foldl_exactly (r : Regex) (text : Text) :
    (text.foldl (fun r c => .seq r (.one (.exactly c))) r).groups = r.groups := by
  induction text generalizing r with
  | nil => rfl
  | cons c text ih => exact ih _

theorem groups_literal (text : Text) : (literal text).groups = 0 :=
  groups_foldl_exactly .empty text

def laterMatch? (r : Regex) (text : Text) : Option Captures :=
  r.later?.bind fun later =>
    later.search text (List.replicate r.groups none) fun rest caps =>
      if rest.isEmpty then some caps else none

end Regex

def Matcher.AcceptsLater (m : Matcher) (path : Text) : Prop :=
  ∃ captures, m.regex.laterMatch? path = some captures ∧
    NumericRange.acceptAll m.ranges captures = .ok true

namespace Glob
open Regex (Item Level items tree)

inductive Separates : Regex → Prop where
  | one : Separates (.one (.exactly '/'))
  | directories : Separates .apart

theorem Separates.search_eq_none {α : Type} {r : Regex} (h : Separates r) {text : Text}
    (ht : ∀ rest, text ≠ '/' :: rest) (caps : Captures) (next : Text → Captures → Option α) :
    r.search text caps next = none := by
  cases text with
  | nil => cases h <;> rfl
  | cons c rest =>
    have hc : c ≠ '/' := fun e => ht rest (e ▸ rfl)
    cases h <;> simp [Regex.apart, Regex.search, CharSet.has, hc]

theorem piecesFrom_slash (balanced : Bool) (depth : Nat) (rest : Text) :
    ∃ ps, piecesFrom balanced depth ('/' :: rest) = .bare '/' :: ps ∨
      piecesFrom balanced depth ('/' :: rest) = .anyDirectories :: ps := by
  by_cases hr : ∃ more, rest = '*' :: '*' :: '/' :: more
  · obtain ⟨more, rfl⟩ := hr
    refine ⟨piecesFrom balanced depth more, .inr ?_⟩
    rw [piecesFrom]
    simp [piecesAt]
  · exact ⟨_, .inl (piecesFrom_separator balanced depth fun more e => hr ⟨more, e⟩)⟩

/-- An expression takes a separator before anything else. -/
theorem tree_top {pattern : Text} {r : Regex}
    (h : tree limit [] (Level.start none) 0
      (items ((pieces (anchor pattern ['/'])).flatMap Piece.marks)) = .ok r) :
    ∃ separator rest, Separates separator ∧
      tree limit [] ((Level.start none).push separator) 0 rest = .ok r := by
  obtain ⟨ps, hp⟩ := piecesFrom_slash
    (countUnescaped '{' false (anchor pattern ['/']) ==
      countUnescaped '}' false (anchor pattern ['/']))
    0 (relative pattern)
  have hr := readable_anchor pattern ['/']
  rw [pieces] at h hr
  rw [← anchor_top] at hp
  rcases hp with hp | hp
  all_goals
    rw [hp] at h hr
    have hu := unrepeated_flatMap_marks
      (fun q h => hr q (List.mem_cons_of_mem _ h)) Regex.unrepeated_nil
    rw [List.append_nil] at hu
    rw [List.flatMap_cons, Piece.marks] at h
  · rw [List.cons_append, List.nil_append, Regex.items_separator hu] at h
    exact ⟨_, items (ps.flatMap Piece.marks), .one, h⟩
  · simp only [List.cons_append, List.nil_append, Regex.items_directories] at h
    rw [Regex.tree_directories] at h
    split at h
    · cases h
    · exact ⟨_, items (ps.flatMap Piece.marks), .directories, h⟩

/-- The first branch of a header takes nothing that does not begin with a separator. -/
theorem search_first_eq_none {α : Type} {pattern : Text} {r : Regex}
    (h : Regex.ofText limit ((pieces (anchor pattern ['/'])).flatMap Piece.text) = .ok r)
    {text : Text} (ht : ∀ rest, text ≠ '/' :: rest) (caps : Captures)
    (next : Text → Captures → Option α) :
    r.first.search text caps next = none := by
  rw [ofText_flatMap_text (readable_anchor pattern ['/'])] at h
  obtain ⟨separator, rest, hs, h⟩ := tree_top h
  have hl : (Level.start none).push separator =
      (Level.start none).leading (.seq .empty separator) := rfl
  rw [hl, Regex.tree_leading _ _ Level.IsBase.start] at h
  obtain ⟨r', -, rfl⟩ : ∃ r', tree limit [] (Level.start none) 0 rest = .ok r' ∧
      Regex.leading (.seq .empty separator) r' = r := by
    cases ht : tree limit [] (Level.start none) 0 rest with
    | error flaw => simp [ht, Except.map] at h
    | ok r' => exact ⟨r', rfl, by simpa [ht, Except.map] using h⟩
  have hq : (Regex.seq .empty separator).IsSequence := trivial
  rw [Regex.first_leading hq, Regex.search_after, Regex.search]
  exact hs.search_eq_none ht caps _

end Glob

namespace Matcher

theorem ofText_of_ofHeader {pattern directory : Text} {m : Matcher}
    (h : ofHeader limit pattern directory = .ok m) :
    Regex.ofText limit ((Glob.pieces (Glob.anchor pattern directory)).flatMap Glob.Piece.text) =
      .ok m.regex := by
  unfold ofHeader Glob.expression at h
  simp only at h
  split at h
  · cases h
  · simp only [bind, Except.bind] at h
    split at h
    · next r hr =>
      cases h
      exact hr
    · cases h
    · cases h

/-- Outside of its directory a header matches what its later branches accept, which is the same
below every directory. -/
theorem fullMatch?_below {pattern : Text} {m : Matcher} (h : ofHeader limit pattern ['/'] = .ok m)
    {directory path : Text} (hp : ¬ withSlash directory <+: path) :
    (m.below directory).regex.fullMatch? path = m.regex.laterMatch? path := by
  rw [below, Regex.fullMatch?, Regex.search_leading, Regex.groups_leading, Regex.groups_literal,
    Nat.zero_add, Regex.search_literal, Regex.laterMatch?]
  cases hd : path.dropPrefix? (Glob.stem directory) with
  | none => rfl
  | some rest =>
    have hr : ∀ more, rest ≠ '/' :: more := by
      rintro more rfl
      refine hp ⟨more, ?_⟩
      rw [Glob.withSlash_eq, Text.dropPrefix?_iff.1 hd, List.append_assoc]
      rfl
    rw [Option.bind_some, Glob.search_first_eq_none (ofText_of_ofHeader h) hr]
    rfl

theorem matches?_below {pattern : Text} {m : Matcher} (h : ofHeader limit pattern ['/'] = .ok m)
    {directory path : Text} (hp : ¬ withSlash directory <+: path) :
    (m.below directory).matches? path = .ok true ↔ m.AcceptsLater path := by
  rw [matches?, fullMatch?_below h hp, AcceptsLater]
  cases m.regex.laterMatch? path with
  | none => simp
  | some captures => simp [below]

end Matcher

theorem headerMatches_eq (directory pattern path : Text) :
    headerMatches limit directory pattern path =
      (Matcher.ofHeader limit pattern ['/']).bind fun m => (m.below directory).matches? path := by
  rw [headerMatches, Matcher.ofHeader_eq]
  cases Matcher.ofHeader limit pattern ['/'] <;> rfl

/-- A header stays inside its directory, whatever directory that is, exactly if it accepts
nothing by a branch behind the first. -/
theorem stays_inside_iff (pattern : Text) :
    (∀ directory path, headerMatches limit directory pattern path = .ok true →
      withSlash directory <+: path) ↔
    ∀ m, Matcher.ofHeader limit pattern ['/'] = .ok m → ∀ path, ¬ m.AcceptsLater path := by
  constructor
  · intro h m hm path ha
    -- a directory whose name is too long for the path to lie below it
    have hp : ¬ withSlash ('/' :: path) <+: path := by
      intro hp
      have hl := hp.length_le
      rw [Glob.withSlash_eq, Glob.stem, List.length_append] at hl
      split at hl
      · rw [List.length_dropLast, List.length_cons, List.length_singleton] at hl
        omega
      · rw [List.length_cons] at hl
        omega
    refine hp (h _ path ?_)
    rw [headerMatches_eq, hm]
    exact (Matcher.matches?_below hm hp).2 ha
  · intro h directory path hm
    by_contra hp
    rw [headerMatches_eq] at hm
    cases he : Matcher.ofHeader limit pattern ['/'] with
    | error e => simp [he, Except.bind] at hm
    | ok m =>
      rw [he] at hm
      exact h m he path ((Matcher.matches?_below he hp).1 hm)

/-- Two classes take the marks of a choice between them, all but its comma. -/
theorem reaches_outside :
    headerMatches 100 "/p".toList "/[\x7b]a,b[\x7d]".toList "b)".toList = .ok true ∧
      ¬ withSlash "/p".toList <+: "b)".toList :=
  ⟨by decide +kernel, by decide⟩

end EditorConfig
