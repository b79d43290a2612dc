import EditorConfig.Proofs.Glob.Classless
import EditorConfig.Proofs.Source.Grammar

/-! The groups of headers without classes. Main statement: such a header, with its braces nested
or else not as many opening as closing, is always made out unless groups are nested too deep in
it, and its groups are those of its ranges in the same order. -/
namespace EditorConfig
variable {limit : Nat}

namespace Regex

def captured : Regex → List (Nat × Regex)
  | .empty | .one _ | .many _ => []
  | .seq a b | .either a b => a.captured ++ b.captured
  | .group index body => (index, body) :: body.captured

theorem length_captured (r : Regex) : r.captured.length = r.groups := by
  induction r with
  | seq a b iha ihb | either a b iha ihb => rw [captured, List.length_append, iha, ihb, groups]
  | group index body ih => rw [captured, List.length_cons, ih, groups]
  | _ => rfl

/-- No way through an expression adds a group or takes one away. -/
theorem length_of_mem_ways {r : Regex} {text : Text} {caps : Captures} {way : Text × Captures}
    (h : way ∈ r.ways text caps) : way.2.length = caps.length := by
  induction r generalizing text caps way with
  | empty =>
    rw [ways, List.mem_singleton] at h
    rw [h]
  | one set =>
    cases text with
    | nil => cases h
    | cons c rest =>
      rw [ways] at h
      split at h
      · rw [List.mem_singleton.1 h]
      · cases h
  | many set =>
    obtain ⟨rest, -, rfl⟩ := List.mem_map.1 h
    rfl
  | seq a b iha ihb =>
    obtain ⟨mid, ha, hb⟩ := List.mem_flatMap.1 h
    rw [ihb hb, iha ha]
  | either a b iha ihb =>
    cases List.mem_append.1 h with
    | inl h => exact iha h
    | inr h => exact ihb h
  | group index body ih =>
    obtain ⟨mid, hm, rfl⟩ := List.mem_map.1 h
    rw [List.length_set, ih hm]

theorem length_of_fullMatch? {r : Regex} {text : Text} {captures : Captures}
    (h : r.fullMatch? text = some captures) : captures.length = r.groups := by
  rw [fullMatch?, search_eq] at h
  obtain ⟨way, hw, he⟩ := List.exists_of_findSome?_eq_some h
  have hl := length_of_mem_ways hw
  rw [List.length_replicate] at hl
  split at he
  · cases he
    exact hl
  · cases he

def digitGroups (count : Nat) : List (Nat × Regex) := (List.range count).map fun i => (i, digits)

theorem digitGroups_succ (count : Nat) :
    digitGroups (count + 1) = digitGroups count ++ [(count, digits)] := by
  rw [digitGroups, List.range_succ, List.map_append]
  rfl

namespace Level

def captured (level : Level) : List (Nat × Regex) :=
  level.branches.elim [] Regex.captured ++ level.sequence.captured

theorem captured_start (capture : Option Nat) : (start capture).captured = [] := rfl

theorem captured_push (level : Level) (r : Regex) :
    (level.push r).captured = level.captured ++ r.captured :=
  (List.append_assoc ..).symm

theorem captured_choice (level : Level) : level.choice.captured = level.captured := by
  obtain ⟨capture, branches, sequence⟩ := level
  cases branches <;> rfl

theorem captured_bar (level : Level) : level.bar.captured = level.captured := by
  rw [← captured_choice level]
  exact List.append_nil _

theorem captured_close {level : Level} (h : level.capture = none) :
    level.close.captured = level.captured := by
  rw [close, h]
  exact captured_choice level

end Level

def capturedBefore : List Level → List (Nat × Regex)
  | [] => []
  | level :: outer => capturedBefore outer ++ level.captured

/-- Nothing but groups of digits has been read as a group that captures, each with its number, and
`next` is the next number. -/
structure Counted (levels : List Level) (next : Nat) : Prop where
  capture : ∀ level ∈ levels, level.capture = none
  captured : capturedBefore levels = digitGroups next

namespace Counted
variable {level current : Level} {outer : List Level} {next : Nat}

theorem start : Counted [Level.start none] 0 := ⟨by simp [Level.start], rfl⟩

theorem push (h : Counted (current :: outer) next) {r : Regex} {count : Nat}
    (hr : digitGroups next ++ r.captured = digitGroups (next + count)) :
    Counted (current.push r :: outer) (next + count) := by
  have hc := List.forall_mem_cons.1 h.capture
  refine ⟨List.forall_mem_cons.2 ⟨hc.1, hc.2⟩, ?_⟩
  rw [capturedBefore, Level.captured_push, ← List.append_assoc, ← hr]
  exact congrArg (· ++ r.captured) h.captured

theorem opening (h : Counted (current :: outer) next) :
    Counted (Level.start none :: current :: outer) next := by
  refine ⟨List.forall_mem_cons.2 ⟨rfl, h.capture⟩, ?_⟩
  rw [capturedBefore, Level.captured_start, List.append_nil, h.captured]

theorem bar (h : Counted (current :: outer) next) : Counted (current.bar :: outer) next := by
  have hc := List.forall_mem_cons.1 h.capture
  refine ⟨List.forall_mem_cons.2 ⟨hc.1, hc.2⟩, ?_⟩
  rw [capturedBefore, Level.captured_bar]
  exact h.captured

theorem close (h : Counted (current :: level :: outer) next) :
    Counted (level.push current.close :: outer) next := by
  have hc := List.forall_mem_cons.1 h.capture
  have hl := List.forall_mem_cons.1 hc.2
  refine ⟨List.forall_mem_cons.2 ⟨hl.1, hl.2⟩, ?_⟩
  rw [capturedBefore, Level.captured_push, Level.captured_close hc.1, ← List.append_assoc]
  exact h.captured

end Counted

end Regex

namespace Glob
open Regex (Item Level tree digit digits Counted digitGroups)

def Piece.calls : Piece → Nat
  | .anyText | .anyName => 1
  | .anyDirectories | .number _ => 3
  | _ => 0

/-- How many calls inside of one another it takes at most, where `depth` groups are open at the
start. -/
def deepest : Nat → List Piece → Nat
  | depth, [] => 2 * depth
  | depth, .openChoice :: ps => deepest (depth + 1) ps
  | depth, .closeChoice :: ps => max (2 * depth) (deepest (depth - 1) ps)
  | depth, p :: ps => max (2 * depth + p.calls) (deepest depth ps)

def numbers (ps : List Piece) : Nat := (ps.filterMap Piece.bounds?).length

def Piece.regex (next : Nat) : Piece → Regex
  | .plain c | .quoted c | .bare c => .one (.exactly c)
  | .anyText => .many .notNewline
  | .anyName => .many (.noneOf [.one '/'])
  | .anyChar => .one .notNewline
  | .anyDirectories => Atom.anyDirectories.regex
  | .number _ => .group next digits
  | .openClass _ | .openChoice | .nextChoice | .closeChoice => .empty

theorem deepest_part {p : Piece} (hp : p.IsPart) (depth : Nat) (ps : List Piece) :
    deepest depth (p :: ps) = max (2 * depth + p.calls) (deepest depth ps) := by
  cases p with
  | openClass | openChoice | nextChoice | closeChoice => exact hp.elim
  | _ => rfl

theorem numbers_cons (p : Piece) (ps : List Piece) :
    numbers (p :: ps) = numbers [p] + numbers ps := by
  rw [numbers, numbers, numbers, ← List.singleton_append, List.filterMap_append, List.length_append]

theorem count_opening (ps : List Piece) :
    (ps.flatMap Piece.items).count (.opening true) = numbers ps := by
  induction ps with
  | nil => rfl
  | cons p ps ih =>
    have hp : p.items.count (.opening true) = numbers [p] := by
      cases p <;> rfl
    rw [List.flatMap_cons, List.count_append, hp, ih, ← numbers_cons]

theorem digitGroups_part {p : Piece} (hp : p.IsPart) (next : Nat) :
    digitGroups next ++ (p.regex next).captured = digitGroups (next + numbers [p]) := by
  cases p with
  | openClass | openChoice | nextChoice | closeChoice => exact hp.elim
  | number bounds => exact (Regex.digitGroups_succ next).symm
  | _ => exact List.append_nil _

theorem tree_part {p : Piece} (hp : p.IsPart) {outer : List Level}
    (ho : 2 * outer.length ≤ limit) (current : Level) (next : Nat) (items : List Item) :
    tree limit outer current next (p.items ++ items) =
      if 2 * outer.length + p.calls ≤ limit then
        tree limit outer (current.push (p.regex next)) (next + numbers [p]) items
      else .error .tooDeep := by
  cases p with
  | openClass | openChoice | nextChoice | closeChoice => exact hp.elim
  | anyDirectories => exact tree_atom .anyDirectories ho current next items
  | anyText => exact tree_atom .anyText ho current next items
  | anyName => exact tree_atom .anyName ho current next items
  | number bounds =>
    apply (Regex.tree_digits outer current next items).trans
    rw [Piece.calls]
    by_cases hd : limit < 2 * outer.length + 3
    · rw [if_pos hd, if_neg (by omega)]
    · rw [if_neg hd, if_pos (by omega)]
      rfl
  | plain | quoted | bare | anyChar => exact (if_pos ho).symm

theorem counted_part {p : Piece} (hp : p.IsPart) {current : Level} {outer : List Level} {next : Nat}
    (hc : Counted (current :: outer) next) :
    Counted (current.push (p.regex next) :: outer) (next + numbers [p]) :=
  hc.push (digitGroups_part hp next)

theorem le_deepest (depth : Nat) (ps : List Piece) : 2 * depth ≤ deepest depth ps := by
  fun_induction deepest depth ps with
  | case1 => exact Nat.le_refl _
  | case2 depth ps ih => omega
  | case3 => exact Nat.le_max_left _ _
  | case4 => omega

section
variable {left : Nat} {ps : List Piece} {outer : List Level} {current : Level} {next : Nat}
  (h : Nested outer.length ps left) (hl : left = 0)
include h hl

/-- Pieces that close all choices are read unless groups are nested too deep, and the groups of
the expression are numbered from left to right. -/
theorem tree_nested (hd : deepest outer.length ps ≤ limit)
    (hc : Counted (current :: outer) next) :
    ∃ r, tree limit outer current next (ps.flatMap Piece.items) = .ok r ∧
      r.captured = digitGroups (next + numbers ps) := by
  generalize ho : outer.length = depth at h hd
  fun_induction Nested depth ps left generalizing outer current next with
  | case1 depth left =>
    subst h hl
    cases outer with
    | nil =>
      refine ⟨current.close, rfl, ?_⟩
      rw [Level.captured_close (hc.capture current List.mem_cons_self)]
      exact hc.captured
    | cons => cases ho
  | case2 depth ps left ih =>
    have hm : ¬ limit < 2 * outer.length + 2 := by
      have hb := le_deepest (depth + 1) ps
      have hd' : deepest (depth + 1) ps ≤ limit := hd
      omega
    obtain ⟨r, hr, hg⟩ := ih hl hc.opening (congrArg (· + 1) ho) h hd
    refine ⟨r, ?_, hg⟩
    rw [← hr, List.flatMap_cons, Piece.items, List.singleton_append, tree, if_neg hm,
      if_neg (by simp)]
  | case3 depth ps left ih => exact ih hl hc.bar ho h.2 (max_le_iff.1 hd).2
  | case4 depth ps left ih =>
    cases outer with
    | nil =>
      subst ho
      exact absurd h.1 (Nat.lt_irrefl 0)
    | cons level outer =>
      subst ho
      exact ih hl hc.close rfl h.2 (max_le_iff.1 hd).2
  | case5 depth p ps left _ _ _ ih =>
    rw [deepest_part h.1, max_le_iff] at hd
    subst ho
    have hb := (Nat.le_add_right _ _).trans hd.1
    obtain ⟨r, hr, hg⟩ := ih hl (counted_part h.1 hc) rfl h.2 hd.2
    refine ⟨r, ?_, ?_⟩
    · rw [List.flatMap_cons, tree_part h.1 hb, if_pos hd.1, hr]
    · rw [hg, numbers_cons p ps, Nat.add_assoc]

theorem tree_nested_tooDeep (ho : 2 * outer.length ≤ limit)
    (hd : limit < deepest outer.length ps) :
    tree limit outer current next (ps.flatMap Piece.items) = .error .tooDeep := by
  generalize he : outer.length = depth at h hd ho
  fun_induction Nested depth ps left generalizing outer current next with
  | case1 => exact absurd hd (Nat.not_lt.2 ho)
  | case2 depth ps left ih =>
    rw [List.flatMap_cons, Piece.items, List.singleton_append, tree, he]
    by_cases hm : limit < 2 * depth + 2
    · rw [if_pos hm]
    · rw [if_neg hm, if_neg (by simp)]
      exact ih hl (congrArg (· + 1) he) h hd (Nat.not_lt.1 hm)
  | case3 depth ps left ih =>
    exact ih hl he h.2 ((lt_max_iff.1 hd).resolve_left (Nat.not_lt.2 ho)) ho
  | case4 depth ps left ih =>
    cases outer with
    | nil =>
      subst he
      exact absurd h.1 (Nat.lt_irrefl 0)
    | cons level outer =>
      subst he
      exact ih hl rfl h.2 ((lt_max_iff.1 hd).resolve_left (Nat.not_lt.2 ho))
        (by omega)
  | case5 depth p ps left _ _ _ ih =>
    rw [deepest_part h.1, lt_max_iff] at hd
    subst he
    rw [List.flatMap_cons, tree_part h.1 ho]
    by_cases hp : 2 * outer.length + p.calls ≤ limit
    · rw [if_pos hp]
      exact ih hl rfl h.2 (hd.resolve_left (Nat.not_lt.2 hp)) ho
    · rw [if_neg hp]

end

/-- Every unescaped brace that closes has one before it that it closes, and none stays open. -/
structure ProperlyNested (text : Text) : Prop where
  le : ∀ start, start <+: text →
    countUnescaped '\x7d' false start ≤ countUnescaped '\x7b' false start
  eq : countUnescaped '\x7b' false text = countUnescaped '\x7d' false text

theorem forall_prefix_cons {P : Text → Prop} {c : Char} {rest : Text} :
    (∀ start, start <+: c :: rest → P start) ↔
      P [] ∧ ∀ start, start <+: rest → P (c :: start) := by
  simp only [List.prefix_cons_iff]
  grind

/-- The braces of a text close each other if no beginning has too many that close. -/
theorem closes_iff (opened : Nat) (escaped : Bool) (text : Text) :
    closes opened escaped text = true ↔
      (∀ start, start <+: text →
        countUnescaped '\x7d' escaped start ≤ opened + countUnescaped '\x7b' escaped start) ∧
      opened + countUnescaped '\x7b' escaped text = countUnescaped '\x7d' escaped text := by
  fun_induction closes opened escaped text with
  | case1 opened escaped => simp [countUnescaped, List.prefix_nil]
  | case2 opened c rest ih =>
    rw [ih, forall_prefix_cons]
    simp [countUnescaped]
  | case3 opened rest ih =>
    rw [ih, forall_prefix_cons]
    simp [countUnescaped, Nat.add_assoc]
  | case4 opened rest _ ih =>
    cases opened with
    | zero =>
      refine iff_of_false Bool.false_ne_true fun h => ?_
      simpa [countUnescaped] using h.1 ['\x7d'] (List.cons_prefix_cons.2 ⟨rfl, List.nil_prefix⟩)
    | succ opened =>
      have hl : ∀ m n, 1 + n ≤ opened + 1 + m ↔ n ≤ opened + m := by omega
      have he : ∀ m n, opened + 1 + m = 1 + n ↔ opened + m = n := by omega
      rw [Nat.add_sub_cancel] at ih
      rw [Nat.add_sub_cancel, forall_prefix_cons, Bool.and_eq_true, ih]
      simp [countUnescaped, hl, he]
  | case5 opened c rest ho hc ih =>
    rw [ih, forall_prefix_cons]
    simp [countUnescaped, ho, hc]

theorem properlyNested_iff {text : Text} : ProperlyNested text ↔ closes 0 false text = true := by
  rw [closes_iff]
  simp only [Nat.zero_add]
  exact ⟨fun h => ⟨h.le, h.eq⟩, fun h => ⟨h.1, h.2⟩⟩

instance (text : Text) : Decidable (ProperlyNested text) :=
  decidable_of_iff _ properlyNested_iff.symm

theorem Clear.mono {stops stops' : Text} (hs : ∀ s ∈ stops', s ∈ stops) {text : Text}
    (h : Clear stops text) : Clear stops' text := by
  induction h with
  | nil => exact .nil
  | quoted c _ ih => exact .quoted c ih
  | bare hc hb _ ih => exact .bare (fun hi => hc (hs _ hi)) hb ih

theorem nested_pieces {glob : Text} (h : countUnescaped '[' false glob = 0)
    (hk : Closable (countUnescaped '\x7b' false glob == countUnescaped '\x7d' false glob) 0 glob) :
    Nested 0 (pieces glob) 0 := by
  obtain ⟨left, hn, hl⟩ := nested_piecesFrom h
  have hz := hl hk
  subst hz
  exact hn

theorem closable_anchor_top {pattern : Text}
    (h : countUnescaped '\x7b' false pattern ≠ countUnescaped '\x7d' false pattern ∨
      ProperlyNested pattern) :
    Closable (countUnescaped '\x7b' false (anchor pattern ['/']) ==
      countUnescaped '\x7d' false (anchor pattern ['/'])) 0 (anchor pattern ['/']) := by
  rw [countUnescaped_anchor_top (by decide), countUnescaped_anchor_top (by decide)]
  cases h with
  | inl h =>
    rw [beq_false_of_ne h]
    rfl
  | inr h =>
    obtain ⟨lead, he, hk⟩ := anchor_top_eq_append pattern
    rw [h.eq, beq_self_eq_true, he]
    refine ⟨0, Nat.le_refl 0, ?_⟩
    rw [closes_append (hk.mono (by simp))]
    exact properlyNested_iff.1 h

section
variable {pattern : Text} (hc : countUnescaped '[' false pattern = 0)
  (hb : countUnescaped '\x7b' false pattern ≠ countUnescaped '\x7d' false pattern ∨
    ProperlyNested pattern) (directory : Text)
include hc hb

/-- Below every directory the choices of the pattern close each other. -/
theorem nested_anchor : Nested 0 (pieces (anchor pattern directory)) 0 := by
  have hp : ∀ p ∈ (stem directory).map literalPiece, p.IsPart := by
    intro p h
    obtain ⟨c, -, rfl⟩ := List.mem_map.1 h
    exact isPart_literalPiece c
  rw [pieces_anchor, nested_parts hp]
  exact nested_pieces ((countUnescaped_anchor_top (by decide) pattern).trans hc)
    (closable_anchor_top hb)

theorem ofText_classless :
    Regex.ofText limit ((pieces (anchor pattern directory)).flatMap Piece.text) =
      tree limit [] (Level.start none) 0
        ((pieces (anchor pattern directory)).flatMap Piece.items) := by
  have hr := readable_anchor pattern directory
  rw [ofText_flatMap_text hr, items_flatMap hr (openClass_notMem (nested_anchor hc hb directory))]

end

end Glob

namespace NumericRange

/-- A check of ranges misses no group if there is one for each range. -/
theorem acceptAll_ne_missingGroup {ranges : List NumericRange} {captures : Captures}
    (h : ranges.length ≤ captures.length) : acceptAll ranges captures ≠ .error .missingGroup := by
  induction ranges generalizing captures with
  | nil =>
    intro he
    cases he
  | cons r ranges ih =>
    cases captures with
    | nil => cases h
    | cons c captures =>
      rw [acceptAll]
      cases ha : r.accepts c with
      | error e =>
        rw [(accepts_eq_error_iff.1 ha).1]
        intro he
        cases he
      | ok accepted =>
        cases accepted with
        | true => exact ih (Nat.le_of_succ_le_succ h)
        | false =>
          intro he
          cases he

end NumericRange

namespace Matcher
open Glob (countUnescaped ProperlyNested ShortBounds Piece pieces anchor deepest)

structure LinesUp (m : Matcher) (ps : List Piece) : Prop where
  ranges : m.ranges = (ps.filterMap Piece.bounds?).map Bounds.range
  captured : m.regex.captured = (List.range m.ranges.length).map fun i => (i, Regex.digits)
  /-- The group of a range is the one whose parenthesis is written for it. -/
  opened : ∀ before bounds behind, ps = before ++ .number bounds :: behind →
    m.ranges[(Regex.items (before.flatMap Piece.marks)).count (.opening true)]? = some bounds.range

theorem matches?_ne_missingGroup {m : Matcher} (h : m.regex.groups = m.ranges.length)
    (path : Text) :
    m.matches? path ≠ .error .missingGroup := by
  rw [matches?]
  cases hm : m.regex.fullMatch? path with
  | none =>
    intro he
    cases he
  | some captures =>
    have hl := Regex.length_of_fullMatch? hm
    exact NumericRange.acceptAll_ne_missingGroup (by omega)

theorem linesUp_of_nested {m : Matcher} {ps : List Piece} (hn : Glob.Nested 0 ps 0)
    (hp : ∀ p ∈ ps, p.Readable) (hr : m.ranges = (ps.filterMap Piece.bounds?).map Bounds.range)
    (hg : m.regex.captured = Regex.digitGroups (Glob.numbers ps)) : m.LinesUp ps := by
  refine ⟨hr, ?_, ?_⟩
  · rw [hg, hr, List.length_map]
    rfl
  · intro before bounds behind he
    have hb : ∀ p ∈ before, p ∈ ps := fun p h => he ▸ List.mem_append_left _ h
    rw [Glob.items_flatMap (fun p h => hp p (hb p h))
        fun negated h => Glob.openClass_notMem hn negated (hb _ h),
      Glob.count_opening, hr, he, List.filterMap_append, List.map_append,
      List.getElem?_append_right (by simp [Glob.numbers])]
    simp [Glob.numbers, Piece.bounds?]

/-- A header without classes is made out if there is room for the groups that are nested in it,
and its braces are nested or else not as many open as close. It has a group for each range, and
never misses one. -/
theorem ofHeader_classless {pattern : Text} (hc : countUnescaped '[' false pattern = 0)
    (hb : countUnescaped '\x7b' false pattern ≠ countUnescaped '\x7d' false pattern ∨
      ProperlyNested pattern) (hs : ShortBounds pattern) (directory : Text) :
    (limit < deepest 0 (pieces (anchor pattern directory)) →
      ofHeader limit pattern directory = .error .tooDeep) ∧
    (deepest 0 (pieces (anchor pattern directory)) ≤ limit →
      ∃ m, ofHeader limit pattern directory = .ok m ∧
        m.LinesUp (pieces (anchor pattern directory)) ∧ m.regex.groups = m.ranges.length ∧
          ∀ path, m.matches? path ≠ .error .missingGroup) := by
  have hn := Glob.nested_anchor hc hb directory
  have hl := hs.not_any_isTooLong
  rw [← Glob.bounds_anchor pattern directory] at hl
  rw [ofHeader_eq_ite, if_neg hl, Glob.ofText_classless hc hb]
  constructor
  · intro hd
    rw [@Glob.tree_nested_tooDeep limit 0 _ [] _ _ hn rfl (Nat.zero_le _) hd]
  · intro hd
    obtain ⟨r, hr, hg⟩ := @Glob.tree_nested limit 0 _ [] _ _ hn rfl hd .start
    rw [Nat.zero_add] at hg
    have hk : r.groups = ((pieces (anchor pattern directory)).filterMap Piece.bounds?).length := by
      rw [← Regex.length_captured, hg, Regex.digitGroups, List.length_map, List.length_range]
      rfl
    rw [← List.length_map Bounds.range] at hk
    rw [hr]
    exact ⟨_, rfl, linesUp_of_nested hn (Glob.readable_anchor pattern directory) rfl hg, hk,
      matches?_ne_missingGroup hk⟩

/-- A pair of braces that ends where an inner one does, between numeric ranges and choices. -/
theorem ofHeader_classless_stray :
    ProperlyNested "\x7b5..7\x7d\x7ba\x7bb\x7d,\x7b1..3\x7d\x7bc,\x7b2..4\x7d\x7d\x7d".toList ∧
      ∃ m, ofHeader 100 "\x7b5..7\x7d\x7ba\x7bb\x7d,\x7b1..3\x7d\x7bc,\x7b2..4\x7d\x7d\x7d".toList
          "/p[".toList = .ok m ∧
        m.ranges = [⟨5, 7⟩, ⟨1, 3⟩, ⟨2, 4⟩] ∧ m.regex.groups = 3 ∧
        ∀ path, m.matches? path ≠ .error .missingGroup := by
  have hb : ProperlyNested
      "\x7b5..7\x7d\x7ba\x7bb\x7d,\x7b1..3\x7d\x7bc,\x7b2..4\x7d\x7d\x7d".toList := by decide
  obtain ⟨m, hm, hl, hg, hn⟩ :=
    (@ofHeader_classless 100 _ (by decide) (.inr hb) (by decide +kernel) "/p[".toList).2
      (by decide +kernel)
  have hr : m.ranges = [⟨5, 7⟩, ⟨1, 3⟩, ⟨2, 4⟩] := hl.ranges.trans (by decide +kernel)
  rw [hr] at hg
  exact ⟨hb, m, hm, hr, hg, hn⟩

end Matcher

namespace Glob

theorem closes_nested (n opened : Nat) (rest : Text) :
    closes opened false ((Term.nested n).text ++ rest) = closes opened false rest := by
  induction n generalizing opened rest with
  | zero => rfl
  | succ n ih =>
    rw [Term.text_nested]
    simp [closes, ih]

theorem properlyNested_nested (n : Nat) : ProperlyNested (Term.nested n).text := by
  have hc := closes_nested n 0 []
  rw [List.append_nil] at hc
  exact properlyNested_iff.2 hc

/-- A thousand choices inside of one another, properly nested, and too deep to be made out. -/
theorem not_every_classless_made_out :
    ¬ ∃ limit, limit < 1000 ∧ ∀ pattern directory : Text, countUnescaped '[' false pattern = 0 →
      (countUnescaped '\x7b' false pattern ≠ countUnescaped '\x7d' false pattern ∨
        ProperlyNested pattern) →
      ShortBounds pattern → ∃ m, Matcher.ofHeader limit pattern directory = .ok m := by
  intro h
  obtain ⟨limit, hl, h⟩ := h
  have hc : countUnescaped '[' false (Term.nested (999 + 1)).text = 0 :=
    countUnescaped_eq_zero (fun hm => absurd (Term.mem_text_nested hm) (by decide)) false
  obtain ⟨m, hm⟩ := h _ ['/'] hc (.inr (properlyNested_nested _)) (shortBounds_nested 999)
  have ht : TooDeep limit (Term.nested (999 + 1)).text := tooDeep_nested (by omega)
  rw [TooDeep, Matcher.ofText_of_ofHeader hm] at ht
  cases ht

end Glob

end EditorConfig
