import EditorConfig.Proofs.Glob.Choice

/-! What choices match. Main statement: a choice accepts a path if one of its alternatives does
alone and no other holds a numeric range, because every range has to have digits. If the first
alternative holds one there is no choice at all. -/
namespace EditorConfig
open Text (ShortRuns)
variable {limit : Nat}

namespace NumericRange
variable {ranges more : List NumericRange} {captures captures' : Captures}

theorem acceptAll_append (h : ranges.length = captures.length) :
    acceptAll (ranges ++ more) (captures ++ captures') =
      (acceptAll ranges captures).bind fun accepted =>
        if accepted then acceptAll more captures' else .ok false := by
  induction ranges generalizing captures with
  | nil =>
    rw [List.eq_nil_of_length_eq_zero h.symm]
    rfl
  | cons r ranges ih =>
    cases captures with
    | nil => cases h
    | cons c captures =>
      rw [List.cons_append, List.cons_append, acceptAll, acceptAll]
      cases r.accepts c with
      | error e => rfl
      | ok accepted =>
        cases accepted with
        | true => exact ih (Nat.succ.inj h)
        | false => rfl

/-- Ranges that the match went past refuse it. -/
theorem acceptAll_replicate (ranges : List NumericRange) :
    acceptAll ranges (List.replicate ranges.length none) = .ok ranges.isEmpty := by
  cases ranges <;> rfl

/-- Where only the ranges in the middle have digits, there may be no others. -/
theorem acceptAll_middle {before after : List NumericRange} {numbers : List Text}
    (h : ranges.length = numbers.length) {accepted : Bool}
    (ha : acceptAll ranges (numbers.map some) = .ok accepted) :
    acceptAll (before ++ (ranges ++ after))
        (List.replicate before.length none ++
          (numbers.map some ++ List.replicate after.length none)) =
      .ok (before.isEmpty && accepted && after.isEmpty) := by
  rw [acceptAll_append (by simp), acceptAll_append (by simpa using h), acceptAll_replicate,
    acceptAll_replicate, ha]
  cases before.isEmpty <;> cases accepted <;> rfl

end NumericRange

namespace Glob.Spelling
open EditorConfig.Glob.Field (fill)

section
variable (behind text : Text) (caps : Captures)

theorem choose?_eq_none {next : Nat} {alternatives : List Spelling}
    (h : choose? behind text caps next alternatives = none) :
    ∀ s ∈ alternatives, (s ++ letters behind).reading? text = none := by
  induction alternatives generalizing next with
  | nil => exact nofun
  | cons s others ih =>
    rw [choose?, Option.or_eq_none_iff, Option.map_eq_none_iff] at h
    exact List.forall_mem_cons.2 ⟨h.1, ih h.2⟩

/-- The alternative that is taken is the first that can be read. -/
theorem choose?_eq_some {next : Nat} {alternatives : List Spelling} {captures : Captures}
    (h : choose? behind text caps next alternatives = some captures) :
    ∃ before s after numbers, alternatives = before ++ s :: after ∧
      (∀ t ∈ before, (t ++ letters behind).reading? text = none) ∧
      (s ++ letters behind).reading? text = some numbers := by
  induction alternatives generalizing next with
  | nil => cases h
  | cons s others ih =>
    cases hs : (s ++ letters behind).reading? text with
    | some numbers => exact ⟨[], s, others, numbers, rfl, nofun, hs⟩
    | none =>
      rw [choose?, hs, Option.map_none, Option.none_or] at h
      obtain ⟨before, s', after, numbers, rfl, hb, hr⟩ := ih h
      exact ⟨s :: before, s', after, numbers, rfl, List.forall_mem_cons.2 ⟨hs, hb⟩, hr⟩

theorem choose?_append {next : Nat} {before : List Spelling} {s : Spelling} {numbers : List Text}
    (hb : ∀ t ∈ before, (t ++ letters behind).reading? text = none)
    (hs : (s ++ letters behind).reading? text = some numbers) (after : List Spelling) :
    choose? behind text caps next (before ++ s :: after) =
      some (fill caps (next + (allBounds before).length) numbers) := by
  induction before generalizing next with
  | nil =>
    rw [List.nil_append, choose?, hs]
    rfl
  | cons t before ih =>
    rw [List.forall_mem_cons] at hb
    rw [List.cons_append, choose?, hb.1, ih hb.2, length_allBounds_cons, Nat.add_assoc]
    rfl

end

theorem bounds_behind (s : Spelling) (behind : Text) : (s ++ letters behind).bounds = s.bounds := by
  rw [bounds_append, bounds_letters, List.append_nil]

def Short (s : Spelling) : Prop := ∀ b ∈ s.bounds, b.isTooLong = false

instance (s : Spelling) : Decidable s.Short :=
  inferInstanceAs (Decidable (∀ b ∈ s.bounds, b.isTooLong = false))

theorem not_any_isTooLong {alternatives : List Spelling} (h : ∀ s ∈ alternatives, s.Short) :
    (allBounds alternatives).any Bounds.isTooLong = false := by
  rw [List.any_eq_false]
  intro b hb
  obtain ⟨s, hs, hm⟩ := List.mem_flatMap.1 hb
  exact Bool.eq_false_iff.1 (h s hs b hm)

theorem outcome_behind {s : Spelling} (hs : s.Short) (behind lead rest : Text) :
    (s ++ letters behind).outcome lead (lead ++ rest) =
      match (s ++ letters behind).reading? rest with
      | none => .ok false
      | some numbers => NumericRange.acceptAll s.ranges (numbers.map some) := by
  have hb : s.bounds.any Bounds.isTooLong = false := by
    rw [List.any_eq_false]
    exact fun b hm => Bool.eq_false_iff.1 (hs b hm)
  rw [outcome, ranges, bounds_behind, hb, Text.dropPrefix?_iff.2 rfl]
  rfl

/-- A spelling that can be read is checked by the digits of its ranges. -/
theorem outcome_of_reading? {s : Spelling} (hs : s.Short) {behind rest : Text} {numbers : List Text}
    (h : (s ++ letters behind).reading? rest = some numbers) (lead : Text) :
    (s ++ letters behind).outcome lead (lead ++ rest) =
      NumericRange.acceptAll s.ranges (numbers.map some) := by
  rw [outcome_behind hs, h]

theorem length_of_reading? {s : Spelling} {behind rest : Text} {numbers : List Text}
    (h : (s ++ letters behind).reading? rest = some numbers) :
    s.ranges.length = numbers.length := by
  rw [(mem_readings (mem_of_reading? h)).1, bounds_behind, ranges, List.length_map]

theorem outcome_isOk {s : Spelling} (hs : s.Short) {lead rest : Text}
    (hp : (lead ++ rest).ShortRuns) (behind : Text) :
    ∃ accepted, (s ++ letters behind).outcome lead (lead ++ rest) = .ok accepted := by
  cases hr : (s ++ letters behind).reading? rest with
  | none =>
    rw [outcome_behind hs, hr]
    exact ⟨false, rfl⟩
  | some numbers =>
    rw [outcome_of_reading? hs hr]
    refine NumericRange.acceptAll_isOk (length_of_reading? hr) fun run hm => ?_
    obtain ⟨hd, hi⟩ := (mem_readings (mem_of_reading? hr)).2.2 run hm
    exact hp run (hi.trans (List.suffix_append lead rest).isInfix) hd.digit

theorem isEmpty_allRanges (alternatives : List Spelling) :
    (allRanges alternatives).isEmpty = (allBounds alternatives).isEmpty := by
  rw [allRanges, List.isEmpty_map]

/-- What a choice says if the first alternative that can be read is known: only its ranges have
digits. -/
theorem outcomeOfChoice_of_first {before after : List Spelling} {s : Spelling} {behind rest : Text}
    {numbers : List Text} (hs : ∀ t ∈ before ++ s :: after, t.Short)
    (hb : ∀ t ∈ before, (t ++ letters behind).reading? rest = none)
    (hr : (s ++ letters behind).reading? rest = some numbers) {lead : Text} {accepted : Bool}
    (ha : (s ++ letters behind).outcome lead (lead ++ rest) = .ok accepted) :
    outcomeOfChoice (before ++ s :: after) behind lead (lead ++ rest) =
      .ok ((allBounds before).isEmpty && accepted && (allBounds after).isEmpty) := by
  have hl := length_of_reading? hr
  have hn : (allBounds (before ++ s :: after)).length =
      (allBounds before).length + (numbers.length + (allBounds after).length) := by
    rw [← hl, ranges, List.length_map, ← length_allBounds_cons, allBounds, List.flatMap_append,
      List.length_append]
    rfl
  have hc : fill (List.replicate (allBounds (before ++ s :: after)).length none)
      (0 + (allBounds before).length) numbers =
        List.replicate (allRanges before).length none ++
          (numbers.map some ++ List.replicate (allRanges after).length none) := by
    have hf := Field.fill_between (List.replicate (allBounds before).length none)
      (List.replicate (allBounds after).length none) numbers
    rw [List.length_replicate] at hf
    rw [hn, List.replicate_add, List.replicate_add, Nat.zero_add, hf, allRanges, allRanges,
      List.length_map, List.length_map]
  have hg : allRanges (before ++ s :: after) =
      allRanges before ++ (s.ranges ++ allRanges after) := by
    simp [allRanges, allBounds, ranges]
  have hm := hs s (List.mem_append_right before List.mem_cons_self)
  rw [outcome_of_reading? hm hr] at ha
  rw [outcomeOfChoice, not_any_isTooLong hs, Text.dropPrefix?_iff.2 rfl, Option.bind_some,
    choose?_append behind rest _ hb hr, hc, hg]
  exact (NumericRange.acceptAll_middle hl ha).trans (by rw [isEmpty_allRanges, isEmpty_allRanges])

theorem reading?_of_accepts {s : Spelling} (hs : s.Short) {behind lead rest : Text}
    (h : (s ++ letters behind).outcome lead (lead ++ rest) = .ok true) :
    ∃ numbers, (s ++ letters behind).reading? rest = some numbers := by
  rw [outcome_behind hs] at h
  cases hr : (s ++ letters behind).reading? rest with
  | none =>
    rw [hr] at h
    cases h
  | some numbers => exact ⟨numbers, rfl⟩

/-- Without ranges there is nothing to check. -/
theorem accepts_of_reading? {s : Spelling} (hs : s.bounds = []) {behind rest : Text}
    {numbers : List Text} (h : (s ++ letters behind).reading? rest = some numbers) (lead : Text) :
    (s ++ letters behind).outcome lead (lead ++ rest) = .ok true := by
  have hm : s.Short := fun b hb => absurd (hs ▸ hb) List.not_mem_nil
  rw [outcome_of_reading? hm h, ranges, hs]
  rfl

theorem eq_append_of_accepts {s : Spelling} {lead path : Text}
    (h : s.outcome lead path = .ok true) : ∃ rest, path = lead ++ rest := by
  cases hd : path.dropPrefix? lead with
  | none =>
    rw [outcome, hd] at h
    split at h <;> cases h
  | some rest => exact ⟨rest, Text.dropPrefix?_iff.1 hd⟩

/-- The alternative accepts alone, no other holds a range, and if it holds one itself none before
it accepts. -/
structure Decides (accepts : Spelling → Prop) (before : List Spelling) (s : Spelling)
    (after : List Spelling) : Prop where
  accepted : accepts s
  others : ∀ t ∈ before ++ after, t.bounds = []
  first : s.bounds ≠ [] → ∀ t ∈ before, ¬ accepts t

theorem allBounds_eq_nil_iff {alternatives : List Spelling} :
    allBounds alternatives = [] ↔ ∀ s ∈ alternatives, s.bounds = [] :=
  List.flatMap_eq_nil_iff

section
variable {before after : List Spelling} {s : Spelling} {behind lead rest : Text}
  (hs : ∀ t ∈ before ++ s :: after, t.Short)
include hs

/-- The alternative that decides is the first that can be read, or nothing is to be checked. -/
theorem outcomeOfChoice_of_decides
    (hd : Decides (fun t => (t ++ letters behind).outcome lead (lead ++ rest) = .ok true)
      before s after)
    (hn : s.bounds ≠ []) :
    outcomeOfChoice (before ++ s :: after) behind lead (lead ++ rest) = .ok true := by
  obtain ⟨numbers, hr⟩ :=
    reading?_of_accepts (hs s (List.mem_append_right before List.mem_cons_self)) hd.accepted
  have hb : ∀ t ∈ before, (t ++ letters behind).reading? rest = none := by
    intro t ht
    cases hr' : (t ++ letters behind).reading? rest with
    | none => rfl
    | some numbers' =>
      have hz := hd.others t (List.mem_append_left after ht)
      exact absurd (accepts_of_reading? hz hr' lead) (hd.first hn t ht)
  rw [outcomeOfChoice_of_first hs hb hr hd.accepted,
    allBounds_eq_nil_iff.2 fun t ht => hd.others t (List.mem_append_left after ht),
    allBounds_eq_nil_iff.2 fun t ht => hd.others t (List.mem_append_right before ht)]
  rfl

theorem accepted_iff_decides {numbers : List Text} {accepted : Bool}
    (hb : ∀ t ∈ before, (t ++ letters behind).reading? rest = none)
    (hr : (s ++ letters behind).reading? rest = some numbers)
    (ha : (s ++ letters behind).outcome lead (lead ++ rest) = .ok accepted) :
    ((allBounds before).isEmpty && accepted && (allBounds after).isEmpty) = true ↔
      ∃ before' s' after', before ++ s :: after = before' ++ s' :: after' ∧
        Decides (fun t => (t ++ letters behind).outcome lead (lead ++ rest) = .ok true)
          before' s' after' := by
  constructor
  · intro h
    simp only [Bool.and_eq_true, List.isEmpty_iff, allBounds_eq_nil_iff] at h
    obtain ⟨⟨hu, rfl⟩, hv⟩ := h
    refine ⟨before, s, after, rfl, ha, List.forall_mem_append.2 ⟨hu, hv⟩, fun _ t ht => ?_⟩
    rw [outcome_behind (hs t (List.mem_append_left _ ht)), hb t ht]
    exact nofun
  · intro ⟨before', s', after', he, hd⟩
    have hf := outcomeOfChoice_of_first hs hb hr ha
    by_cases hn : s'.bounds = []
    · have hz : ∀ t ∈ before ++ s :: after, t.bounds = [] := by
        rw [he, List.forall_mem_append, List.forall_mem_cons]
        exact ⟨fun t ht => hd.others t (List.mem_append_left after' ht), hn,
          fun t ht => hd.others t (List.mem_append_right before' ht)⟩
      rw [List.forall_mem_append, List.forall_mem_cons] at hz
      rw [accepts_of_reading? hz.2.1 hr, Except.ok.injEq] at ha
      rw [← ha, allBounds_eq_nil_iff.2 hz.1, allBounds_eq_nil_iff.2 hz.2.2]
      rfl
    · rw [he] at hs hf
      rw [outcomeOfChoice_of_decides hs hd hn, Except.ok.injEq] at hf
      exact hf.symm

end

/-- A choice never fails on paths with short numbers, and accepts where an alternative decides. -/
theorem outcomeOfChoice_iff {alternatives : List Spelling} (hs : ∀ s ∈ alternatives, s.Short)
    (behind lead : Text) {path : Text} (hp : path.ShortRuns) :
    ∃ accepted, outcomeOfChoice alternatives behind lead path = .ok accepted ∧
      (accepted = true ↔ ∃ before s after, alternatives = before ++ s :: after ∧
        Decides (fun t => (t ++ letters behind).outcome lead path = .ok true) before s after) := by
  cases hd : path.dropPrefix? lead with
  | none =>
    refine ⟨false, ?_, iff_of_false Bool.false_ne_true ?_⟩
    · rw [outcomeOfChoice, not_any_isTooLong hs, hd]
      rfl
    · intro h
      obtain ⟨_, _, _, _, ha⟩ := h
      obtain ⟨rest, hr⟩ := eq_append_of_accepts ha.accepted
      rw [Text.dropPrefix?_iff.2 hr] at hd
      cases hd
  | some rest =>
    rw [Text.dropPrefix?_iff.1 hd] at hp ⊢
    cases hc : choose? behind rest (List.replicate (allBounds alternatives).length none) 0
        alternatives with
    | none =>
      refine ⟨false, ?_, iff_of_false Bool.false_ne_true ?_⟩
      · rw [outcomeOfChoice, not_any_isTooLong hs, Text.dropPrefix?_iff.2 rfl, Option.bind_some, hc]
        rfl
      · intro h
        obtain ⟨before, s, after, he, ha⟩ := h
        have hm : s ∈ alternatives := he ▸ List.mem_append_right before List.mem_cons_self
        obtain ⟨numbers, hr⟩ := reading?_of_accepts (hs s hm) ha.accepted
        rw [choose?_eq_none behind rest _ hc s hm] at hr
        cases hr
    | some captures =>
      obtain ⟨before, s, after, numbers, rfl, hb, hr⟩ := choose?_eq_some behind rest _ hc
      obtain ⟨accepted, ha⟩ :=
        outcome_isOk (hs s (List.mem_append_right before List.mem_cons_self)) hp behind
      exact ⟨_, outcomeOfChoice_of_first hs hb hr ha, accepted_iff_decides hs hb hr ha⟩

/-- A text at the start of a spelling is one that paths have to begin with. -/
theorem outcome_letters (start : Text) (s : Spelling) (lead path : Text) :
    (letters start ++ s).outcome lead path = s.outcome (lead ++ start) path := by
  have hb : (letters start ++ s).bounds = s.bounds := by
    rw [bounds_append, bounds_letters, List.nil_append]
  have hr : ∀ rest : Text,
      (letters start ++ s).reading? rest = (rest.dropPrefix? start).bind s.reading? := by
    intro rest
    rw [reading?, readings_letters]
    cases rest.dropPrefix? start <;> rfl
  rw [outcome, outcome, ranges, hb, Text.dropPrefix?_append, Option.bind_assoc]
  simp only [← hr]
  rfl

/-- What an alternative says alone. -/
theorem headerMatches_between (hl : 5 ≤ limit) (directory start : Text) (s : Spelling)
    (behind path : Text) :
    headerMatches limit directory ('/' :: (between start s behind).text) path =
      (s ++ letters behind).outcome (withSlash directory ++ start) path := by
  rw [headerMatches_text _ _ fun _ => by omega, between, outcome_letters]

theorem literalBraces_letters (start : Text) {rest : Text} (hr : ∀ more, rest ≠ '*' :: more) :
    literalBraces ((letters start).text ++ rest) =
      (letters start).map Token.piece ++ literalBraces rest := by
  induction start with
  | nil => rfl
  | cons c start ih =>
    have hs := text_ne_cons (letters start) (.inl rfl) hr
    obtain ⟨d, rest', ht, -, hp⟩ := Token.piecesAt_letter c hs
    have hc : (letters (c :: start)).text ++ rest = d :: rest' := by
      rw [← ht, ← List.append_assoc]
      rfl
    rw [hc, literalBraces, hp, ih]
    rfl

theorem text_letters {start : Text} (h : ∀ c ∈ start, isWildcard c = false ∧ c ≠ ' ') :
    (letters start).text = start := by
  induction start with
  | nil => rfl
  | cons c start ih =>
    rw [List.forall_mem_cons] at h
    have hc : (Token.letter c).text = [c] := by
      rw [Token.text, h.1.1, beq_false_of_ne h.1.2]
      rfl
    have ht : (letters (c :: start)).text = (Token.letter c).text ++ (letters start).text := rfl
    rw [ht, hc, ih h.2]
    rfl

/-- The digits, signs and dots of a range are letters that need no backslash. -/
theorem text_letters_written (r : WrittenRange) : (letters r.text).text = r.text := by
  refine text_letters fun c hc => ?_
  have hk := Bounds.mem_of_ofText? r.reads hc
  have hn : ∀ d ∈ "\\*?[]\x7b\x7d,".toList, ¬ (d.isDigit = true ∨ d ∈ "+-.".toList) := by simp
  constructor
  · rw [Bool.eq_false_iff]
    exact fun hw => hn c (List.contains_iff_mem.1 hw) hk
  · rintro rfl
    exact absurd hk (by decide)

theorem piecesFrom_others_literal (balanced : Bool) (others : List Spelling) (more : Text) :
    piecesFrom balanced 0 (others.flatMap (fun s => ',' :: s.text) ++ '\x7d' :: more) =
      others.flatMap (fun s => .bare ',' :: s.map Token.piece) ++
        .bare '\x7d' :: piecesFrom balanced 0 more := by
  induction others with
  | nil =>
    rw [List.flatMap_nil, List.nil_append, piecesFrom]
    simp [piecesAt]
  | cons s others ih =>
    have hc : ∀ rest,
        piecesFrom balanced 0 (',' :: rest) = .bare ',' :: piecesFrom balanced 0 rest := by
      intro rest
      rw [piecesFrom]
      simp [piecesAt]
    rw [List.flatMap_cons, List.cons_append, List.cons_append, List.append_assoc, hc,
      piecesFrom_text _ _ s (others_ne_cons others (.inl rfl) more), ih, List.flatMap_cons,
      List.cons_append, List.cons_append, List.append_assoc]

/-- What is left of a choice whose first alternative holds a range: the brace that closes the
range closes the pair, so the braces around the choice, its commas and that range are text. -/
def unfolded (start lead : Text) (r : WrittenRange) (tail : Spelling) (others : List Spelling)
    (behind : Text) : Spelling :=
  letters (start ++ '\x7b' :: (lead ++ '\x7b' :: (r.text ++ ['\x7d']))) ++
    (tail ++ (others.flatMap (fun s => .letter ',' :: s) ++ letters ('\x7d' :: behind)))

/-- What a pair of braces is read as that is closed by the brace of a range. -/
theorem braced_unfolded (lead : Text) (r : WrittenRange) :
    braced ((letters lead).text ++ '\x7b' :: r.text) =
      .quoted '\x7b' :: ((letters lead).map Token.piece ++
        .quoted '\x7b' :: ((letters r.text).map Token.piece ++ [.quoted '\x7d'])) := by
  have hb : Bounds.ofText? ((letters lead).text ++ '\x7b' :: r.text) = none := by
    rw [Option.eq_none_iff_forall_not_mem]
    intro b hb
    have hm : '\x7b' ∈ (letters lead).text ++ '\x7b' :: r.text := by simp
    exact absurd (Bounds.mem_of_ofText? hb hm) (by decide)
  have hr : literalBraces r.text = (letters r.text).map Token.piece := by
    have hl := @literalBraces_letters r.text [] nofun
    rwa [List.append_nil, text_letters_written, literalBraces, List.append_nil] at hl
  rw [braced, hb, literalBraces_letters lead (by simp), literalBraces]
  simp only [piecesAt, hr, List.append_assoc, List.cons_append, List.nil_append]

theorem cut?_unfolded (lead : Text) (r : WrittenRange) (rest : Text) :
    cut? '\x7d' ',' false ((letters lead).text ++ '\x7b' :: (r.text ++ '\x7d' :: rest)) =
      some ((letters lead).text ++ '\x7b' :: r.text, rest) := by
  rw [cut?_append (by simp) (by simp) (by simp) (clear_letters lead)]
  simp [cut?, cut?_written r rest]

section
variable (start lead : Text) (r : WrittenRange) (tail : Spelling) (others : List Spelling)
  (behind : Text)

def unfoldedPieces : List Piece :=
  (letters start).map Token.piece ++
    (.quoted '\x7b' :: ((letters lead).map Token.piece ++
      .quoted '\x7b' :: ((letters r.text).map Token.piece ++ [.quoted '\x7d'])) ++
        (tail.map Token.piece ++ (others.flatMap (fun s => .bare ',' :: s.map Token.piece) ++
          .bare '\x7d' :: (letters behind).map Token.piece)))

theorem pieces_unfolded (directory : Text) :
    pieces (anchor (choice start ((letters lead ++ .range r :: tail) :: others) behind) directory) =
      (withSlash directory).map literalPiece ++ unfoldedPieces start lead r tail others behind := by
  have hf : text (letters lead ++ .range r :: tail) =
      (letters lead).text ++ '\x7b' :: (r.text ++ '\x7d' :: tail.text) := by
    rw [text, List.flatMap_append, List.flatMap_cons]
    simp [text, Token.text]
  have hc := cut?_unfolded lead r (tail.text ++ (others.flatMap (fun s => ',' :: s.text) ++
    '\x7d' :: (letters behind).text))
  rw [choice, pieces_relative directory (text_ne_cons _ (.inl rfl) (by simp)),
    text_alternatives, hf]
  simp only [List.append_assoc, List.cons_append]
  rw [piecesFrom_text _ _ _ (by simp), piecesFrom_braced _ _ hc, braced_unfolded,
    piecesFrom_text _ _ tail (others_ne_cons others (.inl rfl) _), piecesFrom_others_literal,
    piecesFrom_all]
  rfl

theorem isPart_unfolded : ∀ p ∈ unfoldedPieces start lead r tail others behind, p.IsPart := by
  have ho : ∀ p ∈ others.flatMap (fun s => .bare ',' :: s.map Token.piece), p.IsPart := by
    intro p h
    obtain ⟨s, -, hs⟩ := List.mem_flatMap.1 h
    exact List.forall_mem_cons.2 ⟨trivial, s.isPart_pieces⟩ p hs
  simp only [unfoldedPieces, List.cons_append, List.append_assoc, List.nil_append,
    List.forall_mem_append, List.forall_mem_cons]
  exact ⟨isPart_pieces _, trivial, isPart_pieces _, trivial, isPart_pieces _, trivial,
    isPart_pieces _, ho, trivial, isPart_pieces _⟩

theorem items_unfolded :
    (unfoldedPieces start lead r tail others behind).flatMap Piece.items =
      (unfolded start lead r tail others behind).flatMap Token.items := by
  have hl : ∀ c : Char, (Token.letter c).items = [.one (.exactly c)] := fun _ => rfl
  have hq : ∀ c : Char, (Piece.quoted c).items = [.one (.exactly c)] := fun _ => rfl
  have hb : ∀ c : Char, (Piece.bare c).items = [.one (.exactly c)] := fun _ => rfl
  simp only [unfolded, unfoldedPieces, List.flatMap_append, List.flatMap_cons, items_pieces,
    items_letters, List.flatMap_assoc, hl, hq, hb, List.map_append, List.map_cons,
    List.append_assoc, List.cons_append, List.nil_append, List.map_nil]

theorem bounds_unfolded :
    (unfoldedPieces start lead r tail others behind).filterMap Piece.bounds? =
      (unfolded start lead r tail others behind).bounds := by
  have hq : ∀ c : Char, (Piece.quoted c).bounds? = none := fun _ => rfl
  have hb : ∀ c : Char, (Piece.bare c).bounds? = none := fun _ => rfl
  have ho : bounds (others.flatMap fun s => .letter ',' :: s) = others.flatMap bounds :=
    List.filterMap_flatMap
  simp only [unfolded, unfoldedPieces, bounds_append, ho, List.filterMap_append,
    List.filterMap_cons, bounds_pieces, bounds_letters, List.filterMap_flatMap, hq, hb,
    List.cons_append, List.append_assoc, List.nil_append, List.append_nil]

theorem headerMatches_unfolded (hl : 3 ≤ limit) (directory path : Text) :
    headerMatches limit directory
        (choice start ((letters lead ++ .range r :: tail) :: others) behind) path =
      headerMatches limit directory ('/' :: (unfolded start lead r tail others behind).text)
        path := by
  rw [headerMatches_text _ _ fun _ => hl]
  exact headerMatches_of_pieces (pieces_unfolded start lead r tail others behind directory)
    (isPart_unfolded start lead r tail others behind)
    (items_unfolded start lead r tail others behind)
    (bounds_unfolded start lead r tail others behind) (fun _ => hl) path

end

/-- A choice whose first alternative holds no range accepts what one alternative accepts alone,
if that alternative decides. Otherwise it says what it is unfolded to. -/
theorem headerMatches_choice (hl : 5 ≤ limit) (directory start behind : Text)
    (first : Spelling) {others : List Spelling} (ho : others ≠ [])
    (hs : ∀ s ∈ first :: others, s.Short) :
    (first.bounds = [] → ∀ path : Text, path.ShortRuns → ∃ accepted,
      headerMatches limit directory (choice start (first :: others) behind) path = .ok accepted ∧
        (accepted = true ↔ ∃ before s after, first :: others = before ++ s :: after ∧
          Decides (fun t =>
            headerMatches limit directory ('/' :: (between start t behind).text) path = .ok true)
            before s after)) ∧
    ∀ lead r tail, first = letters lead ++ .range r :: tail → ∀ path,
      headerMatches limit directory (choice start (first :: others) behind) path =
        headerMatches limit directory ('/' :: (unfolded start lead r tail others behind).text)
          path := by
  constructor
  · intro hf path hp
    simp only [headerMatches_between hl, headerMatches_choice_eq hl directory start behind hf ho]
    exact outcomeOfChoice_iff hs behind _ hp
  · intro lead r tail he path
    rw [he]
    exact headerMatches_unfolded start lead r tail others behind (by omega) directory path

def oneToThree : WrittenRange := ⟨"1..3".toList, ⟨⟨false, ['1']⟩, ⟨false, ['3']⟩⟩, by decide⟩

theorem headerMatches_choice_digit :
    headerMatches 100 "/p".toList "/\x7bb,a\x7b1..3\x7d\x7d".toList "/p/a2".toList = .ok true ∧
      ∀ path, headerMatches 100 "/p".toList "/\x7ba\x7b1..3\x7d,b\x7d".toList path =
        headerMatches 100 "/p".toList "/\\\x7ba\\\x7b1..3\\\x7d\\,b\\\x7d".toList path := by
  let b : Spelling := letters ['b']
  let a : Spelling := [.letter 'a', .range oneToThree]
  have hs : ∀ s ∈ [b, a], s.Short := by decide
  have hs' : ∀ s ∈ [a, b], s.Short := by decide
  constructor
  · obtain ⟨accepted, hm, hi⟩ := (@headerMatches_choice 100 (by decide) "/p".toList [] [] b _
      (List.cons_ne_nil a []) hs).1 rfl "/p/a2".toList fun run hr _ =>
        hr.length_le.trans (by decide)
    have hd : accepted = true :=
      hi.2 ⟨[b], a, [], rfl, by decide +kernel, by decide, by decide +kernel⟩
    have ht : choice [] [b, a] [] = "/\x7bb,a\x7b1..3\x7d\x7d".toList := by decide
    rw [← ht, hm, hd]
  · intro path
    have hu := (@headerMatches_choice 100 (by decide) "/p".toList [] [] a _
      (List.cons_ne_nil b []) hs').2 ['a'] oneToThree [] rfl path
    have ht : choice [] [a, b] [] = "/\x7ba\x7b1..3\x7d,b\x7d".toList := by decide
    have ht' : '/' :: (unfolded [] ['a'] oneToThree [] [b] []).text =
        "/\\\x7ba\\\x7b1..3\\\x7d\\,b\\\x7d".toList := by decide
    rwa [ht, ht'] at hu

/-- The range of an alternative that is not taken has no digits. -/
theorem not_every_choice_union :
    ¬ ∀ (limit : Nat) (directory start behind path : Text) (alternatives : List Spelling),
      5 ≤ limit → 2 ≤ alternatives.length → (∀ s ∈ alternatives, s.Short) → path.ShortRuns →
        (headerMatches limit directory (choice start alternatives behind) path = .ok true ↔
          ∃ s ∈ alternatives,
            headerMatches limit directory ('/' :: (between start s behind).text) path =
              .ok true) := by
  intro h
  have hi := h 100 "/p".toList [] [] "/p/b".toList
    [letters ['b'], [.letter 'a', .range oneToThree]] (by decide) (by decide) (by decide)
    fun run hr _ => hr.length_le.trans (by decide)
  have hm := hi.2 ⟨letters ['b'], by simp, by decide +kernel⟩
  exact absurd hm (by decide +kernel)

end Glob.Spelling
end EditorConfig
