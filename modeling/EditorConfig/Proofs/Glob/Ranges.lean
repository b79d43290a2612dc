import EditorConfig.Proofs.Glob.Numbered
import EditorConfig.Proofs.Glob.Overrun

/-! What headers of numeric ranges match. Main statement: exactly the paths that have a number of
each range in its place, written without leading zeros. -/
namespace EditorConfig
open Text (IsDigits StartsApart ShortRuns)
variable {limit : Nat}

namespace Glob.Field

/-- No digit follows a range, and only behind the last one there may be nothing. -/
def Separated : List Field → Prop
  | [] => True
  | f :: fields => StartsApart f.behind ∧ (f.behind = [] → fields = []) ∧ Separated fields

def filled (fields : List Field) (numbers : List Text) : Text :=
  (List.zipWith (fun f digits => digits ++ f.behind) fields numbers).flatten

def captured? : List Field → Text → Option (List Text)
  | [], text => if text.isEmpty then some [] else none
  | f :: fields, text =>
    if text.takeWhile Char.isDigit = [] then none
    else ((text.dropWhile Char.isDigit).dropPrefix? f.behind).bind fun rest =>
      (captured? fields rest).map (text.takeWhile Char.isDigit :: ·)

theorem filled_cons (f : Field) (fields : List Field) (digits : Text) (numbers : List Text) :
    filled (f :: fields) (digits :: numbers) = digits ++ (f.behind ++ filled fields numbers) := by
  rw [filled, List.zipWith_cons_cons, List.flatten_cons, List.append_assoc]
  rfl

/-- Behind a number of a separated header there is no digit. -/
theorem startsApart_filled {f : Field} {fields : List Field} (hs : Separated (f :: fields))
    (numbers : List Text) : StartsApart (f.behind ++ filled fields numbers) := by
  obtain ⟨ha, hn, -⟩ := hs
  cases hb : f.behind with
  | nil =>
    rw [hn hb]
    rfl
  | cons c behind =>
    rw [hb] at ha
    exact ha

/-- Digits are captured where they stand. -/
theorem captured?_eq_some_iff {fields : List Field} (hs : Separated fields) {text : Text}
    {numbers : List Text} :
    captured? fields text = some numbers ↔
      List.Forall₂ (fun _ digits => IsDigits digits) fields numbers ∧
        text = filled fields numbers := by
  induction fields generalizing text numbers with
  | nil =>
    rw [captured?, List.forall₂_nil_left_iff]
    cases text with
    | nil => simp [filled, eq_comm]
    | cons c text => simp [filled]
  | cons f fields ih =>
    have hr := hs.2.2
    constructor
    · intro h
      rw [captured?] at h
      split at h
      · cases h
      · next hn =>
        obtain ⟨rest, hd, h⟩ := Option.bind_eq_some_iff.1 h
        obtain ⟨numbers, hc, rfl⟩ := Option.map_eq_some_iff.1 h
        obtain ⟨hf, rfl⟩ := (ih hr).1 hc
        have hw : IsDigits (text.takeWhile Char.isDigit) :=
          ⟨hn, List.all_eq_true.1 List.all_takeWhile⟩
        refine ⟨.cons hw hf, ?_⟩
        rw [filled_cons, ← Text.dropPrefix?_iff.1 hd, List.takeWhile_append_dropWhile]
    · intro ⟨hf, ht⟩
      obtain ⟨digits, numbers, hd, hf', rfl⟩ := List.forall₂_cons_left_iff.1 hf
      have ha := startsApart_filled hs numbers
      have hk : captured? fields (filled fields numbers) = some numbers := (ih hr).2 ⟨hf', rfl⟩
      have hb := Text.dropPrefix?_iff.2 (Eq.refl (f.behind ++ filled fields numbers))
      rw [filled_cons] at ht
      rw [captured?, ht, Text.takeWhile_digits hd ha, Text.dropWhile_digits hd ha,
        if_neg hd.ne_nil, hb, Option.bind_some, hk]
      rfl

def fill (caps : Captures) : Nat → List Text → Captures
  | _, [] => caps
  | index, digits :: numbers => fill (caps.set index (some digits)) (index + 1) numbers

theorem fill_between (caps more : Captures) (numbers : List Text) :
    fill (caps ++ (List.replicate numbers.length none ++ more)) caps.length numbers =
      caps ++ (numbers.map some ++ more) := by
  induction numbers generalizing caps with
  | nil => rfl
  | cons digits numbers ih =>
    have hi := ih (caps ++ [some digits])
    rw [List.length_append, List.length_singleton] at hi
    have hc : (caps ++ (List.replicate (digits :: numbers).length none ++ more)).set caps.length
        (some digits) =
      (caps ++ [some digits]) ++ (List.replicate numbers.length none ++ more) := by
      rw [List.length_cons, List.replicate_succ, List.set_append_right _ _ (Nat.le_refl _),
        Nat.sub_self, List.cons_append, List.set_cons_zero, List.append_assoc]
      rfl
    rw [fill, hc, hi, List.append_assoc]
    rfl

theorem fill_append (caps : Captures) (numbers : List Text) :
    fill (caps ++ List.replicate numbers.length none) caps.length numbers =
      caps ++ numbers.map some := by
  have hf := fill_between caps [] numbers
  rwa [List.append_nil, List.append_nil] at hf

theorem groups_regex (r : Regex) (next : Nat) (fields : List Field) :
    (regex r next fields).groups = r.groups + fields.length := by
  induction fields generalizing r next with
  | nil => rfl
  | cons f fields ih =>
    have hd : (Regex.group next Regex.digits).groups = 1 := rfl
    rw [regex, ih, Regex.groups_foldl_exactly, Regex.groups, hd, List.length_cons]
    omega

/-- The search goes through the fields in one way only. -/
theorem search_regex {fields : List Field} (hs : Separated fields) (r : Regex) (next : Nat)
    (text : Text) (caps : Captures) :
    (regex r next fields).search text caps
        (fun rest caps => if rest.isEmpty then some caps else none) =
      r.search text caps fun rest caps => (captured? fields rest).map (fill caps next) := by
  induction fields generalizing r next with
  | nil =>
    rw [regex]
    congr
    funext rest caps
    cases rest <;> rfl
  | cons f fields ih =>
    -- a group that ends before a digit leaves a rest that the fields do not take
    have hd : ∀ c rest caps, c.isDigit = true →
        ((c :: rest).dropPrefix? f.behind).bind (fun rest =>
          (captured? fields rest).map (fill caps (next + 1))) = none := by
      intro c rest caps hc
      by_contra hn
      obtain ⟨caps', h⟩ := Option.ne_none_iff_exists'.1 hn
      obtain ⟨rest', hp, h⟩ := Option.bind_eq_some_iff.1 h
      obtain ⟨numbers, hk, -⟩ := Option.map_eq_some_iff.1 h
      obtain ⟨-, rfl⟩ := (captured?_eq_some_iff hs.2.2).1 hk
      have ha := startsApart_filled hs numbers
      rw [← Text.dropPrefix?_iff.1 hp] at ha
      simp [StartsApart, hc] at ha
    rw [regex, ih hs.2.2, Regex.search_foldl_exactly, Regex.search]
    congr
    funext rest caps
    rw [Regex.search_group_digits hd, captured?]
    split
    · rfl
    · rw [Option.map_bind]
      simp only [Function.comp_def, Option.map_map, fill]

theorem fullMatch?_regex {fields : List Field} (hs : Separated fields) (head path : Text) :
    (regex (.literal head) 0 fields).fullMatch? path =
      (path.dropPrefix? head).bind fun rest =>
        (captured? fields rest).map fun numbers => numbers.map some := by
  rw [Regex.fullMatch?, search_regex hs, Regex.search_literal, groups_regex, Regex.groups_literal,
    Nat.zero_add]
  congr
  funext rest
  cases hc : captured? fields rest with
  | none => rfl
  | some numbers =>
    have hl := ((captured?_eq_some_iff hs).1 hc).1.length_eq
    rw [Option.map_some, Option.map_some, hl]
    exact congrArg some (fill_append [] numbers)

theorem fullMatch?_eq_some_iff {fields : List Field} (hs : Separated fields) {head path : Text}
    {captures : Captures} :
    (regex (.literal head) 0 fields).fullMatch? path = some captures ↔
      ∃ numbers, List.Forall₂ (fun _ digits => IsDigits digits) fields numbers ∧
        path = head ++ filled fields numbers ∧ captures = numbers.map some := by
  rw [fullMatch?_regex hs]
  constructor
  · intro h
    obtain ⟨rest, hp, h⟩ := Option.bind_eq_some_iff.1 h
    obtain ⟨numbers, hc, rfl⟩ := Option.map_eq_some_iff.1 h
    obtain ⟨hd, rfl⟩ := (captured?_eq_some_iff hs).1 hc
    exact ⟨numbers, hd, Text.dropPrefix?_iff.1 hp, rfl⟩
  · intro ⟨numbers, hd, hp, hc⟩
    rw [Text.dropPrefix?_iff.2 hp, Option.bind_some, (captured?_eq_some_iff hs).2 ⟨hd, rfl⟩, hc]
    rfl

structure Takes (f : Field) (digits : Text) : Prop where
  isDigits : IsDigits digits
  noZero : digits.head? ≠ some '0'
  min_le : f.range.min ≤ Numeral.natValue digits
  le_max : Numeral.natValue digits ≤ f.range.max

theorem range_of_takes {fields : List Field} {numbers : List Text}
    (ht : List.Forall₂ Takes fields numbers) :
    ∀ f ∈ fields, f.range.min ≤ f.range.max ∧ 0 < f.range.max := by
  induction ht with
  | nil => exact nofun
  | cons h _ ih =>
    have hp := Numeral.natValue_pos h.isDigits h.noZero
    have hm := h.min_le
    have hx := h.le_max
    exact List.forall_mem_cons.2 ⟨by omega, ih⟩

theorem accepts_iff (f : Field) {digits : Text} (hd : IsDigits digits) :
    f.range.accepts (some digits) = .ok true ↔
      f.Takes digits ∧ digits.length ≤ Numeral.maxDigits := by
  rw [NumericRange.accepts]
  by_cases hz : digits.head? = some '0'
  · simp only [hz, if_true, Except.ok.injEq, Bool.false_eq_true, false_iff, not_and]
    exact fun h => absurd hz h.noZero
  · rw [if_neg hz]
    by_cases hl : Numeral.maxDigits < digits.length
    · simp [hl]
    · rw [if_neg hl, Except.ok.injEq, NumericRange.has, Bool.and_eq_true, decide_eq_true_eq,
        decide_eq_true_eq]
      constructor
      · intro h
        obtain ⟨hm, hx⟩ := h
        exact ⟨⟨hd, hz, hm, hx⟩, by omega⟩
      · intro h
        exact ⟨h.1.min_le, h.1.le_max⟩

theorem acceptAll_iff {fields : List Field} {numbers : List Text}
    (hd : List.Forall₂ (fun _ digits => IsDigits digits) fields numbers) :
    NumericRange.acceptAll (fields.map Field.range) (numbers.map some) = .ok true ↔
      List.Forall₂ Takes fields numbers ∧
        ∀ digits ∈ numbers, digits.length ≤ Numeral.maxDigits := by
  induction hd with
  | nil => simp [NumericRange.acceptAll]
  | @cons f digits fields numbers hd hds ih =>
    rw [List.forall₂_cons, List.forall_mem_cons, and_and_and_comm, ← ih, ← f.accepts_iff hd,
      List.map_cons, List.map_cons, NumericRange.acceptAll]
    cases f.range.accepts (some digits) with
    | error e => simp [bind, Except.bind]
    | ok accepted => cases accepted <;> simp [bind, Except.bind, pure, Except.pure]

theorem length_le_of_shortRuns {fields : List Field} {numbers : List Text} {text : Text}
    (hd : List.Forall₂ (fun _ digits => IsDigits digits) fields numbers)
    (hp : ShortRuns (text ++ filled fields numbers)) :
    ∀ digits ∈ numbers, digits.length ≤ Numeral.maxDigits := by
  induction hd generalizing text with
  | nil => exact nofun
  | @cons f digits fields numbers hd _ ih =>
    rw [filled_cons] at hp
    rw [List.forall_mem_cons]
    constructor
    · exact hp digits ⟨text, f.behind ++ filled fields numbers, List.append_assoc ..⟩ hd.digit
    · rw [← List.append_assoc, ← List.append_assoc] at hp
      exact ih hp

end Glob.Field

namespace Matcher
open Glob (Field anchor)
open Glob.Field (Separated filled Takes)

def numbered (directory start : Text) (fields : List Field) : Matcher :=
  ⟨anchor (Glob.numbered start fields) directory,
    Field.regex (.literal (withSlash directory ++ start)) 0 fields, fields.map Field.range⟩

theorem ofHeader_eq_numbered (hl : 3 ≤ limit) (directory start : Text) {fields : List Field}
    (hb : ∀ f ∈ fields, f.bounds.isTooLong = false) :
    ofHeader limit (Glob.numbered start fields) directory =
      .ok (numbered directory start fields) := by
  have ha : ((fields.map Field.bounds).any Bounds.isTooLong) = false := by
    simpa [List.any_eq_false] using hb
  have hr : (fields.map Field.bounds).map Bounds.range = fields.map Field.range := by
    rw [List.map_map]
    exact List.map_congr_left fun f _ => f.range_bounds
  have hp : (Glob.pieces (anchor (Glob.numbered start fields) directory)).filterMap
      Glob.Piece.bounds? = fields.map Field.bounds := by
    rw [Glob.pieces_numbered, List.filterMap_append, Glob.bounds?_literalPieces, List.nil_append,
      Glob.bounds_fields]
  rw [ofHeader_eq_ite, hp, ha, Glob.ofText_numbered hl, hr]
  rfl

variable {directory start path : Text} {fields : List Field}

theorem numbered_matches_iff (hs : Separated fields) :
    (numbered directory start fields).matches? path = .ok true ↔
      ∃ numbers, (List.Forall₂ Takes fields numbers ∧
          ∀ digits ∈ numbers, digits.length ≤ Numeral.maxDigits) ∧
        path = withSlash directory ++ start ++ filled fields numbers := by
  rw [matches?]
  constructor
  · intro h
    split at h
    · cases h
    · next captures hm =>
      obtain ⟨numbers, hd, hp, rfl⟩ := (Field.fullMatch?_eq_some_iff hs).1 hm
      exact ⟨numbers, (Field.acceptAll_iff hd).1 h, hp⟩
  · intro h
    obtain ⟨numbers, ht, hp⟩ := h
    have hd := ht.1.imp fun _ _ h => h.isDigits
    have hm := (Field.fullMatch?_eq_some_iff hs).2 ⟨numbers, hd, hp, rfl⟩
    rw [numbered, hm]
    exact (Field.acceptAll_iff hd).2 ht

theorem numbered_matches_isOk (hs : Separated fields) (hp : path.ShortRuns) :
    ∃ accepted, (numbered directory start fields).matches? path = .ok accepted := by
  rw [matches?]
  split
  · exact ⟨false, rfl⟩
  · next captures hm =>
    obtain ⟨numbers, hd, rfl, rfl⟩ := (Field.fullMatch?_eq_some_iff hs).1 hm
    have hn : (fields.map Field.range).length = numbers.length := by
      rw [List.length_map, hd.length_eq]
    exact NumericRange.acceptAll_isOk hn (Field.length_le_of_shortRuns hd hp)

theorem numbered_not_matches (hs : Separated fields)
    (h : ∃ f ∈ fields, f.range.max < f.range.min ∨ f.range.max ≤ 0) :
    (numbered directory start fields).matches? path ≠ .ok true := by
  intro hm
  obtain ⟨numbers, ⟨ht, -⟩, -⟩ := (numbered_matches_iff hs).1 hm
  obtain ⟨f, hf, hr⟩ := h
  have hp := Field.range_of_takes ht f hf
  omega

/-- A header of numeric ranges is made out below every directory, and matches the paths with a
number of each range in its place; with a range that has no positive number it matches none. -/
theorem ofHeader_numbered (hl : 3 ≤ limit) (directory start : Text) {fields : List Field}
    (hs : Separated fields) (hb : ∀ f ∈ fields, f.bounds.isTooLong = false) :
    ∃ m, ofHeader limit (Glob.numbered start fields) directory = .ok m ∧
      m.ranges = fields.map Field.range ∧
      (∀ path : Text, path.ShortRuns → ∃ accepted, m.matches? path = .ok accepted ∧
        (accepted = true ↔ ∃ numbers, List.Forall₂ Takes fields numbers ∧
          path = withSlash directory ++ start ++ filled fields numbers)) ∧
      ((∃ f ∈ fields, f.range.max < f.range.min ∨ f.range.max ≤ 0) →
        ∀ path, m.matches? path ≠ .ok true) := by
  refine ⟨_, ofHeader_eq_numbered hl directory start hb, rfl, fun path hp => ?_,
    fun h path => numbered_not_matches hs h⟩
  obtain ⟨accepted, ha⟩ := @numbered_matches_isOk directory start path fields hs hp
  have hi := @numbered_matches_iff directory start path fields hs
  rw [ha, Except.ok.injEq] at hi
  refine ⟨accepted, ha, hi.trans ⟨?_, ?_⟩⟩
  · intro ⟨numbers, ht, he⟩
    exact ⟨numbers, ht.1, he⟩
  · intro ⟨numbers, ht, he⟩
    rw [he] at hp
    have hl := Field.length_le_of_shortRuns (ht.imp fun _ _ h => h.isDigits) hp
    exact ⟨numbers, ⟨ht, hl⟩, he⟩

/-- Two ranges between texts that look like globs, and one with its bounds in the wrong order. -/
theorem ofHeader_numbered_between :
    headerMatches 100 "/p\x7b".toList
        "/v\\*1\\\x7b\x7b-3..12\x7d\\?/x\\,\x7b5..99999999999999999999\x7d\\[2\\]".toList
        "/p\x7b/v*1\x7b7?/x,123456789012[2]".toList = .ok true ∧
      ∀ path, headerMatches 100 "/p\x7b".toList "/\x7b3..1\x7d".toList path ≠ .ok true := by
  let between : List Field :=
    [⟨⟨-3, 12⟩, "?/x,".toList⟩, ⟨⟨5, 99999999999999999999⟩, "[2]".toList⟩]
  constructor
  · have hs : Separated between := ⟨by decide, by decide, by decide, by decide, trivial⟩
    obtain ⟨m, hm, -, hp, -⟩ := @ofHeader_numbered 100 (by decide) "/p\x7b".toList
      "v*1\x7b".toList _ hs (by decide +kernel)
    obtain ⟨accepted, ha, hi⟩ := hp "/p\x7b/v*1\x7b7?/x,123456789012[2]".toList
      fun run hr _ => hr.length_le.trans (by decide)
    have ht : Field.Takes ⟨⟨-3, 12⟩, "?/x,".toList⟩ "7".toList :=
      ⟨⟨by decide, List.all_eq_true.1 (by decide)⟩, by decide, by decide, by decide⟩
    have ht' : Field.Takes ⟨⟨5, 99999999999999999999⟩, "[2]".toList⟩ "123456789012".toList :=
      ⟨⟨by decide, List.all_eq_true.1 (by decide)⟩, by decide, by decide, by decide⟩
    have hh : Glob.numbered "v*1\x7b".toList between =
        "/v\\*1\\\x7b\x7b-3..12\x7d\\?/x\\,\x7b5..99999999999999999999\x7d\\[2\\]".toList := by
      decide +kernel
    have hx : accepted = true := hi.2 ⟨_, .cons ht (.cons ht' .nil), by decide⟩
    rw [hh] at hm
    rw [headerMatches, hm, ← hx]
    exact ha
  · intro path
    have hs : Separated [⟨⟨3, 1⟩, []⟩] := ⟨by decide, by decide, trivial⟩
    obtain ⟨m, hm, -, -, hn⟩ :=
      @ofHeader_numbered 100 (by decide) "/p\x7b".toList [] _ hs (by decide)
    have hh : Glob.numbered [] [⟨⟨3, 1⟩, []⟩] = "/\x7b3..1\x7d".toList := by decide
    rw [hh] at hm
    rw [headerMatches, hm]
    exact hn ⟨_, List.mem_cons_self, .inl (by decide)⟩ path

example :
    headerMatches 100 "/p".toList "/\x7b1..9\x7d".toList "/p/07".toList = .ok false := by
  decide +kernel

end Matcher
end EditorConfig
