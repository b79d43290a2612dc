import EditorConfig.Proofs.Glob.Inside

/-! Headers that fail otherwise than by a bad pattern. Main statement: a header cannot be made
out at all if it is excessive, and cannot be matched where the first match overruns its ranges. -/
namespace EditorConfig
variable {limit : Nat}

namespace NumericRange
variable {r : NumericRange} {ranges : List NumericRange} {c : Option Text} {captures : Captures}

def Overlong (c : Option Text) : Prop :=
  ∃ digits, c = some digits ∧ digits.head? ≠ some '0' ∧ Numeral.maxDigits < digits.length

theorem accepts_eq_error_iff {e : Error} :
    r.accepts c = .error e ↔ e = .numeralTooLong ∧ Overlong c := by
  cases c with
  | none => simp [accepts, Overlong]
  | some digits =>
    rw [accepts]
    by_cases hz : digits.head? = some '0'
    · simp [hz, Overlong]
    · by_cases hl : Numeral.maxDigits < digits.length
      · simp [hz, hl, Overlong, eq_comm]
      · simp [hz, hl, Overlong]

/-- The ranges before some place are met, and at that place there is no group, or an overlong
one. -/
def Overrun (ranges : List NumericRange) (captures : Captures) : Prop :=
  ∃ i, i < ranges.length ∧
    (∀ j r, j < i → ranges[j]? = some r → ∃ c, captures[j]? = some c ∧ r.accepts c = .ok true) ∧
    ∀ c, captures[i]? = some c → Overlong c

theorem overrun_cons :
    Overrun (r :: ranges) (c :: captures) ↔
      Overlong c ∨ r.accepts c = .ok true ∧ Overrun ranges captures := by
  constructor
  · intro h
    obtain ⟨i, hi, hj, hc⟩ := h
    cases i with
    | zero => exact .inl (hc c rfl)
    | succ i =>
      obtain ⟨c', he, ha⟩ := hj 0 r (by omega) rfl
      cases he
      exact .inr ⟨ha, i, by simpa using hi,
        fun j r' hlt hr => hj (j + 1) r' (by omega) hr, hc⟩
  · intro h
    cases h with
    | inl h =>
      refine ⟨0, by simp, fun j r' hlt => absurd hlt (by omega), fun c' he => ?_⟩
      cases he
      exact h
    | inr h =>
      obtain ⟨ha, i, hi, hj, hc⟩ := h
      refine ⟨i + 1, by simpa using hi, fun j r' hlt hr => ?_, hc⟩
      cases j with
      | zero =>
        cases hr
        exact ⟨c, rfl, ha⟩
      | succ j => exact hj j r' (by omega) hr

/-- A check of ranges fails exactly where they overrun. -/
theorem acceptAll_error_iff :
    (∃ e, acceptAll ranges captures = .error e) ↔ Overrun ranges captures := by
  induction ranges generalizing captures with
  | nil =>
    constructor
    · intro h
      obtain ⟨e, h⟩ := h
      cases h
    · intro h
      obtain ⟨i, hi, -⟩ := h
      simp at hi
  | cons r ranges ih =>
    cases captures with
    | nil =>
      refine iff_of_true ⟨_, rfl⟩ ⟨0, by simp, fun j r' hlt => absurd hlt (by omega), ?_⟩
      simp
    | cons c captures =>
      rw [acceptAll, overrun_cons]
      cases ha : r.accepts c with
      | error e => exact iff_of_true ⟨e, rfl⟩ (.inl (accepts_eq_error_iff.1 ha).2)
      | ok accepted =>
        have hn : ¬ Overlong c := by
          intro ho
          rw [accepts_eq_error_iff.2 ⟨rfl, ho⟩] at ha
          cases ha
        cases accepted with
        | true => simpa [hn, bind, Except.bind] using ih
        | false => simp [hn, bind, Except.bind, pure, Except.pure]

theorem error_of_acceptAll {e : Error} (h : acceptAll ranges captures = .error e) :
    e = .numeralTooLong ∨ e = .missingGroup := by
  induction ranges generalizing captures with
  | nil => cases h
  | cons r ranges ih =>
    cases captures with
    | nil =>
      cases h
      exact .inr rfl
    | cons c captures =>
      rw [acceptAll] at h
      cases ha : r.accepts c with
      | error e' =>
        rw [ha] at h
        cases h
        exact .inl (accepts_eq_error_iff.1 ha).1
      | ok accepted =>
        rw [ha] at h
        cases accepted with
        | true => exact ih h
        | false => cases h

/-- Numbers that are not too long are checked without failure. -/
theorem acceptAll_isOk {numbers : List Text} (h : ranges.length = numbers.length)
    (hs : ∀ digits ∈ numbers, digits.length ≤ Numeral.maxDigits) :
    ∃ accepted, acceptAll ranges (numbers.map some) = .ok accepted := by
  cases ha : acceptAll ranges (numbers.map some) with
  | ok accepted => exact ⟨accepted, rfl⟩
  | error e =>
    obtain ⟨i, hi, -, ho⟩ := acceptAll_error_iff.1 ⟨e, ha⟩
    have hi' : i < numbers.length := h ▸ hi
    obtain ⟨digits, hc, -, ht⟩ := ho (some numbers[i]) (by simp [hi'])
    cases hc
    exact absurd (hs _ (List.getElem_mem hi')) (by omega)

end NumericRange

namespace Glob
variable (limit : Nat) (pattern : Text)

def TooDeep : Prop :=
  Regex.ofText limit ((pieces (anchor pattern ['/'])).flatMap Piece.text) = .error .tooDeep

/-- A header with a bound of too many digits, or with groups nested too deep. -/
def Excessive : Prop :=
  (∃ bounds ∈ (pieces (anchor pattern ['/'])).filterMap Piece.bounds?, bounds.isTooLong = true) ∨
    TooDeep limit pattern

end Glob

namespace Matcher

def Overruns (m : Matcher) (path : Text) : Prop :=
  ∃ captures, m.regex.fullMatch? path = some captures ∧ NumericRange.Overrun m.ranges captures

theorem matches?_error_iff {m : Matcher} {path : Text} :
    (∃ e, m.matches? path = .error e) ↔ m.Overruns path := by
  rw [matches?, Overruns]
  cases m.regex.fullMatch? path with
  | none => simp
  | some captures => simpa using NumericRange.acceptAll_error_iff

theorem error_of_matches? {m : Matcher} {path : Text} {e : Error}
    (h : m.matches? path = .error e) : e = .numeralTooLong ∨ e = .missingGroup := by
  rw [matches?] at h
  split at h
  · cases h
  · exact NumericRange.error_of_acceptAll h

/-- Bounds are looked at before the expression is. -/
theorem ofHeader_eq_ite (pattern directory : Text) :
    ofHeader limit pattern directory =
      if ((Glob.pieces (Glob.anchor pattern directory)).filterMap Glob.Piece.bounds?).any
          Bounds.isTooLong then .error .numeralTooLong
      else match Regex.ofText limit
          ((Glob.pieces (Glob.anchor pattern directory)).flatMap Glob.Piece.text) with
        | .ok regex => .ok ⟨Glob.anchor pattern directory, regex,
            ((Glob.pieces (Glob.anchor pattern directory)).filterMap
              Glob.Piece.bounds?).map Bounds.range⟩
        | .error .invalid => .error (.invalidPattern pattern)
        | .error .tooDeep => .error .tooDeep := by
  rw [ofHeader, Glob.expression]
  split <;> rfl

/-- A header that cannot be made out is excessive, or its pattern is bad. -/
theorem ofHeader_error {pattern : Text} {e : Error} (h : ofHeader limit pattern ['/'] = .error e) :
    e = .invalidPattern pattern ∨
      Glob.Excessive limit pattern ∧ (e = .numeralTooLong ∨ e = .tooDeep) := by
  rw [ofHeader_eq_ite] at h
  split at h
  next hb =>
    cases h
    exact .inr ⟨.inl (List.any_eq_true.1 hb), .inl rfl⟩
  next =>
    split at h
    · cases h
    · cases h
      exact .inl rfl
    next ht =>
      cases h
      exact .inr ⟨.inr ht, .inr rfl⟩

/-- With other room a header is made out as the same, or there is not enough of it. -/
theorem ofHeader_ok_or_tooDeep {pattern directory : Text} {m : Matcher}
    (h : ofHeader limit pattern directory = .ok m) (limit' : Nat) :
    ofHeader limit' pattern directory = .ok m ∨
      ofHeader limit' pattern directory = .error .tooDeep := by
  rw [ofHeader_eq_ite] at h ⊢
  split at h
  next => cases h
  next hb =>
    rw [if_neg hb]
    split at h
    next r hr =>
      cases Regex.ofText_ok_or_tooDeep hr limit' with
      | inl ht =>
        rw [ht]
        exact .inl h
      | inr ht =>
        rw [ht]
        exact .inr rfl
    next => cases h
    next => cases h

theorem tooDeep_iff {pattern : Text} {m : Matcher} (h : ofHeader limit pattern ['/'] = .ok m)
    (limit' : Nat) :
    Glob.TooDeep limit' pattern ↔ ofHeader limit' pattern ['/'] = .error .tooDeep := by
  rw [ofHeader_eq_ite] at h
  rw [ofHeader_eq_ite, Glob.TooDeep]
  split at h
  next => cases h
  next hb =>
    rw [if_neg hb]
    cases Regex.ofText limit' ((Glob.pieces (Glob.anchor pattern ['/'])).flatMap Glob.Piece.text)
      with
    | ok regex => exact iff_of_false nofun nofun
    | error flaw => cases flaw <;> simp

theorem ofHeader_of_excessive {pattern : Text} (h : Glob.Excessive limit pattern) :
    ∃ e, ofHeader limit pattern ['/'] = .error e ∧ (e = .numeralTooLong ∨ e = .tooDeep) := by
  rw [ofHeader_eq_ite]
  split
  next => exact ⟨_, rfl, .inl rfl⟩
  next hb =>
    cases h with
    | inl h => exact absurd (List.any_eq_true.2 h) hb
    | inr h =>
      rw [Glob.TooDeep] at h
      rw [h]
      exact ⟨_, rfl, .inr rfl⟩

end Matcher
end EditorConfig
