import EditorConfig.Proofs.Settings.Override
import EditorConfig.Proofs.Settings.Toml.Token
import EditorConfig.Settings.Toml.Number

/-! Numbers, dates and times of a TOML document. Main statement: what is left behind one of them is
an end of the text, and a number that is too long has its digits there. -/
namespace EditorConfig.Toml

section Digits
variable {isDigit : Char → Bool} {text : Text}

theorem digits_suffix (isDigit : Char → Bool) (text : Text) :
    (digits isDigit text).2 <:+ text := by
  fun_induction digits isDigit text with
  | case1 c rest _ u v hd ih =>
    rw [hd] at ih
    exact (ih.trans (List.suffix_cons _ _)).trans (List.suffix_cons _ _)
  | case2 => exact List.suffix_refl _
  | case3 c rest _ _ u v hd ih =>
    rw [hd] at ih
    exact ih.trans (List.suffix_cons _ _)
  | case4 => exact List.suffix_refl _
  | case5 => exact List.suffix_refl _

theorem digits_prefix (h : isDigit '_' = false) (text : Text) :
    (digits isDigit text).1 <+: unseparated text ∧
      ∀ c ∈ (digits isDigit text).1, isDigit c = true := by
  have hcons {c : Char} {u rest : Text} (hc : isDigit c = true) (hu : u <+: unseparated rest) :
      c :: u <+: unseparated (c :: rest) := by
    have hne : c ≠ '_' := by
      rintro rfl
      rw [h] at hc
      cases hc
    rw [unseparated, List.filter_cons_of_pos (by simpa using hne)]
    exact (List.prefix_cons_inj c).2 hu
  fun_induction digits isDigit text with
  | case1 c rest hc u v hd ih =>
    rw [hd] at ih
    have hs : unseparated ('_' :: c :: rest) = unseparated (c :: rest) :=
      List.filter_cons_of_neg (by simp)
    rw [hs]
    exact ⟨hcons hc ih.1, List.forall_mem_cons.2 ⟨hc, ih.2⟩⟩
  | case2 => exact ⟨List.nil_prefix, List.forall_mem_nil _⟩
  | case3 c rest _ hc u v hd ih =>
    rw [hd] at ih
    exact ⟨hcons hc ih.1, List.forall_mem_cons.2 ⟨hc, ih.2⟩⟩
  | case4 => exact ⟨List.nil_prefix, List.forall_mem_nil _⟩
  | case5 => exact ⟨List.nil_prefix, List.forall_mem_nil _⟩

end Digits

section Skipping
variable {text rest : Text}

theorem afterSign_suffix (text : Text) : afterSign text <:+ text := by
  unfold afterSign
  split
  next rest => exact List.suffix_cons '+' rest
  next rest => exact List.suffix_cons '-' rest
  next => exact List.suffix_refl _

theorem afterDigits?_suffix (h : afterDigits? text = some rest) : rest <:+ text := by
  unfold afterDigits? at h
  split at h
  next =>
    cases h
    exact digits_suffix Char.isDigit text
  next => cases h

/-- Either what a mark stands in front of is skipped with it, or the mark is left. -/
theorem getD_suffix {o : Option Text} {mark : Char} (h : ∀ last, o = some last → last <:+ rest) :
    o.getD (mark :: rest) <:+ mark :: rest := by
  cases o with
  | none => exact List.suffix_refl _
  | some last => exact (h last rfl).trans (List.suffix_cons mark rest)

theorem afterFraction_suffix (text : Text) : afterFraction text <:+ text := by
  unfold afterFraction
  split
  next => exact getD_suffix fun _ h => afterDigits?_suffix h
  next => exact List.suffix_refl _

theorem afterExponent_suffix (text : Text) : afterExponent text <:+ text := by
  have hs (rest last : Text) (h : afterDigits? (afterSign rest) = some last) : last <:+ rest :=
    (afterDigits?_suffix h).trans (afterSign_suffix rest)
  unfold afterExponent
  split
  next rest => exact getD_suffix (hs rest)
  next rest => exact getD_suffix (hs rest)
  next => exact List.suffix_refl _

theorem afterName?_suffix (h : afterName? text = some rest) : rest <:+ text := by
  unfold afterName? at h
  split at h
  next =>
    cases h
    exact List.drop_suffix 3 text
  next => cases h

theorem after?_suffix {mark : Char} (h : after? mark text = some rest) : rest <:+ text := by
  cases text with
  | nil => cases h
  | cons c body =>
    rw [after?] at h
    split at h
    next =>
      cases h
      exact List.suffix_cons c _
    next => cases h

theorem field?_suffix {count low high n : Nat} (h : field? count low high text = some (n, rest)) :
    rest <:+ text := by
  unfold field? at h
  simp only at h
  split at h
  next =>
    cases h
    exact List.drop_suffix count text
  next => cases h

theorem afterMinute?_suffix (h : afterMinute? text = some rest) : rest <:+ text := by
  obtain ⟨⟨hour, r₁⟩, h₁, h⟩ := Option.bind_eq_some_iff.1 h
  obtain ⟨r₂, h₂, h⟩ := Option.bind_eq_some_iff.1 h
  obtain ⟨⟨minute, r₃⟩, h₃, h⟩ := Option.bind_eq_some_iff.1 h
  cases h
  exact ((field?_suffix h₃).trans (after?_suffix h₂)).trans (field?_suffix h₁)

theorem afterTime?_suffix (h : afterTime? text = some rest) : rest <:+ text := by
  obtain ⟨r₁, h₁, h⟩ := Option.bind_eq_some_iff.1 h
  obtain ⟨r₂, h₂, h⟩ := Option.bind_eq_some_iff.1 h
  obtain ⟨⟨second, r₃⟩, h₃, h⟩ := Option.bind_eq_some_iff.1 h
  have hs : r₃ <:+ text :=
    ((field?_suffix h₃).trans (after?_suffix h₂)).trans (afterMinute?_suffix h₁)
  simp only at h
  split at h
  next fraction =>
    split at h
    next =>
      cases h
      exact ((List.dropWhile_suffix _).trans (List.suffix_cons '.' fraction)).trans hs
    next =>
      cases h
      exact hs
  next =>
    cases h
    exact hs

theorem afterOffset_suffix (text : Text) : afterOffset text <:+ text := by
  unfold afterOffset
  split
  next rest => exact List.suffix_cons 'Z' rest
  next rest => exact List.suffix_cons 'z' rest
  next => exact getD_suffix fun _ h => afterMinute?_suffix h
  next => exact getD_suffix fun _ h => afterMinute?_suffix h
  next => exact List.suffix_refl _

theorem afterTimeOfDay_suffix (text : Text) : afterTimeOfDay text <:+ text := by
  have hs (rest last : Text) (h : (afterTime? rest).map afterOffset = some last) :
      last <:+ rest := by
    obtain ⟨time, ht, rfl⟩ := Option.map_eq_some_iff.1 h
    exact (afterOffset_suffix time).trans (afterTime?_suffix ht)
  unfold afterTimeOfDay
  split
  next rest => exact getD_suffix (hs rest)
  next rest => exact getD_suffix (hs rest)
  next rest => exact getD_suffix (hs rest)
  next => exact List.suffix_refl _

theorem date?_suffix {valid : Bool} (h : date? text = some (valid, rest)) : rest <:+ text := by
  obtain ⟨⟨year, r₁⟩, h₁, h⟩ := Option.bind_eq_some_iff.1 h
  obtain ⟨r₂, h₂, h⟩ := Option.bind_eq_some_iff.1 h
  obtain ⟨⟨month, r₃⟩, h₃, h⟩ := Option.bind_eq_some_iff.1 h
  obtain ⟨r₄, h₄, h⟩ := Option.bind_eq_some_iff.1 h
  obtain ⟨⟨day, r₅⟩, h₅, h⟩ := Option.bind_eq_some_iff.1 h
  cases h
  have hm := (field?_suffix h₃).trans ((after?_suffix h₂).trans (field?_suffix h₁))
  have hd := (field?_suffix h₅).trans ((after?_suffix h₄).trans hm)
  exact (afterTimeOfDay_suffix r₅).trans hd

end Skipping

section Numbers
open Value
variable {limit depth : Nat} {text rest : Text}

theorem leaves_writtenBefore (h : rest <:+ text) :
    Leaves text DistinctKeys (writtenBefore rest text) :=
  ⟨.other _, h⟩

/-- The digits of a whole part stand in a row at the beginning, and the others follow. -/
theorem wholePart?_spec {whole : Text} (h : wholePart? text = some (whole, rest)) :
    rest <:+ text ∧ whole <+: unseparated text ∧ ∀ c ∈ whole, c.isDigit = true := by
  unfold wholePart? at h
  split at h
  next body =>
    cases h
    exact ⟨List.suffix_cons '0' _, ⟨unseparated _, rfl⟩, List.forall_mem_singleton.2 (by decide)⟩
  next =>
    split at h
    next =>
      have hu : Char.isDigit '_' = false := by
        decide
      have hd := digits_suffix Char.isDigit text
      have hp := digits_prefix hu text
      rw [Option.some.inj h] at hd hp
      exact ⟨hd, hp⟩
    next => cases h

theorem yields_decimal (text : Text) :
    Yields limit depth text (Leaves text DistinctKeys) (decimal text) := by
  have hs := afterSign_suffix text
  unfold decimal
  split
  next whole behind hw =>
    obtain ⟨hb, hp, hd⟩ := wholePart?_spec hw
    have hf := ((afterExponent_suffix _).trans (afterFraction_suffix behind)).trans (hb.trans hs)
    simp only [Numeral.isTooLong, decide_eq_true_eq]
    split
    next => exact leaves_writtenBefore hf
    next =>
      split
      next hl =>
        have hr : FewDigits (afterSign text) → False := fun hf =>
          absurd (hf _ hp.isInfix hd) (by omega)
        exact fun hf => hr (hf.of_suffix hs)
      next => exact ⟨.integer _, hb.trans hs⟩
  next =>
    refine yields_ofOption fun read hr => ?_
    obtain ⟨last, hn, rfl⟩ := Option.map_eq_some_iff.1 hr
    exact leaves_writtenBefore ((afterName?_suffix hn).trans hs)

theorem yields_inBase (base : Nat) (text : Text) :
    Yields limit depth text (Leaves text DistinctKeys) (inBase base text) := by
  unfold inBase
  simp only
  split
  next => exact ⟨.integer _, digits_suffix _ text⟩
  next => trivial

theorem yields_number (text : Text) :
    Yields limit depth text (Leaves text DistinctKeys) (number text) := by
  have hb (base : Nat) (rest : Text) (c : Char) :
      Yields limit depth ('0' :: c :: rest) (Leaves ('0' :: c :: rest) DistinctKeys)
        (inBase base rest) :=
    (yields_inBase base rest).widen ⟨['0', c], rfl⟩
  unfold number
  split
  next rest => exact hb 16 rest 'x'
  next rest => exact hb 8 rest 'o'
  next rest => exact hb 2 rest 'b'
  next => exact yields_decimal text

theorem yields_plainValue (text : Text) :
    Yields limit depth text (Leaves text DistinctKeys) (plainValue text) := by
  unfold plainValue
  split
  next hd => exact leaves_writtenBefore (date?_suffix hd)
  next => trivial
  next ht => exact leaves_writtenBefore (afterTime?_suffix ht)
  next => exact yields_number text

end Numbers

end EditorConfig.Toml
