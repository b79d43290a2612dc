import EditorConfig.Glob.NumericRange

/-! Integers in decimal, and numerals read back. Main statement: the bounds of a range are those
that were written. -/
namespace EditorConfig

namespace Text

structure IsDigits (text : Text) : Prop where
  ne_nil : text ≠ []
  digit : ∀ c ∈ text, c.isDigit = true

def StartsApart (text : Text) : Prop := text.head?.any Char.isDigit = false

def IsSigned (text : Text) : Prop :=
  ∃ sign digits, sign ∈ [[], ['-'], ['+']] ∧ IsDigits digits ∧ text = sign ++ digits

theorem IsSigned.mem {text : Text} (h : IsSigned text) {c : Char} (hc : c ∈ text) :
    c.isDigit = true ∨ c ∈ "+-".toList := by
  obtain ⟨sign, digits, hs, hd, rfl⟩ := h
  have hm : ∀ sign ∈ [[], ['-'], ['+']], ∀ d ∈ sign, d ∈ "+-".toList := by simp
  exact (List.mem_append.1 hc).symm.imp (hd.digit c) (hm sign hs c)

instance (text : Text) : Decidable (StartsApart text) := inferInstanceAs (Decidable (_ = _))

/-- No more digits stand in a row than a number may have. -/
def ShortRuns (text : Text) : Prop :=
  ∀ run, run <:+: text → (∀ c ∈ run, c.isDigit = true) → run.length ≤ Numeral.maxDigits

theorem takeWhile_digits {digits rest : Text} (hd : IsDigits digits) (hr : StartsApart rest) :
    (digits ++ rest).takeWhile Char.isDigit = digits := by
  rw [List.takeWhile_append_of_pos hd.digit]
  cases rest with
  | nil => simp
  | cons c rest =>
    have hc : c.isDigit = false := by simpa [StartsApart] using hr
    simp [hc]

theorem dropWhile_digits {digits rest : Text} (hd : IsDigits digits) (hr : StartsApart rest) :
    (digits ++ rest).dropWhile Char.isDigit = rest := by
  rw [List.dropWhile_append_of_pos hd.digit]
  cases rest with
  | nil => rfl
  | cons c rest =>
    have hc : c.isDigit = false := by simpa [StartsApart] using hr
    simp [hc]

end Text

namespace Numeral

def ofInt (n : Int) : Numeral := ⟨n < 0, Nat.toDigits 10 n.natAbs⟩

def text (n : Numeral) : Text := if n.negative then '-' :: n.digits else n.digits

theorem isDigits_ofInt (n : Int) : Text.IsDigits (ofInt n).digits :=
  ⟨Nat.toDigits_ne_nil, fun _ h => Nat.isDigit_of_mem_toDigits (by decide) (by decide) h⟩

theorem mem_text_ofInt {n : Int} {c : Char} (h : c ∈ (ofInt n).text) :
    c.isDigit = true ∨ c = '-' := by
  have hd := (isDigits_ofInt n).digit c
  rw [text] at h
  split at h
  · exact (List.mem_cons.1 h).symm.imp_left hd
  · exact .inl (hd h)

theorem natValue_eq (digits : Text) : natValue digits = Nat.ofDigitChars 10 digits 0 := by
  rw [natValue, ofDigitValues, List.foldl_map, Nat.ofDigitChars_eq_foldl]

theorem le_foldl_digits (values : List Nat) (n : Nat) :
    n ≤ values.foldl (fun n d => 10 * n + d) n := by
  induction values generalizing n with
  | nil => exact Nat.le_refl n
  | cons d values ih =>
    have hi := ih (10 * n + d)
    rw [List.foldl_cons]
    omega

/-- Digits without a leading zero spell a positive number. -/
theorem natValue_pos {digits : Text} (hd : Text.IsDigits digits) (hz : digits.head? ≠ some '0') :
    0 < natValue digits := by
  cases digits with
  | nil => exact absurd rfl hd.ne_nil
  | cons c rest =>
    have hc : c.isDigit = true := hd.digit c List.mem_cons_self
    have hn : c ≠ '0' := fun he => hz (by rw [he]; rfl)
    have hp : 0 < c.toNat - '0'.toNat := by
      have hv : c.toNat ≠ '0'.toNat := fun he => hn (Char.toNat_inj.1 he)
      have hl : '0'.toNat ≤ c.toNat := (Char.isDigit_iff_toNat.1 hc).1
      omega
    have hf := le_foldl_digits (rest.map fun c => c.toNat - '0'.toNat)
      (10 * 0 + (c.toNat - '0'.toNat))
    rw [natValue, ofDigitValues, List.map_cons, List.foldl_cons]
    omega

theorem value_ofInt (n : Int) : (ofInt n).value = n := by
  rw [value, ofInt, natValue_eq, Nat.ofDigitChars_ten_toDigits]
  simp only [decide_eq_true_eq]
  split <;> omega

theorem read?_text {n : Numeral} (hn : Text.IsDigits n.digits) {rest : Text}
    (hr : Text.StartsApart rest) : read? (n.text ++ rest) = some (n, rest) := by
  obtain ⟨negative, digits⟩ := n
  have ht := Text.takeWhile_digits hn hr
  have hd := Text.dropWhile_digits hn hr
  cases digits with
  | nil => exact absurd rfl hn.ne_nil
  | cons d digits =>
    cases negative with
    | true =>
      simp only [read?, text, if_true, List.cons_append] at ht hd ⊢
      rw [ht, hd]
    | false =>
      have hm : d ≠ '-' := fun he => absurd (hn.digit d List.mem_cons_self) (by rw [he]; decide)
      have hp : d ≠ '+' := fun he => absurd (hn.digit d List.mem_cons_self) (by rw [he]; decide)
      rw [List.cons_append] at ht hd
      simp [read?, text, hm, hp, ht, hd]

/-- A numeral is read off ASCII digits behind a sign, if there is one. -/
theorem isSigned_of_read? {text rest : Text} {n : Numeral} (h : read? text = some (n, rest)) :
    ∃ taken, Text.IsSigned taken ∧ text = taken ++ rest := by
  have hd : ∀ sign body : Text, sign ∈ [[], ['-'], ['+']] →
      body.takeWhile Char.isDigit ≠ [] → body.dropWhile Char.isDigit = rest →
      ∃ taken, Text.IsSigned taken ∧ sign ++ body = taken ++ rest := by
    intro sign body hs hn hr
    have hb : Text.IsDigits (body.takeWhile Char.isDigit) :=
      ⟨hn, List.all_eq_true.1 List.all_takeWhile⟩
    refine ⟨sign ++ body.takeWhile Char.isDigit, ⟨sign, _, hs, hb, rfl⟩, ?_⟩
    rw [← hr, List.append_assoc, List.takeWhile_append_dropWhile]
  unfold read? at h
  split at h
  next negative body hs =>
  have hb : body.takeWhile Char.isDigit ≠ [] ∧ body.dropWhile Char.isDigit = rest := by
    split at h
    · cases h
    · next hn =>
      cases h
      exact ⟨hn, rfl⟩
  split at hs
  · cases hs
    exact hd ['-'] _ (by simp) hb.1 hb.2
  · cases hs
    exact hd ['+'] _ (by simp) hb.1 hb.2
  · cases hs
    exact hd [] _ (by simp) hb.1 hb.2

end Numeral

namespace Bounds

def text (b : Bounds) : Text := b.low.text ++ '.' :: '.' :: b.high.text

theorem ofText?_text {b : Bounds} (hl : Text.IsDigits b.low.digits)
    (hh : Text.IsDigits b.high.digits) : ofText? b.text = some b := by
  have hd : Numeral.read? b.text = some (b.low, '.' :: '.' :: b.high.text) :=
    Numeral.read?_text hl rfl
  have he := @Numeral.read?_text b.high hh [] rfl
  rw [List.append_nil] at he
  rw [ofText?, hd]
  simp only [he]

/-- Bounds are read off two signed numbers with two dots between them. -/
theorem isSigned_of_ofText? {text : Text} {b : Bounds} (h : ofText? text = some b) :
    ∃ low high, Text.IsSigned low ∧ Text.IsSigned high ∧ text = low ++ '.' :: '.' :: high := by
  unfold ofText? at h
  split at h
  · next low rest hl =>
    split at h
    · next high hh =>
      obtain ⟨u, hu, rfl⟩ := Numeral.isSigned_of_read? hl
      obtain ⟨v, hv, rfl⟩ := Numeral.isSigned_of_read? hh
      exact ⟨u, v, hu, hv, by rw [List.append_nil]⟩
    · cases h
  · cases h

/-- Bounds are written with digits, signs and dots only. -/
theorem mem_of_ofText? {text : Text} {b : Bounds} (h : ofText? text = some b) {c : Char}
    (hc : c ∈ text) : c.isDigit = true ∨ c ∈ "+-.".toList := by
  have hs : ∀ {d : Char}, d.isDigit = true ∨ d ∈ "+-".toList →
      d.isDigit = true ∨ d ∈ "+-.".toList :=
    fun hd => hd.imp_right fun hm => List.mem_append_left ['.'] hm
  obtain ⟨low, high, hl, hh, rfl⟩ := isSigned_of_ofText? h
  simp only [List.mem_append, List.mem_cons] at hc
  obtain hc | rfl | rfl | hc := hc
  · exact hs (hl.mem hc)
  · exact .inr (by decide)
  · exact .inr (by decide)
  · exact hs (hh.mem hc)

end Bounds
end EditorConfig
