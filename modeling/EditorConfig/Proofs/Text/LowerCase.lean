import EditorConfig.Text.LowerCase

/-! Texts in lower case. Main statement: what has been put in lower case is made of characters
without a lower-case form of their own, so doing it again changes nothing. -/
namespace EditorConfig.Text

structure Span where
  low : Nat
  high : Nat
  step : Nat

def CaseRun.small (run : CaseRun) : Span :=
  let low := ((run.first : Int) + run.shift).toNat
  ⟨low, low + (run.last - run.first), run.step⟩

def Span.misses (s : Span) (run : CaseRun) : Bool :=
  Nat.blt s.high run.first || (Nat.blt run.last s.low ||
    (s.step == 2 || s.low == s.high) && run.step == 2 && (s.low + run.first) % 2 == 1)

theorem Span.has_of_misses {s : Span} {run : CaseRun} (h : s.misses run = true) {n : Nat}
    (hl : s.low ≤ n) (hh : n ≤ s.high) (hs : (n - s.low) % s.step = 0) : run.has n = false := by
  rw [Bool.eq_false_iff]
  intro hr
  simp only [misses, CaseRun.has, Bool.or_eq_true, Bool.and_eq_true, decide_eq_true_eq,
    beq_iff_eq, Nat.blt_eq] at h hr
  obtain ⟨⟨hf, hb⟩, hm⟩ := hr
  obtain h | h | ⟨⟨ht, h2⟩, hp⟩ := h
  · omega
  · omega
  · rw [h2] at hm
    cases ht with
    | inl ht =>
      rw [ht] at hs
      omega
    | inr ht => omega

def capitals : List CaseRun := ⟨0x130, 0x130, 1, 0⟩ :: caseRuns

def IsSmall (c : Char) : Prop := ∀ run ∈ capitals, run.has c.toNat = false

def CaseRun.descends (run : CaseRun) : Bool :=
  0 ≤ (run.first : Int) + run.shift && (run.small.high < 0xD800 ||
    0xDFFF < run.small.low && run.small.high < 0x110000) && capitals.all run.small.misses

theorem all_descends : caseRuns.all CaseRun.descends = true := by decide +kernel

theorem toNat_ofNat {n : Nat} (h : n < 0xD800 ∨ 0xDFFF < n ∧ n < 0x110000) :
    (Char.ofNat n).toNat = n := by
  have hv : n.isValidChar := h
  rw [Char.ofNat, dif_pos hv]
  rfl

/-- A character stays, or it is a capital of a run and becomes one of the run's small letters. -/
theorem lowerChar_cases (c : Char) :
    (caseRuns.find? (·.has c.toNat) = none ∧ lowerChar c = c) ∨
      ∃ run ∈ caseRuns, run.small.low ≤ (lowerChar c).toNat ∧
        (lowerChar c).toNat ≤ run.small.high ∧
        ((lowerChar c).toNat - run.small.low) % run.small.step = 0 := by
  unfold lowerChar
  split
  next run hr =>
    have hm := List.mem_of_find?_eq_some hr
    have hd := List.all_eq_true.1 all_descends run hm
    have hh := List.find?_some hr
    simp only [CaseRun.descends, CaseRun.has, Bool.and_eq_true, Bool.or_eq_true,
      decide_eq_true_eq, beq_iff_eq] at hd hh
    have hlow : run.small.low = ((run.first : Int) + run.shift).toNat := rfl
    have hhigh : run.small.high = run.small.low + (run.last - run.first) := rfl
    obtain ⟨⟨hz, hv⟩, -⟩ := hd
    obtain ⟨⟨hf, hl⟩, hs⟩ := hh
    refine .inr ⟨run, hm, ?_⟩
    rw [toNat_ofNat (by omega)]
    refine ⟨by omega, by omega, ?_⟩
    have he : ((c.toNat : Int) + run.shift).toNat - run.small.low = c.toNat - run.first := by omega
    rw [he]
    exact hs
  next hn => exact .inl ⟨hn, rfl⟩

theorem isSmall_lowerChar {c : Char} (hc : c ≠ '\u0130') : IsSmall (lowerChar c) := by
  obtain ⟨hn, he⟩ | ⟨run, hr, hl, hh, hs⟩ := lowerChar_cases c
  · rw [he]
    intro run hr
    cases List.mem_cons.1 hr with
    | inl he =>
      have hi : c.toNat ≠ 0x130 := fun ht => hc (Char.toNat_inj.1 ht)
      rw [he, CaseRun.has, Bool.eq_false_iff]
      intro hb
      simp only [Bool.and_eq_true, decide_eq_true_eq] at hb
      omega
    | inr hm => exact Bool.eq_false_iff.2 (List.find?_eq_none.1 hn run hm)
  · have hd := List.all_eq_true.1 all_descends run hr
    simp only [CaseRun.descends, Bool.and_eq_true, List.all_eq_true] at hd
    intro other ho
    exact Span.has_of_misses (hd.2 other ho) hl hh hs

theorem lowerChar_of_isSmall {c : Char} (h : IsSmall c) : lowerChar c = c := by
  have hn : caseRuns.find? (·.has c.toNat) = none := by
    rw [List.find?_eq_none]
    exact fun run hr => Bool.eq_false_iff.1 (h run (List.mem_cons_of_mem _ hr))
  rw [lowerChar, hn]

instance (c : Char) : Decidable (IsSmall c) :=
  inferInstanceAs (Decidable (∀ run ∈ capitals, run.has c.toNat = false))

theorem isSmall_lowerAfter (before text : Text) : ∀ c ∈ lowerAfter before text, IsSmall c := by
  induction text generalizing before with
  | nil => exact List.forall_mem_nil _
  | cons c text ih =>
    have ha : ['\u03C2', '\u03C3', 'i', '\u0307'].all (IsSmall ·) = true := by decide +kernel
    have hs : ∀ d ∈ ['\u03C2', '\u03C3', 'i', '\u0307'], IsSmall d :=
      fun d hd => of_decide_eq_true (List.all_eq_true.1 ha d hd)
    rw [lowerAfter, List.forall_mem_append]
    refine ⟨?_, ih _⟩
    by_cases hc : c = '\u03A3'
    · rw [if_pos hc, List.forall_mem_singleton]
      split
      · exact hs _ (by simp)
      · exact hs _ (by simp)
    · rw [if_neg hc]
      by_cases hi : c = '\u0130'
      · rw [if_pos hi]
        exact fun d hd => hs d (by simp_all)
      · rw [if_neg hi, List.forall_mem_singleton]
        exact isSmall_lowerChar hi

/-- Small letters stay, whatever stands around them. -/
theorem lowerAfter_of_isSmall {text : Text} (h : ∀ c ∈ text, IsSmall c) (before : Text) :
    lowerAfter before text = text := by
  induction text generalizing before with
  | nil => rfl
  | cons c text ih =>
    rw [List.forall_mem_cons] at h
    have hs : c ≠ '\u03A3' := by
      rintro rfl
      exact absurd h.1 (by decide +kernel)
    have hi : c ≠ '\u0130' := by
      rintro rfl
      exact absurd h.1 (by decide +kernel)
    rw [lowerAfter, if_neg hs, if_neg hi, lowerChar_of_isSmall h.1, ih h.2]
    rfl

def firstSmall : Nat := 'a'.toNat

theorem all_firstSmall_le : caseRuns.all (fun run => firstSmall ≤ run.small.low) = true := by
  decide +kernel

/-- Lower case brings in small letters only. -/
theorem mem_or_firstSmall_le {before text : Text} {c : Char} (h : c ∈ lowerAfter before text) :
    c ∈ text ∨ firstSmall ≤ c.toNat := by
  induction text generalizing before with
  | nil => cases h
  | cons d text ih =>
    rw [lowerAfter, List.mem_append] at h
    cases h with
    | inr h => exact (ih h).imp_left (List.mem_cons_of_mem d)
    | inl h =>
      by_cases hd : d = '\u03A3'
      · rw [if_pos hd, List.mem_singleton] at h
        subst h
        split
        · exact .inr (by decide)
        · exact .inr (by decide)
      · rw [if_neg hd] at h
        by_cases hi : d = '\u0130'
        · rw [if_pos hi, List.mem_cons, List.mem_singleton] at h
          rcases h with rfl | rfl
          · exact .inr (by decide)
          · exact .inr (by decide)
        · rw [if_neg hi, List.mem_singleton] at h
          subst h
          obtain ⟨-, he⟩ | ⟨run, hr, hl, -⟩ := lowerChar_cases d
          · rw [he]
            exact .inl List.mem_cons_self
          · have hf := of_decide_eq_true (List.all_eq_true.1 all_firstSmall_le run hr)
            exact .inr (Nat.le_trans hf hl)

theorem mem_of_mem_lower {text : Text} {c : Char} (hc : c.toNat < firstSmall)
    (h : c ∈ lower text) : c ∈ text :=
  (mem_or_firstSmall_le h).resolve_right (Nat.not_le_of_lt hc)

theorem lower_ne_nil {text : Text} (h : text ≠ []) : lower text ≠ [] := by
  cases text with
  | nil => exact absurd rfl h
  | cons c text =>
    rw [lower, lowerAfter]
    refine List.append_ne_nil_of_left_ne_nil ?_ _
    split
    · exact List.cons_ne_nil _ _
    · split
      · exact List.cons_ne_nil _ _
      · exact List.cons_ne_nil _ _

theorem lower_lower (text : Text) : lower (lower text) = lower text :=
  lowerAfter_of_isSmall (isSmall_lowerAfter [] text) []

end EditorConfig.Text
