import EditorConfig.Proofs.Version
import Mathlib.Data.Prod.Lex

/-! The order of versions. Main statement: versions are compared as their components are in
lexicographic order, and none that is not newer than an accepted one is refused. -/
namespace EditorConfig.Version

section Components
variable {v w : Version}

def components (v : Version) : Int ×ₗ Int ×ₗ Int := toLex (v.major, toLex (v.minor, v.patch))

theorem components_injective : Function.Injective components := by
  intro v w h
  obtain ⟨major, minor, patch⟩ := v
  obtain ⟨major', minor', patch'⟩ := w
  cases h
  rfl

instance : LinearOrder Version := LinearOrder.lift' components components_injective

theorem lt_iff : v < w ↔ v.major < w.major ∨ v.major = w.major ∧
    (v.minor < w.minor ∨ v.minor = w.minor ∧ v.patch < w.patch) := by
  change v.components < w.components ↔ _
  rw [components, components, Prod.Lex.toLex_lt_toLex, Prod.Lex.toLex_lt_toLex]

theorem difference_swap (v w : Version) : w.difference v = -v.difference w := by
  unfold difference
  split_ifs <;> omega

theorem difference_neg_iff : v.difference w < 0 ↔ v < w := by
  rw [lt_iff, difference]
  split_ifs <;> omega

theorem difference_nonpos_iff : v.difference w ≤ 0 ↔ v ≤ w := by
  have h : w.difference v < 0 ↔ w < v := difference_neg_iff
  rw [difference_swap v w] at h
  rw [← not_lt (a := w), ← h]
  omega

theorem difference_eq_zero_iff : v.difference w = 0 ↔ v = w := by
  have h : w.difference v ≤ 0 ↔ w ≤ v := difference_nonpos_iff
  rw [difference_swap v w] at h
  rw [le_antisymm_iff (a := v), ← h, ← difference_nonpos_iff]
  omega

end Components

section Texts
variable {a b c : Text} {u v w : Version}

def current : Version := ⟨0, 12, 0⟩

theorem ofText_current : ofText currentVersion = .ok current := by decide +kernel

theorem require_eq_ok_iff (ha : ofText a = .ok v) : require a = .ok () ↔ v ≤ current := by
  rw [require_of_ofText ha ofText_current, ← difference_nonpos_iff]
  split
  next hn =>
    constructor
    · intro h
      cases h
    · intro h
      omega
  next hn => exact iff_of_true rfl (by omega)

def SameSide (third a b : Text) : Prop :=
  (gap a third).map Int.sign = (gap b third).map Int.sign

theorem gap_congr (h : ofText a = ofText b) (third : Text) :
    gap a third = gap b third ∧ gap third a = gap third b := by
  simp only [gap, h, and_self]

theorem eq_of_sameSide (ha : ofText a = .ok v) (hb : ofText b = .ok w) (h : SameSide a a b) :
    v = w := by
  -- `a` is level with itself, so what is on the same side is level with it
  rw [SameSide, gap_of_ofText ha ha, gap_of_ofText hb ha, difference_eq_zero_iff.2 rfl] at h
  have hs : (0 : Int) = (w.difference v).sign := Except.ok.inj h
  rw [eq_comm, Int.sign_eq_zero_iff_zero, difference_eq_zero_iff] at hs
  exact hs.symm

/-- How three versions compare that have these gaps between them. -/
structure Compared (a b c : Text) (ab bc ac : Int) : Prop where
  components : ∃ v w, ofText a = .ok v ∧ ofText b = .ok w ∧ (ab < 0 ↔ v < w) ∧
    (require a = .ok () ↔ v ≤ current)
  swapped : gap b a = .ok (-ab)
  trans : ab ≤ 0 → bc ≤ 0 → ac ≤ 0
  strict : ab ≤ 0 → bc ≤ 0 → ab < 0 ∨ bc < 0 → ac < 0
  level_iff : ab = 0 ↔ ∀ third, Readable third → SameSide third a b
  /-- Even the gaps to a third version are the same, or the error if it cannot be read. -/
  alike : ab = 0 → ∀ third, gap a third = gap b third ∧ gap third a = gap third b
  /-- It takes no other version to tell two apart that are not level. -/
  apart : ab ≠ 0 → ¬ SameSide a a b
  accepted : require b = .ok () → ab ≤ 0 → require a = .ok ()

/-- Versions that can be read are in a total preorder, and those that are accepted are an initial
segment of it. -/
theorem gap_compared (ha : Readable a) (hb : Readable b) (hc : Readable c) :
    ∃ ab bc ac, gap a b = .ok ab ∧ gap b c = .ok bc ∧ gap a c = .ok ac ∧
      Compared a b c ab bc ac := by
  obtain ⟨u, hu⟩ := readable_iff.1 ha
  obtain ⟨v, hv⟩ := readable_iff.1 hb
  obtain ⟨w, hw⟩ := readable_iff.1 hc
  have halike : u.difference v = 0 → ∀ third,
      gap a third = gap b third ∧ gap third a = gap third b := by
    intro h
    rw [difference_eq_zero_iff] at h
    exact gap_congr (by rw [hu, hv, h])
  have hapart : SameSide a a b → u.difference v = 0 :=
    fun h => difference_eq_zero_iff.2 (eq_of_sameSide hu hv h)
  refine ⟨u.difference v, v.difference w, u.difference w, gap_of_ofText hu hv,
    gap_of_ofText hv hw, gap_of_ofText hu hw, ?_⟩
  constructor
  case components => exact ⟨u, v, hu, hv, difference_neg_iff, require_eq_ok_iff hu⟩
  case swapped => rw [gap_of_ofText hv hu, difference_swap u v]
  case trans =>
    simp only [difference_nonpos_iff]
    exact le_trans
  case strict =>
    simp only [difference_nonpos_iff, difference_neg_iff]
    intro huv hvw h
    cases h with
    | inl h => exact h.trans_le hvw
    | inr h => exact huv.trans_lt h
  case level_iff =>
    constructor
    · intro h third _
      rw [SameSide, (halike h third).1]
    · intro h
      exact hapart (h a ha)
  case alike => exact halike
  case apart => exact mt hapart
  case accepted =>
    rw [require_eq_ok_iff hu, require_eq_ok_iff hv, difference_nonpos_iff]
    intro hc huv
    exact huv.trans hc

theorem gap_compared_scripts :
    Readable "0.12".toList ∧ Readable "٠.١٢-٠.x".toList ∧ Readable "7..²".toList ∧
      gap "0.12".toList "٠.١٢-٠.x".toList = .ok (-1) ∧
      gap "٠.١٢-٠.x".toList "7..²".toList = .ok (-7) ∧
      gap "0.12".toList "7..²".toList = .ok (-7) ∧
      Compared "0.12".toList "٠.١٢-٠.x".toList "7..²".toList (-1) (-7) (-7) := by
  have ha : Readable "0.12".toList := by decide +kernel
  have hb : Readable "٠.١٢-٠.x".toList := by decide +kernel
  have hc : Readable "7..²".toList := by decide +kernel
  have hab : gap "0.12".toList "٠.١٢-٠.x".toList = .ok (-1) := by decide +kernel
  have hbc : gap "٠.١٢-٠.x".toList "7..²".toList = .ok (-7) := by decide +kernel
  have hac : gap "0.12".toList "7..²".toList = .ok (-7) := by decide +kernel
  obtain ⟨ab, bc, ac, hab', hbc', hac', h⟩ := gap_compared ha hb hc
  cases hab.symm.trans hab'
  cases hbc.symm.trans hbc'
  cases hac.symm.trans hac'
  exact ⟨ha, hb, hc, hab, hbc, hac, h⟩

end Texts
end EditorConfig.Version
