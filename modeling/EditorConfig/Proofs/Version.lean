import EditorConfig.Version
import Mathlib.Data.List.Basic

/-! Versions that can be read. Main statement: a version is read exactly if none of the components
that count is an overlong number. -/
namespace EditorConfig.Version

def Short (version : Text) : Prop :=
  ∀ part ∈ version.splitOnP fun c => c == '.' || c == '-',
    part.countP (fun c => (Text.digitValue? c).isSome) ≤ Numeral.maxDigits

def Overlong (part : Text) : Prop :=
  (part.all fun c => (Text.digitValue? c).isSome) = true ∧ Numeral.maxDigits < part.length

def Readable (version : Text) : Prop :=
  ∀ part ∈ (version.splitOnP fun c => c == '.' || c == '-').take 3, ¬ Overlong part

instance (version : Text) : Decidable (Short version) := by
  unfold Short
  infer_instance

instance (part : Text) : Decidable (Overlong part) := inferInstanceAs (Decidable (_ ∧ _))

instance (version : Text) : Decidable (Readable version) :=
  inferInstanceAs (Decidable (∀ part ∈ List.take 3 _, ¬ Overlong part))

theorem Short.readable {version : Text} (h : Short version) : Readable version := by
  intro part hp ho
  have hl : part.countP (fun c => (Text.digitValue? c).isSome) = part.length :=
    List.countP_eq_length.2 (List.all_eq_true.1 ho.1)
  have hs := h part (List.mem_of_mem_take hp)
  have hm := ho.2
  omega

theorem all_isSome_digitValue? (text : Text) :
    (text.all fun c => (Text.digitValue? c).isSome) = (text.mapM Text.digitValue?).isSome := by
  induction text with
  | nil => rfl
  | cons c text ih =>
    rw [List.mapM_cons, List.all_cons, ih]
    cases Text.digitValue? c with
    | none => rfl
    | some d => cases text.mapM Text.digitValue? <;> rfl

theorem exists_component_iff {text : Text} :
    (∃ n, component text = .ok n) ↔ ¬ Overlong text := by
  rw [Overlong, all_isSome_digitValue?, component]
  cases text with
  | nil => exact iff_of_true ⟨-1, rfl⟩ (by simp)
  | cons c text =>
    rw [List.mapM_cons]
    cases Text.digitValue? c with
    | none => exact iff_of_true ⟨-1, rfl⟩ (by simp)
    | some d =>
      cases text.mapM Text.digitValue? with
      | none => exact iff_of_true ⟨-1, rfl⟩ (by simp)
      | some digits =>
        by_cases hl : Numeral.maxDigits < text.length + 1
        · exact iff_of_false (by simp [hl]) (by simp [hl])
        · exact iff_of_true (by simp [hl]) (by simpa using hl)

def componentAt (version : Text) (i : Nat) : Except Error Int :=
  ((version.splitOnP fun c => c == '.' || c == '-')[i]?.map component).getD (.ok (-1))

theorem exists_componentAt_iff {version : Text} {i : Nat} :
    (∃ n, componentAt version i = .ok n) ↔
      ∀ part, (version.splitOnP fun c => c == '.' || c == '-')[i]? = some part →
        ¬ Overlong part := by
  rw [componentAt]
  cases (version.splitOnP fun c => c == '.' || c == '-')[i]? with
  | none => exact iff_of_true ⟨-1, rfl⟩ nofun
  | some part => simpa using exists_component_iff

theorem ofText_eq_ok_iff {version : Text} {v : Version} :
    ofText version = .ok v ↔ componentAt version 0 = .ok v.major ∧
      componentAt version 1 = .ok v.minor ∧ componentAt version 2 = .ok v.patch := by
  obtain ⟨major, minor, patch⟩ := v
  change (do return (⟨← componentAt version 0, ← componentAt version 1,
    ← componentAt version 2⟩ : Version)) = _ ↔ _
  cases componentAt version 0 <;> cases componentAt version 1 <;>
    cases componentAt version 2 <;> simp [bind, Except.bind, pure, Except.pure]

theorem readable_iff_componentAt {version : Text} :
    Readable version ↔ ∀ i < 3, ∃ n, componentAt version i = .ok n := by
  simp only [exists_componentAt_iff, Readable, List.mem_iff_getElem?, List.getElem?_take]
  constructor
  · intro h i hi part hp
    exact h part ⟨i, by rw [if_pos hi, hp]⟩
  · intro h part hm
    obtain ⟨i, hi⟩ := hm
    split at hi
    next hl => exact h i hl part hi
    next => cases hi

theorem readable_iff {version : Text} : Readable version ↔ ∃ v, ofText version = .ok v := by
  simp only [readable_iff_componentAt, ofText_eq_ok_iff]
  constructor
  · intro h
    obtain ⟨major, h₀⟩ := h 0 (by decide)
    obtain ⟨minor, h₁⟩ := h 1 (by decide)
    obtain ⟨patch, h₂⟩ := h 2 (by decide)
    exact ⟨⟨major, minor, patch⟩, h₀, h₁, h₂⟩
  · intro h i hi
    obtain ⟨v, h₀, h₁, h₂⟩ := h
    match i with
    | 0 => exact ⟨_, h₀⟩
    | 1 => exact ⟨_, h₁⟩
    | 2 => exact ⟨_, h₂⟩

theorem gap_of_ofText {a b : Text} {v w : Version} (ha : ofText a = .ok v)
    (hb : ofText b = .ok w) : gap a b = .ok (v.difference w) := by
  rw [gap, ha, hb]
  rfl

theorem require_of_ofText {a : Text} {v w : Version} (ha : ofText a = .ok v)
    (hc : ofText currentVersion = .ok w) :
    require a = if 0 < v.difference w then .error (.newerVersion a) else .ok () := by
  rw [require, gap_of_ofText ha hc]
  rfl

theorem short_current : Short currentVersion := by decide +kernel

theorem require_of_short {version : Text} (h : Short version) :
    require version = .ok () ∨ require version = .error (.newerVersion version) := by
  obtain ⟨v, hv⟩ := readable_iff.1 h.readable
  obtain ⟨w, hw⟩ := readable_iff.1 short_current.readable
  rw [require_of_ofText hv hw]
  split
  · exact .inr rfl
  · exact .inl rfl

end EditorConfig.Version
