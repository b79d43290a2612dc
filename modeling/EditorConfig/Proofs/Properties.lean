import EditorConfig.Proofs.OrderedMap
import EditorConfig.Proofs.Text.LowerCase

/-! The form in which properties are given out. Main statement: to give them out again changes
nothing, unless the size of an indentation is taken from a width of tabs in capitals. -/
namespace EditorConfig

namespace OrderedMap
variable {κ β : Type} [DecidableEq κ]

theorem get?_mapValues (f : κ → β → β) (m : OrderedMap κ β) (key : κ) :
    (m.mapValues f).get? key = (m.get? key).map (f key) := by
  obtain ⟨entries, hn⟩ := m
  change Entries.get? key (entries.map fun e => (e.1, f e.1 e.2)) =
    (Entries.get? key entries).map (f key)
  clear hn
  induction entries with
  | nil => rfl
  | cons entry rest ih =>
    rw [List.map_cons, Entries.get?, Entries.get?, ih]
    by_cases h : entry.1 = key
    · rw [if_pos h, if_pos h, h]
      rfl
    · rw [if_neg h, if_neg h]

theorem mapValues_insert (f : κ → β → β) (m : OrderedMap κ β) (key : κ) (value : β) :
    (m.insert key value).mapValues f = (m.mapValues f).insert key (f key value) := by
  refine ext ?_
  change (Entries.set key value m.entries).map (fun e => (e.1, f e.1 e.2)) =
    Entries.set key (f key value) (m.entries.map fun e => (e.1, f e.1 e.2))
  induction m.entries with
  | nil => rfl
  | cons entry rest ih =>
    rw [List.map_cons, Entries.set, Entries.set]
    by_cases h : entry.1 = key
    · rw [if_pos h, if_pos h]
      rfl
    · rw [if_neg h, if_neg h, List.map_cons, ih]

end OrderedMap

namespace Properties
variable (m : Properties)

def loweredValue (key value : Text) : Text :=
  if lowerCaseKeys.contains key then Text.lower value else value

theorem loweredValue_of_mem {key : Text} (h : key ∈ lowerCaseKeys) (value : Text) :
    loweredValue key value = Text.lower value :=
  if_pos (List.contains_iff_mem.2 h)

theorem loweredValue_of_notMem {key : Text} (h : key ∉ lowerCaseKeys) (value : Text) :
    loweredValue key value = value :=
  if_neg fun hc => h (List.contains_iff_mem.1 hc)

theorem lowered_eq_mapValues : m.lowered = m.mapValues loweredValue := by
  have hv : ∀ key value, loweredValue key value =
      if key ∈ lowerCaseKeys then Text.lower value else value :=
    fun key value => if_congr List.contains_iff_mem rfl rfl
  simp only [lowered, ← hv]

theorem get?_lowered (key : Text) : m.lowered.get? key = (m.get? key).map (loweredValue key) := by
  rw [lowered_eq_mapValues, OrderedMap.get?_mapValues]

theorem lowered_insert (key value : Text) :
    lowered (m.insert key value) = m.lowered.insert key (loweredValue key value) := by
  rw [lowered_eq_mapValues, lowered_eq_mapValues, OrderedMap.mapValues_insert]

theorem loweredValue_loweredValue (key value : Text) :
    loweredValue key (loweredValue key value) = loweredValue key value := by
  unfold loweredValue
  split
  · exact Text.lower_lower value
  · rfl

theorem lowered_lowered : m.lowered.lowered = m.lowered := by
  rw [lowered_eq_mapValues, lowered_eq_mapValues]
  refine OrderedMap.ext ?_
  change (m.entries.map fun e => (e.1, loweredValue e.1 e.2)).map
    (fun e => (e.1, loweredValue e.1 e.2)) = m.entries.map fun e => (e.1, loweredValue e.1 e.2)
  rw [List.map_map]
  exact List.map_congr_left fun e _ => Prod.ext rfl (loweredValue_loweredValue e.1 e.2)

def CopiesWidth (width : Text) : Prop :=
  (m.get? indentSize).map Text.lower = some "tab".toList ∧ m.get? tabWidth = some width

instance (width : Text) : Decidable (m.CopiesWidth width) :=
  inferInstanceAs (Decidable (_ ∧ _))

theorem get?_lowered_tabWidth : m.lowered.get? tabWidth = m.get? tabWidth := by
  have hk : tabWidth ∉ lowerCaseKeys := by decide
  rw [get?_lowered]
  cases m.get? tabWidth with
  | none => rfl
  | some width => exact congrArg some (loweredValue_of_notMem hk width)

theorem get?_lowered_indentSize :
    m.lowered.get? indentSize = (m.get? indentSize).map Text.lower := by
  have hk : indentSize ∈ lowerCaseKeys := by decide
  rw [get?_lowered]
  exact congrArg (fun f => (m.get? indentSize).map f) (funext (loweredValue_of_mem hk))

/-- The last steps, one for each case of what they find. -/
theorem withWidths_cases (l : Properties) :
    (∃ width, l.get? indentSize = some "tab".toList ∧ l.get? tabWidth = some width ∧
        l.withWidths = l.insert indentSize width) ∨
      (∃ size, l.get? indentSize = some size ∧ size ≠ "tab".toList ∧ l.get? tabWidth = none ∧
        l.withWidths = l.insert tabWidth size) ∨
      (∀ width, ¬ (l.get? indentSize = some "tab".toList ∧ l.get? tabWidth = some width)) ∧
        l.withWidths = l := by
  unfold withWidths
  cases hs : l.get? indentSize with
  | none => exact .inr (.inr ⟨nofun, rfl⟩)
  | some size =>
    by_cases ht : size = "tab".toList
    · cases hw : l.get? tabWidth with
      | none => exact .inr (.inr ⟨nofun, if_pos ht⟩)
      | some width => exact .inl ⟨width, congrArg some ht, rfl, if_pos ht⟩
    · have hn : some size ≠ some "tab".toList := fun h => ht (Option.some.inj h)
      cases hw : l.get? tabWidth with
      | none => exact .inr (.inl ⟨size, rfl, ht, rfl, if_neg ht⟩)
      | some width => exact .inr (.inr ⟨fun _ h => hn h.1, if_neg ht⟩)

theorem indentSize_ne_tabWidth : indentSize ≠ tabWidth := by decide

/-- The widths stand in for each other only: any other key has the value that it had. -/
theorem get?_normalized {key : Text} (hs : key ≠ indentSize) (hw : key ≠ tabWidth) :
    m.normalized.get? key = (m.get? key).map (loweredValue key) := by
  rw [← get?_lowered, normalized]
  obtain ⟨width, -, -, he⟩ | ⟨size, -, -, -, he⟩ | ⟨-, he⟩ := withWidths_cases m.lowered
  · rw [he, OrderedMap.get?_insert, if_neg hs.symm]
  · rw [he, OrderedMap.get?_insert, if_neg hw.symm]
  · rw [he]

/-- More properties do not change those that there are, apart from the widths. -/
theorem mem_normalized_of_get? {m m' : Properties}
    (h : ∀ key value, m'.get? key = some value → m.get? key = some value) {key value : Text}
    (hs : key ≠ indentSize) (hw : key ≠ tabWidth) (hm : (key, value) ∈ m'.normalized.entries) :
    (key, value) ∈ m.normalized.entries := by
  rw [← OrderedMap.get?_eq_some_iff, get?_normalized _ hs hw] at hm ⊢
  obtain ⟨written, hk, rfl⟩ := Option.map_eq_some_iff.1 hm
  rw [h key written hk, Option.map_some]

/-- A width that is taken over is put in lower case the next time. -/
theorem normalized_insert_width {width : Text} (hc : m.CopiesWidth width) :
    normalized (m.lowered.insert indentSize width) =
      m.lowered.insert indentSize
        (if Text.lower width = "tab".toList then width else Text.lower width) := by
  have hv : loweredValue indentSize width = Text.lower width :=
    loweredValue_of_mem (by decide) width
  have hs : (m.lowered.insert indentSize (Text.lower width)).get? indentSize =
      some (Text.lower width) := by rw [OrderedMap.get?_insert, if_pos rfl]
  have hw : (m.lowered.insert indentSize (Text.lower width)).get? tabWidth = some width := by
    rw [OrderedMap.get?_insert, if_neg indentSize_ne_tabWidth, get?_lowered_tabWidth, hc.2]
  rw [normalized, lowered_insert, lowered_lowered, hv, withWidths, hs, hw]
  simp only
  split
  · exact OrderedMap.insert_insert _ _ _ _
  · rfl

theorem insert_injective {l : Properties} {key value value' : Text}
    (h : l.insert key value = l.insert key value') : value = value' := by
  have hg := congrArg (OrderedMap.get? · key) h
  simpa [OrderedMap.get?_insert] using hg

theorem normalized_insert_size {size : Text} (hs : m.lowered.get? indentSize = some size)
    (ht : size ≠ "tab".toList) :
    normalized (m.lowered.insert tabWidth size) = m.lowered.insert tabWidth size := by
  have hv : loweredValue tabWidth size = size := loweredValue_of_notMem (by decide) size
  have hi : (m.lowered.insert tabWidth size).get? indentSize = some size := by
    rw [OrderedMap.get?_insert, if_neg indentSize_ne_tabWidth.symm, hs]
  have hw : (m.lowered.insert tabWidth size).get? tabWidth = some size := by
    rw [OrderedMap.get?_insert, if_pos rfl]
  rw [normalized, lowered_insert, lowered_lowered, hv, withWidths, hi, hw]
  exact if_neg ht

theorem copiesWidth_iff {width : Text} :
    m.CopiesWidth width ↔
      m.lowered.get? indentSize = some "tab".toList ∧ m.lowered.get? tabWidth = some width := by
  rw [CopiesWidth, get?_lowered_indentSize, get?_lowered_tabWidth]

theorem CopiesWidth.unique {width width' : Text} (h : m.CopiesWidth width)
    (h' : m.CopiesWidth width') : width' = width :=
  Option.some.inj (h'.2.symm.trans h.2)

/-- What `normalized` gives, by the rule that applies. -/
theorem normalized_cases :
    (∃ width, m.CopiesWidth width ∧ m.normalized = m.lowered.insert indentSize width) ∨
      (∀ width, ¬ m.CopiesWidth width) ∧ m.normalized.normalized = m.normalized ∧
        ∀ key ∈ lowerCaseKeys, m.normalized.get? key = m.lowered.get? key := by
  simp only [copiesWidth_iff]
  obtain ⟨width, hs, hw, he⟩ | ⟨size, hs, ht, hw, he⟩ | ⟨hn, he⟩ := withWidths_cases m.lowered
  · exact .inl ⟨width, ⟨hs, hw⟩, he⟩
  · refine .inr ⟨fun width h => ?_, ?_, fun key hk => ?_⟩
    · rw [hw] at h
      cases h.2
    · have hl : m.normalized = m.lowered.insert tabWidth size := he
      rw [hl, normalized_insert_size m hs ht]
    · have hn : tabWidth ≠ key := by
        rintro rfl
        exact absurd hk (by decide)
      rw [normalized, he, OrderedMap.get?_insert, if_neg hn]
  · have hl : m.normalized = m.lowered := he
    refine .inr ⟨hn, ?_, fun key _ => by rw [hl]⟩
    rw [hl, normalized, lowered_lowered, he]

theorem lower_of_get?_lowered {key value : Text} (hk : key ∈ lowerCaseKeys)
    (h : m.lowered.get? key = some value) : Text.lower value = value := by
  rw [get?_lowered] at h
  obtain ⟨written, -, rfl⟩ := Option.map_eq_some_iff.1 h
  rw [loweredValue_of_mem hk, Text.lower_lower]

/-- Properties that are given out twice are those given out once, and their values are in lower
case, unless the size of an indentation is a width of tabs that is not. -/
theorem normalized_normalized_iff :
    (m.normalized.normalized = m.normalized ↔
      ∀ width, m.CopiesWidth width → Text.lower width = width ∨ Text.lower width = "tab".toList) ∧
    ((∀ key ∈ lowerCaseKeys, ∀ value, m.normalized.get? key = some value →
        Text.lower value = value) ↔
      ∀ width, m.CopiesWidth width → Text.lower width = width) := by
  obtain ⟨width, hc, he⟩ | ⟨hn, he, hk⟩ := normalized_cases m
  · have hu : ∀ {P : Text → Prop}, (∀ width, m.CopiesWidth width → P width) ↔ P width :=
      ⟨fun h => h width hc, fun h _ hc' => hc.unique m hc' ▸ h⟩
    have hg : ∀ key, m.normalized.get? key =
        if indentSize = key then some width else m.lowered.get? key :=
      fun key => by rw [he, OrderedMap.get?_insert]
    rw [hu, hu]
    constructor
    · rw [he, normalized_insert_width m hc]
      constructor
      · intro h
        have hi := insert_injective h
        split at hi
        next ht => exact .inr ht
        next => exact .inl hi
      · intro h
        split
        next => rfl
        next ht => rw [h.resolve_right ht]
    · constructor
      · intro h
        exact h indentSize (by decide) width (by rw [hg, if_pos rfl])
      · intro h key hk value hv
        rw [hg] at hv
        split at hv
        · cases hv
          exact h
        · exact lower_of_get?_lowered m hk hv
  · have hv : ∀ {P : Text → Prop}, ∀ width, m.CopiesWidth width → P width :=
      fun width hc => absurd hc (hn width)
    refine ⟨iff_of_true he hv, iff_of_true (fun key hm value hg => ?_) hv⟩
    rw [hk key hm] at hg
    exact lower_of_get?_lowered m hm hg

theorem normalized_not_stable : ¬ ∀ m : Properties, m.normalized.normalized = m.normalized := by
  intro h
  have hx := congrArg OrderedMap.entries
    (h (.ofList [("indent_size".toList, "tab".toList), ("tab_width".toList, "X".toList)]))
  exact absurd hx (by decide +kernel)

end Properties
end EditorConfig
