import EditorConfig.Properties
import Mathlib.Data.List.Induction

/-! Laws of assignments to ordered maps. Main statement: maps built from lists of assignments and
then merged are the map of all the assignments in turn. -/
namespace EditorConfig

namespace Entries
variable {κ β : Type} [DecidableEq κ]

theorem set_set (key : κ) (value value' : β) (entries : List (κ × β)) :
    set key value' (set key value entries) = set key value' entries := by
  induction entries with
  | nil => simp [set]
  | cons entry rest ih =>
    by_cases h : entry.1 = key
    · simp [set, h]
    · simp [set, h, ih]

/-- A key that is there keeps its place, so what is assigned to other keys may come later. -/
theorem set_comm_of_mem {key other : κ} (hne : other ≠ key) (value value' : β)
    {entries : List (κ × β)} (hk : key ∈ entries.map Prod.fst) :
    set key value (set other value' entries) = set other value' (set key value entries) := by
  induction entries with
  | nil => simp at hk
  | cons entry rest ih =>
    by_cases he : entry.1 = key
    · simp [set, he, hne.symm]
    · have hr : key ∈ rest.map Prod.fst := by
        simpa [Ne.symm he] using hk
      by_cases ho : entry.1 = other
      · simp [set, ho, hne]
      · simp [set, he, ho, ih hr]

theorem set_of_notMem {key : κ} {value : β} {entries : List (κ × β)}
    (h : key ∉ entries.map Prod.fst) : set key value entries = entries ++ [(key, value)] := by
  induction entries with
  | nil => rfl
  | cons entry rest ih =>
    rw [List.map_cons, List.mem_cons, not_or] at h
    rw [set, if_neg fun he => h.1 he.symm, ih h.2]
    rfl

theorem mem_of_get? {key : κ} {value : β} {entries : List (κ × β)}
    (h : get? key entries = some value) : (key, value) ∈ entries := by
  induction entries with
  | nil => cases h
  | cons entry rest ih =>
    rw [get?] at h
    split at h
    · next hk =>
      cases h
      rw [← hk]
      exact List.mem_cons_self
    · exact List.mem_cons_of_mem entry (ih h)

theorem get?_eq_none_iff {key : κ} {entries : List (κ × β)} :
    get? key entries = none ↔ key ∉ entries.map Prod.fst := by
  induction entries with
  | nil => simp [get?]
  | cons entry rest ih =>
    rw [get?, List.map_cons, List.mem_cons, not_or]
    by_cases h : entry.1 = key
    · simp [h]
    · rw [if_neg h, ih]
      exact ⟨fun hr => ⟨Ne.symm h, hr⟩, And.right⟩

/-- Where no key occurs twice every entry can be found. -/
theorem get?_eq_some_iff {key : κ} {value : β} {entries : List (κ × β)}
    (hn : (entries.map Prod.fst).Nodup) :
    get? key entries = some value ↔ (key, value) ∈ entries := by
  refine ⟨mem_of_get?, fun h => ?_⟩
  induction entries with
  | nil => cases h
  | cons entry rest ih =>
    rw [List.map_cons, List.nodup_cons] at hn
    rw [get?]
    cases List.mem_cons.1 h with
    | inl he => rw [← he, if_pos rfl]
    | inr hr =>
      have hk : entry.1 ≠ key := fun he => hn.1 (he ▸ List.mem_map_of_mem hr)
      rw [if_neg hk, ih hn.2 hr]

end Entries

namespace OrderedMap
variable {κ β : Type} [DecidableEq κ]

theorem get?_eq_some_iff {m : OrderedMap κ β} {key : κ} {value : β} :
    m.get? key = some value ↔ (key, value) ∈ m.entries :=
  Entries.get?_eq_some_iff m.nodup

theorem insert_insert (m : OrderedMap κ β) (key : κ) (value value' : β) :
    (m.insert key value).insert key value' = m.insert key value' :=
  ext (Entries.set_set key value value' m.entries)

theorem mem_keys_insert (m : OrderedMap κ β) (key other : κ) (value : β) :
    other ∈ (m.insert key value).entries.map Prod.fst ↔
      other = key ∨ other ∈ m.entries.map Prod.fst := by
  simp only [insert, Entries.keys_set]
  split
  · next h => exact ⟨.inr, fun | .inl e => e ▸ h | .inr ho => ho⟩
  · rw [List.mem_append, List.mem_singleton, or_comm]

/-- What is assigned later to a key that is already there may as well be assigned first. -/
theorem insertAll_insert {m : OrderedMap κ β} {key : κ} {value : β} {pairs : List (κ × β)}
    (hm : key ∈ m.entries.map Prod.fst) (hp : key ∉ pairs.map Prod.fst) :
    (m.insertAll pairs).insert key value = (m.insert key value).insertAll pairs := by
  induction pairs generalizing m with
  | nil => rfl
  | cons pair pairs ih =>
    simp only [List.map_cons, List.mem_cons, not_or] at hp
    have hm' : key ∈ (m.insert pair.1 pair.2).entries.map Prod.fst :=
      (mem_keys_insert m pair.1 key pair.2).2 (.inr hm)
    have hc : (m.insert pair.1 pair.2).insert key value =
        (m.insert key value).insert pair.1 pair.2 :=
      ext (Entries.set_comm_of_mem (Ne.symm hp.1) value pair.2 hm)
    rw [insertAll_cons, insertAll_cons, ih hm' hp.2, hc]

theorem insertAll_set (m : OrderedMap κ β) (key : κ) (value : β) {entries : List (κ × β)}
    (hn : (entries.map Prod.fst).Nodup) :
    m.insertAll (Entries.set key value entries) = (m.insertAll entries).insert key value := by
  induction entries generalizing m with
  | nil => rfl
  | cons entry rest ih =>
    rw [List.map_cons, List.nodup_cons] at hn
    rw [Entries.set]
    split
    · next he =>
      subst he
      have hk : entry.1 ∈ (m.insert entry.1 entry.2).entries.map Prod.fst :=
        (mem_keys_insert m entry.1 entry.1 entry.2).2 (.inl rfl)
      rw [insertAll_cons, insertAll_cons, insertAll_insert hk hn.1, insert_insert]
    · rw [insertAll_cons, insertAll_cons, ih _ hn.2]

theorem insertAll_entries_insertAll (m n : OrderedMap κ β) (pairs : List (κ × β)) :
    m.insertAll (n.insertAll pairs).entries = (m.insertAll n.entries).insertAll pairs := by
  induction pairs generalizing n with
  | nil => rfl
  | cons pair pairs ih =>
    rw [insertAll_cons, ih, insertAll_cons, insert, insertAll_set m _ _ n.nodup]

/-- Assigning the entries of a map is assigning everything that the map was built from. -/
theorem insertAll_entries_ofList (m : OrderedMap κ β) (pairs : List (κ × β)) :
    m.insertAll (ofList pairs).entries = m.insertAll pairs :=
  insertAll_entries_insertAll m empty pairs

theorem entries_insertAll {m : OrderedMap κ β} {pairs : List (κ × β)}
    (hn : ((m.entries ++ pairs).map Prod.fst).Nodup) :
    (m.insertAll pairs).entries = m.entries ++ pairs := by
  induction pairs generalizing m with
  | nil => simp
  | cons pair pairs ih =>
    have hs : (m.insert pair.1 pair.2).entries = m.entries ++ [pair] := by
      refine Entries.set_of_notMem fun hm => ?_
      rw [List.map_append, List.nodup_append] at hn
      exact hn.2.2 _ hm _ List.mem_cons_self rfl
    have ha : m.entries ++ [pair] ++ pairs = m.entries ++ pair :: pairs := by simp
    rw [insertAll_cons, ih (by rwa [hs, ha]), hs, ha]

theorem ofList_entries (m : OrderedMap κ β) : ofList m.entries = m := by
  refine ext (entries_insertAll (m := empty) ?_)
  simpa [empty] using m.nodup

theorem mem_keys_insertAll (m : OrderedMap κ β) (other : κ) (pairs : List (κ × β)) :
    other ∈ (m.insertAll pairs).entries.map Prod.fst ↔
      other ∈ m.entries.map Prod.fst ∨ other ∈ pairs.map Prod.fst := by
  induction pairs generalizing m with
  | nil => simp
  | cons pair pairs ih =>
    rw [insertAll_cons, ih, mem_keys_insert, List.map_cons, List.mem_cons, or_assoc]
    exact or_left_comm

theorem get?_ofList_eq_none_iff {key : κ} {pairs : List (κ × β)} :
    (ofList pairs).get? key = none ↔ key ∉ pairs.map Prod.fst := by
  rw [get?, Entries.get?_eq_none_iff, ofList, mem_keys_insertAll]
  simp [empty]

/-- Leaving out all assignments to some keys changes nothing for the others, and a change of every
value changes what each of them has. -/
theorem get?_insertAll_filter {drop : κ → Bool} {f : β → β} {m n : OrderedMap κ β}
    (h : ∀ key, n.get? key = if drop key then none else (m.get? key).map f)
    (pairs : List (κ × β)) (key : κ) :
    (n.insertAll ((pairs.filter fun p => !drop p.1).map fun p => (p.1, f p.2))).get? key =
      if drop key then none else ((m.insertAll pairs).get? key).map f := by
  induction pairs generalizing m n with
  | nil => exact h key
  | cons pair pairs ih =>
    rw [List.filter_cons]
    cases hd : drop pair.1 with
    | true =>
      refine ih fun other => ?_
      rw [h, get?_insert]
      by_cases ho : pair.1 = other
      · subst ho
        rw [hd, if_pos rfl, if_pos rfl]
      · rw [if_neg ho]
    | false =>
      refine ih fun other => ?_
      rw [get?_insert, get?_insert, h]
      by_cases ho : pair.1 = other
      · subst ho
        rw [hd]
        simp
      · rw [if_neg ho, if_neg ho]

/-- Other keys that are as far apart as the first ones, with a change of every value. -/
theorem get?_insertAll_map {μ γ : Type} [DecidableEq μ] {f : κ → μ} (hf : Function.Injective f)
    {g : β → γ} {m : OrderedMap κ β} {n : OrderedMap μ γ}
    (h : ∀ key, n.get? (f key) = (m.get? key).map g) (pairs : List (κ × β)) (key : κ) :
    (n.insertAll (pairs.map fun p => (f p.1, g p.2))).get? (f key) =
      ((m.insertAll pairs).get? key).map g := by
  induction pairs generalizing m n with
  | nil => exact h key
  | cons pair pairs ih =>
    refine ih fun other => ?_
    rw [get?_insert, get?_insert, h]
    by_cases ho : pair.1 = other
    · rw [if_pos ho, if_pos (congrArg f ho), Option.map_some]
    · rw [if_neg ho, if_neg fun he => ho (hf he)]

theorem ofList_append (u v : List (κ × β)) : ofList (u ++ v) = (ofList u).insertAll v :=
  insertAll_append empty u v

theorem ofList_concat (pairs : List (κ × β)) (pair : κ × β) :
    ofList (pairs ++ [pair]) = (ofList pairs).insert pair.1 pair.2 :=
  ofList_append pairs [pair]

/-- A key has the value of its last assignment. -/
theorem get?_ofList (pairs : List (κ × β)) (key : κ) :
    (ofList pairs).get? key = ((pairs.filter (·.1 = key)).map Prod.snd).getLast? := by
  induction pairs using List.reverseRecOn with
  | nil => rfl
  | append_singleton pairs pair ih =>
    rw [ofList_concat, get?_insert, ih, List.filter_append, List.map_append]
    by_cases h : pair.1 = key <;> simp [h]

/-- What is assigned later is found first. -/
theorem get?_insertAll (m : OrderedMap κ β) (pairs : List (κ × β)) (key : κ) :
    (m.insertAll pairs).get? key = ((ofList pairs).get? key).or (m.get? key) := by
  induction pairs using List.reverseRecOn with
  | nil => rfl
  | append_singleton pairs pair ih =>
    rw [insertAll_append, insertAll_cons, insertAll_nil, ofList_concat, get?_insert, get?_insert,
      ih]
    by_cases h : pair.1 = key
    · rw [if_pos h, if_pos h, Option.some_or]
    · rw [if_neg h, if_neg h]

/-- The keys stand in the order of their first assignments. -/
theorem keys_ofList [BEq κ] [LawfulBEq κ] (pairs : List (κ × β)) :
    (ofList pairs).entries.map Prod.fst = (pairs.map Prod.fst).eraseDups := by
  induction pairs using List.reverseRecOn with
  | nil => rfl
  | append_singleton pairs pair ih =>
    have hs : [pair.1].eraseDups = [pair.1] := rfl
    rw [ofList_concat, insert, Entries.keys_set, ih, List.map_append, List.eraseDups_append]
    by_cases h : pair.1 ∈ pairs.map Prod.fst
    · rw [if_pos (List.mem_eraseDups.2 h)]
      simp [List.removeAll, h]
    · rw [if_neg fun he => h (List.mem_eraseDups.1 he)]
      simp [List.removeAll, h, hs]

/-- What is found in a map has been assigned. -/
theorem mem_of_mem_ofList {pairs : List (κ × β)} {entry : κ × β}
    (h : entry ∈ (ofList pairs).entries) : entry ∈ pairs := by
  have hg : (ofList pairs).get? entry.1 = some entry.2 := get?_eq_some_iff.2 h
  rw [get?_ofList] at hg
  obtain ⟨pair, hp, hs⟩ := List.mem_map.1 (List.mem_of_getLast? hg)
  obtain ⟨hm, hk⟩ := List.mem_filter.1 hp
  have he : pair = entry := Prod.ext (of_decide_eq_true hk) hs
  exact he ▸ hm

end OrderedMap

namespace Properties

/-- The farther assignments come first, and the nearer ones after them. -/
theorem ofList_overriddenBy (farther nearer : List (Text × Text)) :
    overriddenBy (.ofList farther) (.ofList nearer) = .ofList (farther ++ nearer) := by
  rw [overriddenBy, OrderedMap.insertAll_entries_ofList, OrderedMap.ofList_append]

/-- The value of the nearer map is the one that is found. -/
theorem get?_overriddenBy (farther nearer : Properties) (key : Text) :
    (farther.overriddenBy nearer).get? key = (nearer.get? key).or (farther.get? key) := by
  rw [overriddenBy, OrderedMap.get?_insertAll, OrderedMap.ofList_entries]

end Properties
end EditorConfig
