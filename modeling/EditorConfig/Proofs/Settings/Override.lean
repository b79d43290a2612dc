import EditorConfig.Proofs.OrderedMap
import EditorConfig.Settings.Value

/-! Settings that override others. Main statement: at every path of keys the result holds what the
new settings hold there, or else what the old ones held, tables are joined, and to override by the
same settings again changes nothing. -/
namespace EditorConfig

namespace Entries
variable {κ β : Type} [DecidableEq κ]

theorem set_of_get? {key : κ} {value : β} {entries : List (κ × β)}
    (h : get? key entries = some value) : set key value entries = entries := by
  induction entries with
  | nil => cases h
  | cons entry rest ih =>
    rw [get?] at h
    rw [set]
    split
    next hk =>
      rw [if_pos hk] at h
      cases h
      rw [← hk]
    next hk =>
      rw [if_neg hk] at h
      rw [ih h]

end Entries

namespace Value
variable {old new : Table} {key : Text}

inductive DistinctKeys : Value → Prop
  | null : DistinctKeys .null
  | boolean (b : Bool) : DistinctKeys (.boolean b)
  | integer (n : Int) : DistinctKeys (.integer n)
  | text (t : Text) : DistinctKeys (.text t)
  | other (written : Text) : DistinctKeys (.other written)
  | list {items : List Value} (h : ∀ v ∈ items, DistinctKeys v) : DistinctKeys (.list items)
  | table {entries : Table} (hn : (entries.map Prod.fst).Nodup)
      (h : ∀ e ∈ entries, DistinctKeys e.2) : DistinctKeys (.table entries)

theorem DistinctKeys.nodup (h : DistinctKeys (.table new)) : (new.map Prod.fst).Nodup := by
  cases h with
  | table hn _ => exact hn

theorem DistinctKeys.of_get? (h : DistinctKeys (.table new)) {v : Value}
    (hv : Entries.get? key new = some v) : DistinctKeys v := by
  cases h with
  | table _ h => exact h (key, v) (Entries.mem_of_get? hv)

def placed (old : Option Value) (new : Value) : Value := (old.map (overriddenBy · new)).getD new

theorem overrideEntry_eq (old : Table) (key : Text) (new : Value) :
    overrideEntry old (key, new) = Entries.set key (placed (Entries.get? key old) new) old := by
  rw [overrideEntry]
  cases Entries.get? key old <;> rfl

theorem overriddenBy_table (old new : Table) :
    overriddenBy (.table old) (.table new) = .table (overrideAll old new) := by
  rw [overriddenBy]

def isTable : Value → Bool
  | .table _ => true
  | _ => false

theorem exists_of_isTable {v : Value} (h : v.isTable = true) : ∃ entries, v = .table entries := by
  cases v with
  | table entries => exact ⟨entries, rfl⟩
  | _ => cases h

theorem overriddenBy_of_not_tables {v w : Value} (h : (v.isTable && w.isTable) = false) :
    v.overriddenBy w = w := by
  cases w with
  | table =>
    cases v with
    | table => cases h
    | _ =>
      rw [overriddenBy]
      intro _ he
      cases he
  | _ => rw [overriddenBy]

/-- Each key has its own new value put in place, whatever the others have. -/
theorem get?_overrideAll (hn : (new.map Prod.fst).Nodup) :
    Entries.get? key (overrideAll old new) =
      ((Entries.get? key new).map (placed (Entries.get? key old))).or (Entries.get? key old) := by
  induction new generalizing old with
  | nil =>
    rw [overrideAll]
    rfl
  | cons entry rest ih =>
    obtain ⟨k, v⟩ := entry
    rw [List.map_cons, List.nodup_cons] at hn
    rw [overrideAll, ih hn.2, overrideEntry_eq, Entries.get?_set, Entries.get?]
    by_cases hk : k = key
    · subst hk
      rw [if_pos rfl, if_pos rfl, Entries.get?_eq_none_iff.2 hn.1]
      rfl
    · rw [if_neg hk, if_neg hk]

theorem keys_overrideAll (hn : (new.map Prod.fst).Nodup) :
    (overrideAll old new).map Prod.fst =
      old.map Prod.fst ++ (new.map Prod.fst).filter (· ∉ old.map Prod.fst) := by
  induction new generalizing old with
  | nil =>
    rw [overrideAll, List.map_nil, List.filter_nil, List.append_nil]
  | cons entry rest ih =>
    obtain ⟨k, v⟩ := entry
    rw [List.map_cons, List.nodup_cons] at hn
    rw [overrideAll, ih hn.2, overrideEntry_eq, Entries.keys_set, List.map_cons, List.filter_cons]
    by_cases hk : k ∈ old.map Prod.fst
    · rw [if_pos hk, if_neg (by simpa using hk)]
    · -- the key is none of the rest, so it matters to none of them that it is there now
      have hr : ∀ other ∈ rest.map Prod.fst,
          decide (other ∉ old.map Prod.fst ++ [k]) = decide (other ∉ old.map Prod.fst) := by
        intro other ho
        have hne : other ≠ k := fun he => hn.1 (he ▸ ho)
        simp only [List.mem_append, List.mem_singleton, hne, or_false]
      rw [if_neg hk, if_pos (by simpa using hk), List.filter_congr hr, List.append_assoc]
      rfl

def at? : List Text → Value → Option Value
  | [], v => some v
  | key :: path, .table entries => (Entries.get? key entries).bind (at? path)
  | _ :: _, _ => none

def TablesAbove (v : Value) (path : List Text) : Prop :=
  ∀ p, p <+: path → p ≠ path → (at? p v).any isTable = true

theorem TablesAbove.exists_table {v : Value} {path : List Text} (h : v.TablesAbove (key :: path)) :
    ∃ entries, v = .table entries :=
  exists_of_isTable (h [] List.nil_prefix (List.cons_ne_nil key path).symm)

theorem TablesAbove.of_get? {path : List Text} {v : Value}
    (h : TablesAbove (.table new) (key :: path)) (hv : Entries.get? key new = some v) :
    v.TablesAbove path := by
  intro p hp hne
  have ht := h (key :: p) ((List.prefix_cons_inj key).2 hp) fun he => hne (List.cons.inj he).2
  rwa [at?, hv, Option.bind_some] at ht

/-- What `result` holds at the end of every path, where `new` was put in place over `old`. -/
structure IsOverride (old new result : Value) : Prop where
  /-- Where nothing is set there is what was there before. -/
  kept : ∀ path, old.TablesAbove path → new.TablesAbove path → at? path new = none →
    at? path result = at? path old
  replaced : ∀ path, old.TablesAbove path → new.TablesAbove path → ∀ v, at? path new = some v →
    ((at? path old).any isTable && v.isTable) = false → at? path result = some v
  joined : ∀ path, old.TablesAbove path → new.TablesAbove path → ∀ o n,
    at? path old = some (.table o) → at? path new = some (.table n) →
      ∃ merged, at? path result = some (.table merged) ∧
        merged.map Prod.fst = o.map Prod.fst ++ (n.map Prod.fst).filter (· ∉ o.map Prod.fst)
  /-- Nothing else changes: a value stays if nothing is set in its place, and at no place above
  anything but a table over a table. -/
  untouched : ∀ path, at? path new = none →
    (∀ p, p <+: path → ∀ v, at? p new = some v → ((at? p old).any isTable && v.isTable) = true) →
      at? path result = at? path old

theorem at?_overrideAll_of_none {path : List Text} (hn : (new.map Prod.fst).Nodup)
    (hk : Entries.get? key new = none) :
    at? (key :: path) (.table (overrideAll old new)) = at? (key :: path) (.table old) := by
  rw [at?, at?, get?_overrideAll hn, hk]
  rfl

theorem at?_overrideAll_of_some {path : List Text} {v : Value} (hn : (new.map Prod.fst).Nodup)
    (hk : Entries.get? key new = some v) :
    at? (key :: path) (.table (overrideAll old new)) =
      at? path (placed (Entries.get? key old) v) := by
  rw [at?, get?_overrideAll hn, hk]
  rfl

theorem at?_overriddenBy_of_replaced {path : List Text} {v old new : Value}
    (hd : new.DistinctKeys) (ho : old.TablesAbove path) (hn : new.TablesAbove path)
    (hv : at? path new = some v) (ht : ((at? path old).any isTable && v.isTable) = false) :
    at? path (old.overriddenBy new) = some v := by
  induction path generalizing old new with
  | nil =>
    cases hv
    exact congrArg some (overriddenBy_of_not_tables ht)
  | cons key path ih =>
    obtain ⟨o, rfl⟩ := ho.exists_table
    obtain ⟨n, rfl⟩ := hn.exists_table
    rw [at?] at hv ht
    obtain ⟨w, hw, hv⟩ := Option.bind_eq_some_iff.1 hv
    rw [overriddenBy_table, at?_overrideAll_of_some hd.nodup hw]
    cases hg : Entries.get? key o with
    | none => exact hv
    | some u =>
      rw [hg] at ht
      exact ih (hd.of_get? hw) (ho.of_get? hg) (hn.of_get? hw) hv ht

theorem at?_overriddenBy_of_joined {path : List Text} {o n : Table} {old new : Value}
    (hd : new.DistinctKeys) (ho : at? path old = some (.table o))
    (hn : at? path new = some (.table n)) :
    (n.map Prod.fst).Nodup ∧ at? path (old.overriddenBy new) = some (.table (overrideAll o n)) := by
  induction path generalizing old new with
  | nil =>
    cases ho
    cases hn
    exact ⟨hd.nodup, congrArg some (overriddenBy_table o n)⟩
  | cons key path ih =>
    cases old with
    | table old =>
      cases new with
      | table new =>
        rw [at?] at ho hn
        obtain ⟨u, hu, ho⟩ := Option.bind_eq_some_iff.1 ho
        obtain ⟨w, hw, hn⟩ := Option.bind_eq_some_iff.1 hn
        rw [overriddenBy_table, at?_overrideAll_of_some hd.nodup hw, hu]
        exact ih (hd.of_get? hw) ho hn
      | _ => cases hn
    | _ => cases ho

theorem at?_overriddenBy_of_untouched {path : List Text} {old new : Value} (hd : new.DistinctKeys)
    (hv : at? path new = none)
    (ht : ∀ p, p <+: path → ∀ v, at? p new = some v →
      ((at? p old).any isTable && v.isTable) = true) :
    at? path (old.overriddenBy new) = at? path old := by
  induction path generalizing old new with
  | nil => cases hv
  | cons key path ih =>
    have hr := ht [] List.nil_prefix new rfl
    rw [Bool.and_eq_true] at hr
    obtain ⟨o, rfl⟩ := exists_of_isTable hr.1
    obtain ⟨n, rfl⟩ := exists_of_isTable hr.2
    rw [overriddenBy_table]
    cases hw : Entries.get? key n with
    | none => exact at?_overrideAll_of_none hd.nodup hw
    | some w =>
      rw [at?, hw, Option.bind_some] at hv
      have hk : ∀ p, at? (key :: p) (.table n) = at? p w := fun p => by
        rw [at?, hw, Option.bind_some]
      cases hu : Entries.get? key o with
      | none =>
        have h := ht [key] (List.prefix_append [key] path) w (hk [])
        rw [at?, hu] at h
        cases h
      | some u =>
        rw [at?_overrideAll_of_some hd.nodup hw, at?, hu, Option.bind_some]
        refine ih (hd.of_get? hw) hv fun p hp v hv' => ?_
        have h := ht (key :: p) ((List.prefix_cons_inj key).2 hp) v ((hk p).trans hv')
        rwa [at?, hu] at h

theorem isOverride_overriddenBy {old new : Value} (hd : new.DistinctKeys) :
    IsOverride old new (old.overriddenBy new) where
  kept path ho hn hv := by
    refine at?_overriddenBy_of_untouched hd hv fun p hp v hp' => ?_
    have hne : p ≠ path := by
      rintro rfl
      rw [hv] at hp'
      cases hp'
    have ht := hn p hp hne
    rw [hp'] at ht
    rw [ho p hp hne]
    exact ht
  replaced path ho hn v hv ht := at?_overriddenBy_of_replaced hd ho hn hv ht
  joined path _ _ o n ho hn := by
    obtain ⟨hnodup, hr⟩ := at?_overriddenBy_of_joined hd ho hn
    exact ⟨overrideAll o n, hr, keys_overrideAll hnodup⟩
  untouched path hv ht := at?_overriddenBy_of_untouched hd hv ht

/-- Entries that are in place already change nothing. -/
theorem overrideAll_eq_self (h : ∀ e ∈ new, ∃ v, Entries.get? e.1 old = some v ∧
    v.overriddenBy e.2 = v) : overrideAll old new = old := by
  induction new with
  | nil => rw [overrideAll]
  | cons entry rest ih =>
    obtain ⟨k, w⟩ := entry
    rw [List.forall_mem_cons] at h
    obtain ⟨⟨v, hv, hw⟩, hr⟩ := h
    have hp : placed (some v) w = v := hw
    rw [overrideAll, overrideEntry_eq, hv, hp, Entries.set_of_get? hv, ih hr]

theorem overriddenBy_self {v : Value} (h : v.DistinctKeys) : v.overriddenBy v = v := by
  induction h with
  | null | boolean | integer | text | other | list => exact overriddenBy_of_not_tables rfl
  | table hn _ ih =>
    rw [overriddenBy_table]
    refine congrArg table (overrideAll_eq_self fun e he => ⟨e.2, ?_, ih e he⟩)
    exact (Entries.get?_eq_some_iff hn).2 he

theorem overriddenBy_overriddenBy {new : Value} (h : new.DistinctKeys) (old : Value) :
    (old.overriddenBy new).overriddenBy new = old.overriddenBy new := by
  induction h generalizing old with
  | null | boolean | integer | text | other | list =>
    rw [overriddenBy_of_not_tables (v := old) (Bool.and_false _)]
    exact overriddenBy_of_not_tables rfl
  | @table entries hn hd ih =>
    cases ht : old.isTable with
    | false =>
      have hr : old.overriddenBy (.table entries) = .table entries :=
        overriddenBy_of_not_tables (by rw [ht, Bool.false_and])
      rw [hr]
      exact overriddenBy_self (.table hn hd)
    | true =>
      obtain ⟨o, rfl⟩ := exists_of_isTable ht
      rw [overriddenBy_table, overriddenBy_table]
      refine congrArg table (overrideAll_eq_self fun e he => ?_)
      have hg : Entries.get? e.1 entries = some e.2 := (Entries.get?_eq_some_iff hn).2 he
      refine ⟨placed (Entries.get? e.1 o) e.2, by rw [get?_overrideAll hn, hg]; rfl, ?_⟩
      cases Entries.get? e.1 o with
      | none => exact overriddenBy_self (hd e he)
      | some u => exact ih e he u

/-- Settings that are put over others hold at every path what they should, and a second time they
change nothing. -/
theorem overrideAll_exact (old : Table) (hd : DistinctKeys (.table new)) :
    IsOverride (.table old) (.table new) (.table (overrideAll old new)) ∧
      overrideAll (overrideAll old new) new = overrideAll old new := by
  have ho : IsOverride (.table old) (.table new) _ := isOverride_overriddenBy hd
  have hi := overriddenBy_overriddenBy hd (.table old)
  rw [overriddenBy_table] at ho hi
  rw [overriddenBy_table] at hi
  exact ⟨ho, Value.table.inj hi⟩

def beneath : Table :=
  [("a".toList, .table [("x".toList, .integer 1), ("y".toList, .table [("z".toList, .null)]),
      ("w".toList, .boolean true)]),
    ("b".toList, .text "t".toList)]

def above : Table :=
  [("c".toList, .list [.integer 3]),
    ("a".toList, .table [("y".toList, .integer 2), ("x".toList, .table [("z".toList, .null)])])]

theorem overrideAll_exact_above :
    DistinctKeys (.table above) ∧
      IsOverride (.table beneath) (.table above) (.table (overrideAll beneath above)) ∧
      overrideAll (overrideAll beneath above) above = overrideAll beneath above ∧
      overrideAll beneath above =
        [("a".toList, .table [("x".toList, .table [("z".toList, .null)]),
            ("y".toList, .integer 2), ("w".toList, .boolean true)]),
          ("b".toList, .text "t".toList), ("c".toList, .list [.integer 3])] := by
  have hz : DistinctKeys (.table [("z".toList, .null)]) :=
    .table (by decide) (List.forall_mem_singleton.2 .null)
  have ha : DistinctKeys (.table
      [("y".toList, .integer 2), ("x".toList, .table [("z".toList, .null)])]) :=
    .table (by decide) (List.forall_mem_cons.2 ⟨.integer 2, List.forall_mem_singleton.2 hz⟩)
  have hc : DistinctKeys (.list [.integer 3]) := .list (List.forall_mem_singleton.2 (.integer 3))
  have hd : DistinctKeys (.table above) :=
    .table (by decide) (List.forall_mem_cons.2 ⟨hc, List.forall_mem_singleton.2 ha⟩)
  have h := overrideAll_exact beneath hd
  exact ⟨hd, h.1, h.2, rfl⟩

end Value
end EditorConfig
