/-! Maps that remember the order in which their keys were first assigned. A key keeps its place
when it is assigned again. -/
namespace EditorConfig

namespace Entries
variable {κ β : Type} [DecidableEq κ]

def set (key : κ) (value : β) : List (κ × β) → List (κ × β)
  | [] => [(key, value)]
  | entry :: rest =>
    if entry.1 = key then (key, value) :: rest else entry :: set key value rest

def get? (key : κ) : List (κ × β) → Option β
  | [] => none
  | entry :: rest => if entry.1 = key then some entry.2 else get? key rest

theorem keys_set (key : κ) (value : β) (entries : List (κ × β)) :
    (set key value entries).map Prod.fst =
      if key ∈ entries.map Prod.fst then entries.map Prod.fst
      else entries.map Prod.fst ++ [key] := by
  induction entries with
  | nil => simp [set]
  | cons entry rest ih =>
    rw [set]
    by_cases h : entry.1 = key
    · simp [h]
    · have h' : ¬ key = entry.1 := fun e => h e.symm
      simp only [h, if_false, List.map_cons, ih, List.mem_cons, h', false_or]
      split <;> simp

theorem nodup_set (key : κ) (value : β) {entries : List (κ × β)}
    (h : (entries.map Prod.fst).Nodup) : ((set key value entries).map Prod.fst).Nodup := by
  rw [keys_set]
  split
  · exact h
  next hk =>
    refine List.nodup_append.2 ⟨h, by simp, fun a ha b hb e => hk ?_⟩
    rw [List.mem_singleton] at hb
    exact hb ▸ e ▸ ha

theorem get?_set (key other : κ) (value : β) (entries : List (κ × β)) :
    get? other (set key value entries) =
      if key = other then some value else get? other entries := by
  induction entries with
  | nil => simp [set, get?]
  | cons entry rest ih =>
    rw [set]
    by_cases hk : entry.1 = key
    · by_cases h : key = other <;> simp [get?, hk, h]
    · by_cases h : key = other
      · subst h
        simp [get?, hk, ih]
      · simp [get?, hk, h, ih]

end Entries

structure OrderedMap (κ β : Type) where
  entries : List (κ × β)
  nodup : (entries.map Prod.fst).Nodup

namespace OrderedMap
variable {κ β : Type} [DecidableEq κ]

def empty : OrderedMap κ β := ⟨[], by simp⟩

def insert (m : OrderedMap κ β) (key : κ) (value : β) : OrderedMap κ β :=
  ⟨Entries.set key value m.entries, Entries.nodup_set key value m.nodup⟩

def insertAll (m : OrderedMap κ β) (pairs : List (κ × β)) : OrderedMap κ β :=
  pairs.foldl (fun m p => m.insert p.1 p.2) m

def ofList (pairs : List (κ × β)) : OrderedMap κ β := empty.insertAll pairs

def erase (m : OrderedMap κ β) (key : κ) : OrderedMap κ β :=
  ⟨m.entries.filter (·.1 ≠ key), (List.filter_sublist.map Prod.fst).nodup m.nodup⟩

def get? (m : OrderedMap κ β) (key : κ) : Option β := Entries.get? key m.entries

@[simp] theorem get?_empty (key : κ) : (empty : OrderedMap κ β).get? key = none := rfl

theorem get?_insert (m : OrderedMap κ β) (key other : κ) (value : β) :
    (m.insert key value).get? other = if key = other then some value else m.get? other :=
  Entries.get?_set key other value m.entries

@[simp] theorem insertAll_nil (m : OrderedMap κ β) : m.insertAll [] = m := rfl

@[simp] theorem insertAll_cons (m : OrderedMap κ β) (p : κ × β) (pairs : List (κ × β)) :
    m.insertAll (p :: pairs) = (m.insert p.1 p.2).insertAll pairs := rfl

theorem insertAll_append (m : OrderedMap κ β) (u v : List (κ × β)) :
    m.insertAll (u ++ v) = (m.insertAll u).insertAll v := by
  simp [insertAll, List.foldl_append]

omit [DecidableEq κ] in
@[ext] theorem ext {m n : OrderedMap κ β} (h : m.entries = n.entries) : m = n := by
  cases m; cases n; cases h; rfl

end OrderedMap
end EditorConfig
