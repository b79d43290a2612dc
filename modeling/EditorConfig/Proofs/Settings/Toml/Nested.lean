import EditorConfig.Proofs.Settings.Toml.Number
import EditorConfig.Settings.Toml.Nested
import Mathlib.Data.List.TakeDrop

/-! Values of a TOML document, and tables that are changed along a path of keys. Main statement: a
value that is read has no key twice in any table, and a reader that fails has a reason in its text.
-/
namespace EditorConfig

def Value.IsDistinct (table : Table) : Prop := DistinctKeys (.table table)

theorem Value.DistinctKeys.items {items : List Value} (h : DistinctKeys (.list items)) :
    ∀ v ∈ items, v.DistinctKeys := by
  cases h with
  | list h => exact h

namespace Value.IsDistinct
variable {table : Table}

theorem nil : IsDistinct [] := .table List.nodup_nil (List.forall_mem_nil _)

theorem set (ht : IsDistinct table) {v : Value} (hv : v.DistinctKeys) (k : Text) :
    IsDistinct (Entries.set k v table) := by
  have hn := Entries.nodup_set k v ht.nodup
  refine .table hn fun e he => ?_
  have hg := (Entries.get?_eq_some_iff hn).2 he
  rw [Entries.get?_set] at hg
  split at hg
  · cases hg
    exact hv
  · exact ht.of_get? hg

end Value.IsDistinct

namespace Toml
open Value

section Tables
variable {change : Table → Except ReadFailure Table} {table : Table} {limit depth : Nat}
  {text : Text}

/-- A change that keeps keys distinct keeps them so wherever it is made. -/
theorem yields_alterAt
    (hc : ∀ table, IsDistinct table → Yields limit depth text IsDistinct (change table))
    (enterLists : Bool) (path : List Text) (ht : IsDistinct table) :
    Yields limit depth text IsDistinct (alterAt enterLists change path table) := by
  induction path generalizing table with
  | nil => exact hc table ht
  | cons k path ih =>
    rw [alterAt]
    split
    next => exact (ih .nil).bind fun t h => ht.set h k
    next inner hg => exact (ih (ht.of_get? hg)).bind fun t h => ht.set h k
    next items hg =>
      have hi := (ht.of_get? hg).items
      split
      next inner hl =>
        have hm := hi _ (List.mem_of_getLast? hl)
        refine (ih hm).bind fun t h => ht.set (.list fun v hv => ?_) k
        rcases List.mem_append.1 hv with hv | hv
        · exact hi v ((List.dropLast_sublist items).subset hv)
        · rw [List.mem_singleton] at hv
          exact hv ▸ h
      next => trivial
    next => trivial

theorem yields_setNew {v : Value} (hv : v.DistinctKeys) (k : Text) (ht : IsDistinct table) :
    Yields limit depth text IsDistinct (setNew k v table) := by
  rw [setNew]
  split
  next => trivial
  next => exact ht.set hv k

end Tables

theorem yields_comment (limit depth : Nat) (text : Text) :
    Yields limit depth text (· <:+ text) (comment text) := by
  unfold comment
  split
  next body =>
    simp only [List.span_eq_takeWhile_dropWhile]
    split
    next => trivial
    next => exact (List.dropWhile_suffix _).trans (List.suffix_cons _ _)
  next => exact List.suffix_refl _

theorem yields_skipLines (limit depth fuel : Nat) (text : Text) :
    Yields limit depth text (· <:+ text) (skipLines fuel text) := by
  induction fuel generalizing text with
  | zero => exact List.suffix_refl _
  | succ fuel ih =>
    have hs := List.dropWhile_suffix (l := text) isLineSpace
    rw [skipLines]
    split
    next body hd =>
      rw [hd] at hs
      refine ((yields_comment limit depth _).of_suffix hs).bind fun rest hr => ?_
      have hr : rest <:+ text := List.IsSuffix.trans hr hs
      exact ((ih rest).of_suffix hr).mono fun last hl => List.IsSuffix.trans hl hr
    next => exact hs

section Values
variable {limit : Nat}

variable (limit) in
structure Sound (fuel : Nat) : Prop where
  value : ∀ depth text, Yields limit depth text (Leaves text DistinctKeys)
    (valueWith limit fuel depth text)
  items : ∀ depth text, Yields limit depth text
    (Leaves text fun items => ∀ v ∈ items, v.DistinctKeys) (itemsWith limit fuel depth text)
  inline : ∀ depth {table} (closed : List (List Text)) text, IsDistinct table →
    Yields limit depth text (Leaves text IsDistinct) (inlineWith limit fuel depth table closed text)

theorem sound_zero : Sound limit 0 where
  value _ _ := trivial
  items _ _ := trivial
  inline _ _ _ _ _ := trivial

variable {fuel : Nat}

theorem Sound.value_succ (h : Sound limit fuel) (depth : Nat) (text : Text) :
    Yields limit depth text (Leaves text DistinctKeys) (valueWith limit (fuel + 1) depth text) := by
  rw [valueWith.eq_def]
  simp only
  split
  next hd => exact Nat.lt_of_lt_of_le hd (Nat.le_add_right _ _)
  next =>
    split
    next rest =>
      refine Yields.bind (yields_ofOption fun _ he => longBasicText?_suffix he) fun _ hs => ?_
      exact ⟨.text _,
        (List.IsSuffix.trans hs (dropLineEnd_suffix rest)).trans ⟨['"', '"', '"'], rfl⟩⟩
    next rest =>
      refine Yields.bind (yields_ofOption fun _ he => longLiteralText?_suffix he) fun _ hs => ?_
      exact ⟨.text _,
        (List.IsSuffix.trans hs (dropLineEnd_suffix rest)).trans ⟨['\'', '\'', '\''], rfl⟩⟩
    next rest _ =>
      refine Yields.bind (yields_ofOption fun _ he => basicText?_suffix he) fun _ hs => ?_
      exact ⟨.text _, List.IsSuffix.trans hs (List.suffix_cons _ _)⟩
    next rest _ =>
      refine Yields.bind (yields_ofOption fun _ he => literalText?_suffix he) fun _ hs => ?_
      exact ⟨.text _, List.IsSuffix.trans hs (List.suffix_cons _ _)⟩
    next rest => exact ⟨.boolean _, ⟨['t', 'r', 'u', 'e'], rfl⟩⟩
    next rest => exact ⟨.boolean _, ⟨['f', 'a', 'l', 's', 'e'], rfl⟩⟩
    next rest =>
      -- An array; its items stand one deeper, which the bracket makes up for.
      have hs := List.suffix_cons '[' rest
      refine ((yields_skipLines limit depth _ rest).of_suffix hs).bind fun first hf => ?_
      refine (((h.items (depth + 1) first).of_suffix hf).enter rfl).bind fun _ hi => ?_
      exact ⟨.list hi.good, (hi.suffix.trans hf).trans hs⟩
    next rest =>
      -- An inline table, with or without entries.
      have hs := skipSpace_suffix rest
      split
      next last hl =>
        rw [hl] at hs
        exact ⟨IsDistinct.nil, ((List.suffix_cons _ _).trans hs).trans (List.suffix_cons _ _)⟩
      next =>
        have hi := h.inline (depth + 1) [] (skipSpace rest) .nil
        refine ((hi.of_suffix hs).enter rfl).bind fun _ ht => ?_
        exact ⟨ht.good, (ht.suffix.trans hs).trans (List.suffix_cons _ _)⟩
    next =>
      exact yields_plainValue text

theorem Sound.items_succ (h : Sound limit fuel) (depth : Nat) (text : Text) :
    Yields limit depth text (Leaves text fun items => ∀ v ∈ items, v.DistinctKeys)
      (itemsWith limit (fuel + 1) depth text) := by
  rw [itemsWith.eq_def]
  simp only
  split
  next => exact ⟨List.forall_mem_nil _, List.suffix_cons _ _⟩
  next =>
    refine (h.value depth text).bind fun item hi => ?_
    refine ((yields_skipLines limit depth _ item.2).of_suffix hi.suffix).bind fun behind hb => ?_
    have hs : behind <:+ text := List.IsSuffix.trans hb hi.suffix
    split
    next last => exact ⟨List.forall_mem_singleton.2 hi.good, (List.suffix_cons _ _).trans hs⟩
    next further =>
      have hf : further <:+ text := (List.suffix_cons _ _).trans hs
      refine ((yields_skipLines limit depth _ further).of_suffix hf).bind fun next hn => ?_
      have hn : next <:+ text := List.IsSuffix.trans hn hf
      refine ((h.items depth next).of_suffix hn).bind fun items hr => ?_
      exact ⟨List.forall_mem_cons.2 ⟨hi.good, hr.good⟩, hr.suffix.trans hn⟩
    next => trivial

theorem Sound.inline_succ (h : Sound limit fuel) (depth : Nat) {table : Table}
    (closed : List (List Text)) (text : Text) (ht : IsDistinct table) :
    Yields limit depth text (Leaves text IsDistinct)
      (inlineWith limit (fuel + 1) depth table closed text) := by
  rw [inlineWith]
  refine (yields_key depth text).bind fun name hk => ?_
  have hr := hk.suffix
  simp only
  split
  next rest he =>
    rw [he] at hr
    have hs := skipSpace_behind hr
    refine ((h.value depth (skipSpace rest)).of_suffix hs).bind fun read hv => ?_
    split
    next => trivial
    next =>
      refine Yields.bind (yields_alterAt (fun _ ht => yields_setNew hv.good _ ht) false _ ht)
        fun changed hd => ?_
      have hb : skipSpace read.2 <:+ text := ((skipSpace_suffix _).trans hv.suffix).trans hs
      split
      next last hl =>
        rw [hl] at hb
        exact ⟨hd, (List.suffix_cons _ _).trans hb⟩
      next further hl =>
        rw [hl] at hb
        exact (h.inline depth _ (skipSpace further) hd).widen (skipSpace_behind hb)
      next => trivial
  next => trivial

theorem sound (limit fuel : Nat) : Sound limit fuel := by
  induction fuel with
  | zero => exact sound_zero
  | succ fuel ih => exact ⟨ih.value_succ, ih.items_succ, ih.inline_succ⟩

theorem yields_value (text : Text) :
    Yields limit 0 text (Leaves text DistinctKeys) (value limit text) :=
  (sound limit _).value 0 text

theorem yields_pair (text : Text) :
    Yields limit 0 text (Leaves text fun entry => entry.2.DistinctKeys) (pair limit text) := by
  refine (yields_key 0 text).bind fun name hk => ?_
  have hr := hk.suffix
  simp only
  split
  next rest he =>
    rw [he] at hr
    have hs := skipSpace_behind hr
    refine ((yields_value (skipSpace rest)).of_suffix hs).bind fun read hv => ?_
    exact ⟨hv.good, hv.suffix.trans hs⟩
  next => trivial

end Values

end Toml
end EditorConfig
