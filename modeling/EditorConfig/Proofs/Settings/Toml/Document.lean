import EditorConfig.Proofs.Settings.Toml.Nested
import EditorConfig.Settings.Toml.Document

/-! TOML documents that are read. Main statement: no table of a document has a key twice, and where
a document is not just invalid it has too many digits in a row or too much that is opened. -/
namespace EditorConfig.Toml
open Value

namespace Document
variable {limit : Nat} {d : Document} {text : Text}

def IsDistinct (d : Document) : Prop := Value.IsDistinct d.table

theorem yields_declareTable (hd : d.IsDistinct) (k : List Text) :
    Yields limit 0 text IsDistinct (d.declareTable k) := by
  have hok : ∀ table, Value.IsDistinct table → Yields limit 0 text Value.IsDistinct (.ok table) :=
    fun _ ht => ht
  rw [declareTable]
  split
  next => trivial
  next => exact (yields_alterAt hok true k hd).bind fun _ ht => ht

theorem yields_appendTable (k : Text) {table : Table} (ht : Value.IsDistinct table) :
    Yields limit 0 text Value.IsDistinct (appendTable k table) := by
  have hn : DistinctKeys (.table []) := Value.IsDistinct.nil
  rw [appendTable]
  split
  next => exact ht.set (.list (List.forall_mem_singleton.2 hn)) k
  next items hg =>
    refine ht.set (.list fun v hv => ?_) k
    rcases List.mem_append.1 hv with hv | hv
    · exact (ht.of_get? hg).items v hv
    · rw [List.mem_singleton] at hv
      exact hv ▸ hn
  next => trivial

theorem yields_declareItem (hd : d.IsDistinct) (k : List Text) :
    Yields limit 0 text IsDistinct (d.declareItem k) := by
  rw [declareItem]
  split
  next => trivial
  next =>
    exact (yields_alterAt (fun _ ht => yields_appendTable _ ht) true k.dropLast hd).bind
      fun _ ht => ht

theorem yields_setPair (hd : d.IsDistinct) (k : List Text) {v : Value} (hv : v.DistinctKeys) :
    Yields limit 0 text IsDistinct (d.setPair k v) := by
  rw [setPair]
  split
  next => trivial
  next =>
    exact (yields_alterAt (fun _ ht => yields_setNew hv _ ht) true _ hd).bind fun _ ht => ht

/-- One statement keeps the keys of all tables distinct. -/
theorem yields_statement (hd : d.IsDistinct) (text : Text) :
    Yields limit 0 text (Leaves text IsDistinct) (d.statement limit text) := by
  have he : d.endTable.IsDistinct := hd
  unfold statement
  split
  next => exact ⟨hd, List.suffix_refl _⟩
  next => exact ⟨hd, List.suffix_refl _⟩
  next => exact ⟨hd, List.suffix_refl _⟩
  next rest =>
    have hk : skipSpace rest <:+ '[' :: '[' :: rest :=
      (skipSpace_suffix rest).trans ⟨['[', '['], rfl⟩
    refine ((yields_key 0 (skipSpace rest)).widen hk).bind fun name hn => ?_
    have hs := hn.suffix
    simp only
    split
    next last hl =>
      rw [hl] at hs
      refine (yields_declareItem he name.1).bind fun _ ht => ?_
      exact ⟨ht, .trans ⟨[']', ']'], rfl⟩ hs⟩
    next => trivial
  next rest _ =>
    have hk : skipSpace rest <:+ '[' :: rest :=
      (skipSpace_suffix rest).trans (List.suffix_cons '[' rest)
    refine ((yields_key 0 (skipSpace rest)).widen hk).bind fun name hn => ?_
    have hs := hn.suffix
    simp only
    split
    next last hl =>
      rw [hl] at hs
      refine (yields_declareTable he name.1).bind fun _ ht => ?_
      exact ⟨ht, (List.suffix_cons ']' last).trans hs⟩
    next => trivial
  next =>
    refine (yields_pair text).bind fun read hr => ?_
    refine (yields_setPair hd read.1.1 hr.good).bind fun _ ht => ?_
    exact ⟨ht, hr.suffix⟩

/-- All statements together keep the keys of all tables distinct. -/
theorem yields_statements (fuel : Nat) (hd : d.IsDistinct) (text : Text) :
    Yields limit 0 text IsDistinct (statements limit fuel d text) := by
  induction fuel generalizing d text with
  | zero => trivial
  | succ fuel ih =>
    rw [statements]
    have ht := skipSpace_suffix text
    refine ((yields_statement hd (skipSpace text)).widen ht).bind fun read hr => ?_
    have hc : skipSpace read.2 <:+ text := (skipSpace_suffix read.2).trans hr.suffix
    refine ((yields_comment limit 0 (skipSpace read.2)).of_suffix hc).bind fun behind hb => ?_
    have hs : behind <:+ text := List.IsSuffix.trans hb hc
    split
    next => exact hr.good
    next rest => exact (ih hr.good rest).of_suffix ((List.suffix_cons '\n' rest).trans hs)
    next => trivial

end Document

section LineEnds
variable {text run : Text}

theorem unseparated_cons_of_ne {c : Char} (h : c ≠ '_') (text : Text) :
    unseparated (c :: text) = c :: unseparated text :=
  List.filter_cons_of_pos (by simpa using h)

/-- Digits in a row at the beginning are there however line ends are written. -/
theorem prefix_of_joinLineEnds (hd : ∀ c ∈ run, c.isDigit = true)
    (h : run <+: unseparated (joinLineEnds text)) : run <+: unseparated text := by
  fun_induction joinLineEnds text generalizing run with
  | case1 => exact h
  | case2 rest ih =>
    rw [unseparated_cons_of_ne (by decide)] at h
    cases run with
    | nil => exact List.nil_prefix
    | cons c run =>
      rw [List.cons_prefix_cons] at h
      have hc := hd c List.mem_cons_self
      rw [h.1] at hc
      cases hc
  | case3 c rest _ ih =>
    by_cases hc : c = '_'
    · subst hc
      exact ih hd h
    · rw [unseparated_cons_of_ne hc] at h ⊢
      cases run with
      | nil => exact List.nil_prefix
      | cons d run =>
        rw [List.cons_prefix_cons] at h ⊢
        exact ⟨h.1, ih (fun c hc => hd c (List.mem_cons_of_mem d hc)) h.2⟩

theorem infix_of_joinLineEnds (hd : ∀ c ∈ run, c.isDigit = true)
    (h : run <:+: unseparated (joinLineEnds text)) : run <:+: unseparated text := by
  fun_induction joinLineEnds text with
  | case1 => exact h
  | case2 rest ih =>
    have hp := @prefix_of_joinLineEnds ('\r' :: '\n' :: rest) run hd
    have hs : rest <:+ '\r' :: '\n' :: rest := ⟨['\r', '\n'], rfl⟩
    rw [joinLineEnds, unseparated_cons_of_ne (by decide)] at hp
    rw [unseparated_cons_of_ne (by decide)] at h
    rcases List.infix_cons_iff.1 h with h | h
    · exact (hp h).isInfix
    · exact (ih h).trans (hs.filter _).isInfix
  | case3 c rest hn ih =>
    have hp := @prefix_of_joinLineEnds (c :: rest) run hd
    have hs : rest <:+ c :: rest := List.suffix_cons c rest
    rw [joinLineEnds.eq_3 c rest hn] at hp
    by_cases hc : c = '_'
    · subst hc
      exact ih h
    · rw [unseparated_cons_of_ne hc] at h hp
      rcases List.infix_cons_iff.1 h with h | h
      · exact (hp h).isInfix
      · exact (ih h).trans (hs.filter _).isInfix

theorem joinLineEnds_sublist (text : Text) : (joinLineEnds text).Sublist text := by
  fun_induction joinLineEnds text with
  | case1 => exact .slnil
  | case2 rest ih => exact .cons '\r' (ih.cons_cons '\n')
  | case3 c rest _ ih => exact ih.cons_cons c

/-- However line ends are written, the reason for a failure is in the text. -/
theorem IsDue.of_joinLineEnds {limit depth : Nat} {e : ReadFailure}
    (h : IsDue limit depth (joinLineEnds text) e) : IsDue limit depth text e := by
  cases e with
  | invalid => trivial
  | numeralTooLong =>
    exact fun hf => h fun run hr hd => hf run (infix_of_joinLineEnds hd hr) hd
  | tooDeep =>
    have hc := (joinLineEnds_sublist text).countP_le (p := isOpening)
    exact Nat.lt_of_lt_of_le h (Nat.add_le_add_left hc depth)

end LineEnds

theorem yields_read (limit : Nat) (text : Text) :
    Yields limit 0 text Value.IsDistinct (read limit text) := by
  have hd : Document.empty.IsDistinct := Value.IsDistinct.nil
  have hr : Yields limit 0 (joinLineEnds text) Value.IsDistinct (read limit text) := by
    rw [read]
    exact (Document.yields_statements _ hd _).bind fun _ hd => hd
  cases h : read limit text with
  | error e =>
    rw [h] at hr
    exact IsDue.of_joinLineEnds hr
  | ok table =>
    rw [h] at hr
    exact hr

end EditorConfig.Toml
