import EditorConfig.Text.Line
import Mathlib.Data.List.DropRight
import Mathlib.Data.List.Basic
import Mathlib.Tactic.MkIffOfInductiveProp

/-! Lines that are written one under the other, and lines without white space around them. Main
statement: lines without line ends, joined by line feeds, are the lines of the text. -/
namespace EditorConfig.Text

def IsLine (text : Text) : Prop := '\r' ∉ text ∧ '\n' ∉ text

instance (text : Text) : Decidable (IsLine text) := inferInstanceAs (Decidable (_ ∧ _))

theorem isLine_cons {c : Char} {text : Text} :
    IsLine (c :: text) ↔ (c ≠ '\r' ∧ c ≠ '\n') ∧ IsLine text := by
  simp only [IsLine, List.mem_cons, not_or, ne_comm (a := c)]
  tauto

theorem isLine_append {u v : Text} : IsLine (u ++ v) ↔ IsLine u ∧ IsLine v := by
  simp only [IsLine, List.mem_append, not_or]
  tauto

theorem IsLine.mono {u v : Text} (hv : IsLine v) (h : u ⊆ v) : IsLine u :=
  ⟨fun hr => hv.1 (h hr), fun hn => hv.2 (h hn)⟩

theorem lines_cons {c : Char} (hr : c ≠ '\r') (hn : c ≠ '\n') (text : Text) :
    lines (c :: text) = (lines text).modifyHead (c :: ·) :=
  lines.eq_5 c text (fun _ h => absurd h hr) (fun h => absurd h hr) fun h => absurd h hn

/-- Every way to end a line is as good as a line feed. -/
theorem lines_withLineFeeds (text : Text) : lines (withLineFeeds text) = lines text := by
  fun_induction withLineFeeds text with
  | case1 => rfl
  | case2 rest ih => rw [lines, lines, ih]
  | case3 rest hn ih => rw [lines.eq_3 rest hn, lines.eq_4, ih]
  | case4 c rest hn hr ih =>
    by_cases hc : c = '\n'
    · rw [hc, lines.eq_4, lines.eq_4, ih]
    · rw [lines_cons hr hc, lines_cons hr hc, ih]

/-- No line holds what ends it. -/
theorem isLine_of_mem_lines {text line : Text} (h : line ∈ lines text) : IsLine line := by
  have hnil : IsLine [] := ⟨List.not_mem_nil, List.not_mem_nil⟩
  induction text using lines.induct generalizing line with
  | case1 =>
    rw [lines, List.mem_singleton] at h
    rwa [h]
  | case2 rest ih =>
    rw [lines, List.mem_cons] at h
    cases h with
    | inl h => rwa [h]
    | inr h => exact ih h
  | case3 rest hn ih =>
    rw [lines.eq_3 rest hn, List.mem_cons] at h
    cases h with
    | inl h => rwa [h]
    | inr h => exact ih h
  | case4 rest ih =>
    rw [lines, List.mem_cons] at h
    cases h with
    | inl h => rwa [h]
    | inr h => exact ih h
  | case5 c rest hr hc hn ih =>
    rw [lines_cons hc hn] at h
    obtain ⟨first, others, he⟩ := List.exists_cons_of_ne_nil (lines_ne_nil rest)
    rw [he, List.modifyHead_cons, List.mem_cons] at h
    cases h with
    | inl h =>
      rw [h, isLine_cons]
      exact ⟨⟨hc, hn⟩, ih (by rw [he]; exact List.mem_cons_self)⟩
    | inr h => exact ih (by rw [he]; exact List.mem_cons_of_mem first h)

theorem lines_append_line {line : Text} (h : IsLine line) (rest : Text) :
    lines (line ++ '\n' :: rest) = line :: lines rest := by
  induction line with
  | nil => rw [List.nil_append, lines]
  | cons c line ih =>
    obtain ⟨hc, hl⟩ := isLine_cons.1 h
    rw [List.cons_append, lines_cons hc.1 hc.2, ih hl]
    rfl

theorem lines_of_isLine {line : Text} (h : IsLine line) : lines line = [line] := by
  induction line with
  | nil => rfl
  | cons c line ih =>
    obtain ⟨hc, hl⟩ := isLine_cons.1 h
    rw [lines_cons hc.1 hc.2, ih hl]
    rfl

/-- The lines of a text are the ones it was joined from. -/
theorem lines_intercalate {ls : List Text} (hne : ls ≠ []) (h : ∀ l ∈ ls, IsLine l) :
    lines (['\n'].intercalate ls) = ls := by
  induction ls with
  | nil => exact absurd rfl hne
  | cons l ls ih =>
    have hl := h l List.mem_cons_self
    cases ls with
    | nil => rw [List.intercalate_singleton, lines_of_isLine hl]
    | cons k ls =>
      have hr := ih (List.cons_ne_nil k ls) fun m hm => h m (List.mem_cons_of_mem l hm)
      rw [List.intercalate_cons_cons, List.append_assoc, List.singleton_append,
        lines_append_line hl, hr]

@[mk_iff] structure IsTrimmed (text : Text) : Prop where
  head : text.head?.any isBlank = false
  last : text.getLast?.any isBlank = false

instance (text : Text) : Decidable (IsTrimmed text) := decidable_of_iff' _ (isTrimmed_iff text)

theorem trimStart_eq_self {text : Text} (h : text.head?.any isBlank = false) :
    trimStart text = text := by
  cases text with
  | nil => rfl
  | cons c text => exact List.dropWhile_cons_of_neg (by simpa using h)

theorem trimEnd_eq_self {text : Text} (h : text.getLast?.any isBlank = false) :
    trimEnd text = text := by
  refine List.rdropWhile_eq_self_iff.2 fun hn hb => ?_
  rw [List.getLast?_eq_some_getLast hn, Option.any_some, hb] at h
  cases h

theorem trim_subset (text : Text) : trim text ⊆ text :=
  List.Subset.trans (dropEndWhile_isPrefix isBlank _).subset (List.dropWhile_suffix isBlank).subset

theorem bareLine_subset (line : Text) : bareLine line ⊆ line := by
  unfold bareLine
  split
  next rest hr =>
    have hs : trimStart rest ⊆ rest := (List.dropWhile_suffix isBlank).subset
    refine List.Subset.trans hs fun c hc => trim_subset line ?_
    rw [hr]
    exact List.mem_cons_of_mem _ hc
  · exact trim_subset line

theorem trim_ne_nil {c : Char} (hc : isBlank c = false) (text : Text) : trim (c :: text) ≠ [] := by
  intro hn
  have hb := List.rdropWhile_eq_nil_iff.1 hn
  rw [trimStart_eq_self (by simpa using hc)] at hb
  rw [hb c List.mem_cons_self] at hc
  cases hc

theorem trim_append_blanks {u v : Text} (hu : IsTrimmed u) (hn : u ≠ [])
    (hv : ∀ c ∈ v, isBlank c = true) : trim (u ++ v) = u := by
  have hs : trimStart (u ++ v) = u ++ v := by
    refine trimStart_eq_self ?_
    rw [List.head?_append_of_ne_nil u hn]
    exact hu.head
  rw [trim, hs, trimEnd, dropEndWhile_append_of_all hv]
  exact trimEnd_eq_self hu.last

/-- Only a byte order mark in front is more than white space to drop. -/
theorem bareLine_append_blanks {u v : Text} (hu : IsTrimmed u) (hn : u ≠ [])
    (hb : u.head? ≠ some '\uFEFF') (hv : ∀ c ∈ v, isBlank c = true) : bareLine (u ++ v) = u := by
  unfold bareLine
  rw [trim_append_blanks hu hn hv]
  split
  · exact absurd rfl hb
  · rfl

end EditorConfig.Text
