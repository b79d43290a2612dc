import EditorConfig.Proofs.Text.Line

/-! Lines that are emptied in place. Main statement: the other lines of the text stay as they were,
in their order, apart from empty ones. -/
namespace EditorConfig.Text

def emptied (drop : Text → Bool) (line : Text) : Text := if drop line then [] else line

def blankedFrom (drop : Text → Bool) : Text → Text → Text
  | line, [] => emptied drop line
  | line, '\r' :: '\n' :: rest => emptied drop line ++ '\r' :: '\n' :: blankedFrom drop [] rest
  | line, '\r' :: rest => emptied drop line ++ '\r' :: blankedFrom drop [] rest
  | line, '\n' :: rest => emptied drop line ++ '\n' :: blankedFrom drop [] rest
  | line, c :: rest => blankedFrom drop (line ++ [c]) rest

def blanked (drop : Text → Bool) (text : Text) : Text := blankedFrom drop [] text

/-- The line that ends between two such texts is empty, so emptying a line between them can make
one line end of two. -/
example : blanked (· == "b".toList) "a\rb\nc".toList = "a\r\nc".toList := by decide

theorem lines_line_append {line : Text} (h : IsLine line) (text : Text) :
    lines (line ++ text) = (lines text).modifyHead (line ++ ·) := by
  induction line with
  | nil => exact (congrFun List.modifyHead_id (lines text)).symm
  | cons c line ih =>
    obtain ⟨hc, hl⟩ := isLine_cons.1 h
    rw [List.cons_append, lines_cons hc.1 hc.2, ih hl, List.modifyHead_modifyHead]
    rfl

/-- A carriage return ends a line, and a line feed behind it ends no other. -/
theorem lines_append_carriageReturn {line : Text} (h : IsLine line) (text : Text) :
    ∃ more, lines (line ++ '\r' :: text) = line :: more ∧
      more.filter (· ≠ []) = (lines text).filter (· ≠ []) := by
  have hl : ∀ more, lines ('\r' :: text) = [] :: more →
      lines (line ++ '\r' :: text) = line :: more := by
    intro more hm
    rw [lines_line_append h, hm, List.modifyHead_cons, List.append_nil]
  cases text with
  | nil => exact ⟨[[]], hl _ rfl, rfl⟩
  | cons c rest =>
    by_cases hc : c = '\n'
    · subst hc
      exact ⟨lines rest, hl _ rfl, rfl⟩
    · refine ⟨lines (c :: rest), hl _ ?_, rfl⟩
      exact lines.eq_3 _ fun r hr => hc (List.cons_eq_cons.1 hr).1

theorem isLine_nil : IsLine [] := ⟨List.not_mem_nil, List.not_mem_nil⟩

theorem isLine_emptied (drop : Text → Bool) {line : Text} (h : IsLine line) :
    IsLine (emptied drop line) := by
  unfold emptied
  split
  · exact isLine_nil
  · exact h

/-- A line is left if it is not of the kind that is emptied, and is not empty anyway. -/
theorem filter_emptied (drop : Text → Bool) (line : Text) {us vs : List Text}
    (h : us.filter (· ≠ []) = vs.filter fun l => !drop l && l ≠ []) :
    (emptied drop line :: us).filter (· ≠ []) =
      (line :: vs).filter fun l => !drop l && l ≠ [] := by
  rw [List.filter_cons, List.filter_cons, h, emptied]
  cases drop line <;> simp

/-- The lines that are left where the first of the text has begun. -/
theorem filter_lines_blankedFrom (drop : Text → Bool) {line : Text} (h : IsLine line)
    (text : Text) :
    (lines (blankedFrom drop line text)).filter (· ≠ []) =
      (lines (line ++ text)).filter fun l => !drop l && l ≠ [] := by
  fun_induction blankedFrom drop line text with
  | case1 line =>
    rw [List.append_nil, lines_of_isLine (isLine_emptied drop h), lines_of_isLine h]
    exact filter_emptied drop line rfl
  | case2 line rest ih =>
    have hl := lines_line_append (isLine_emptied drop h) ('\r' :: '\n' :: blankedFrom drop [] rest)
    have hl' := lines_line_append h ('\r' :: '\n' :: rest)
    rw [lines, List.modifyHead_cons, List.append_nil] at hl hl'
    rw [hl, hl']
    exact filter_emptied drop line (ih isLine_nil)
  | case3 line rest hn ih =>
    obtain ⟨more, hl, hm⟩ := lines_append_carriageReturn (isLine_emptied drop h)
      (blankedFrom drop [] rest)
    have hl' := lines_line_append h ('\r' :: rest)
    rw [lines.eq_3 _ hn, List.modifyHead_cons, List.append_nil] at hl'
    rw [hl, hl']
    exact filter_emptied drop line (hm.trans (ih isLine_nil))
  | case4 line rest ih =>
    rw [lines_append_line (isLine_emptied drop h), lines_append_line h]
    exact filter_emptied drop line (ih isLine_nil)
  | case5 line c rest h₁ h₂ h₃ ih =>
    have hc : IsLine (line ++ [c]) :=
      isLine_append.2 ⟨h, isLine_cons.2 ⟨⟨fun he => ?_, h₃⟩, isLine_nil⟩⟩
    · rw [ih hc, List.append_assoc]
      rfl
    · exact h₂ he

/-- In a text with emptied lines the other lines stay, in their order, apart from empty ones. -/
theorem filter_lines_blanked (drop : Text → Bool) (text : Text) :
    (lines (blanked drop text)).filter (· ≠ []) =
      (lines text).filter fun l => !drop l && l ≠ [] :=
  filter_lines_blankedFrom drop isLine_nil text

end EditorConfig.Text
