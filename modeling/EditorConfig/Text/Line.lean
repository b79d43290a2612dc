import EditorConfig.Text.Blank

/-! Lines of a text. A carriage return, a line feed, or the one followed by the other ends a
line, so a text with `n` line ends has `n + 1` lines. -/
namespace EditorConfig.Text

def lines : Text → List Text
  | [] => [[]]
  | '\r' :: '\n' :: rest => [] :: lines rest
  | '\r' :: rest => [] :: lines rest
  | '\n' :: rest => [] :: lines rest
  | c :: rest => (lines rest).modifyHead (c :: ·)

def withLineFeeds : Text → Text
  | [] => []
  | '\r' :: '\n' :: rest => '\n' :: withLineFeeds rest
  | '\r' :: rest => '\n' :: withLineFeeds rest
  | c :: rest => c :: withLineFeeds rest

/-- A line without the white space around it. One byte order mark at its start is dropped, with
the white space after it. -/
def bareLine (line : Text) : Text :=
  match trim line with
  | '\uFEFF' :: rest => trimStart rest
  | rest => rest

theorem lines_ne_nil (text : Text) : lines text ≠ [] := by
  fun_induction lines text <;> simp_all

end EditorConfig.Text
