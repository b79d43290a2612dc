import EditorConfig.Text.Basic

/-! Plain text. A control sequence moves the cursor of a terminal or colours what follows; where
there is no terminal it is left out of what is printed. -/
namespace EditorConfig.Text

def isParameter (c : Char) : Bool := c == ';' || c == '?' || c.isDigit

/-- What stands behind a control sequence at the start of a text: an escape, a bracket, any
parameters, and a letter. -/
def behindControl? : Text → Option Text
  | '\x1b' :: '[' :: rest =>
    match rest.dropWhile isParameter with
    | c :: rest => if c.isAlpha then some rest else none
    | [] => none
  | _ => none

theorem behindControl?_length_lt {text rest : Text} (h : behindControl? text = some rest) :
    rest.length < text.length := by
  unfold behindControl? at h
  split at h
  · rename_i body
    have hl := (List.dropWhile_suffix (l := body) isParameter).length_le
    split at h
    · rename_i c tail hd
      rw [hd, List.length_cons] at hl
      split at h
      · cases h
        simp only [List.length_cons]
        omega
      · cases h
    · cases h
  · cases h

def plain (text : Text) : Text :=
  match text with
  | [] => []
  | c :: rest =>
    match h : behindControl? (c :: rest) with
    | some rest' =>
      have : rest'.length < rest.length + 1 := behindControl?_length_lt h
      plain rest'
    | none => c :: plain rest
termination_by text.length

def shown (terminal : Bool) (text : Text) : Text := if terminal then text else plain text

end EditorConfig.Text
