import EditorConfig.Text.Basic

/-! Paths as text with `/` between the components, and the way up from a path. Main statement:
a parent is a proper beginning of its path, so every way up ends. -/
namespace EditorConfig.Path

/-- An absolute second path replaces the first; an empty one leaves a separator at the end. -/
def join (directory name : Text) : Text :=
  if name.head? = some '/' then name
  else if directory.isEmpty || directory.getLast? = some '/' then directory ++ name
  else directory ++ '/' :: name

/-- What stands before the last separator, without the separators at its end. A path of which
only separators are left keeps them. -/
def directory (path : Text) : Text :=
  let head := Text.dropEndWhile (· != '/') path
  let bare := Text.dropEndWhile (· == '/') head
  if bare.isEmpty then head else bare

def name (path : Text) : Text := (path.reverse.takeWhile (· != '/')).reverse

/-- A path without a separator has no parent, and neither has one of separators only. -/
def parent? (path : Text) : Option Text :=
  if (directory path).isEmpty || directory path == path then none else some (directory path)

theorem directory_isPrefix (path : Text) : directory path <+: path := by
  have h := Text.dropEndWhile_isPrefix (· != '/') path
  unfold directory
  simp only
  split
  · exact h
  · exact (Text.dropEndWhile_isPrefix _ _).trans h

theorem parent?_length_lt {path parent : Text} (h : parent? path = some parent) :
    parent.length < path.length := by
  unfold parent? at h
  split at h
  · simp at h
  next hne =>
    cases h
    have hp := directory_isPrefix path
    rcases Nat.lt_or_eq_of_le hp.length_le with hl | hl
    · exact hl
    · simp [hp.eq_of_length hl] at hne

def bare (path : Text) : Text :=
  if path.getLast? = some '/' then directory path else path

theorem bare_length_le (path : Text) : (bare path).length ≤ path.length := by
  unfold bare
  split
  · exact (directory_isPrefix path).length_le
  · exact Nat.le_refl _

def lastName (path : Text) : Text := name (bare path)

def ancestors (path : Text) : List Text :=
  match _h : parent? path with
  | none => []
  | some parent => parent :: ancestors parent
termination_by path.length
decreasing_by exact parent?_length_lt _h

end EditorConfig.Path
