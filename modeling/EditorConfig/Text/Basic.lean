/-! Text is a list of code points, so that every rule about it is a recursion on characters.
Main statement: what `before?` gives, the mark, and some remainder make up the text. -/
namespace EditorConfig

abbrev Text := List Char

namespace Text

def dropEndWhile (drop : Char → Bool) (text : Text) : Text :=
  (text.reverse.dropWhile drop).reverse

def before? (mark : Text) : Text → Option Text
  | [] => if mark.isPrefixOf [] then some [] else none
  | c :: rest =>
    if mark.isPrefixOf (c :: rest) then some [] else (before? mark rest).map (c :: ·)

theorem before?_eq_append {mark text start : Text} (h : before? mark text = some start) :
    ∃ rest, text = start ++ mark ++ rest := by
  induction text generalizing start with
  | nil =>
    rw [before?] at h
    split at h <;> simp_all
  | cons c text ih =>
    rw [before?] at h
    split at h
    next hp =>
      obtain ⟨rest, hr⟩ := List.isPrefixOf_iff_prefix.1 hp
      cases h
      exact ⟨rest, by simpa using hr.symm⟩
    next =>
      obtain ⟨start, hs, rfl⟩ := Option.map_eq_some_iff.1 h
      obtain ⟨rest, hr⟩ := ih hs
      exact ⟨rest, by simp [hr]⟩

theorem dropEndWhile_isPrefix (drop : Char → Bool) (text : Text) :
    dropEndWhile drop text <+: text := by
  have h : text.reverse.dropWhile drop <:+ text.reverse := List.dropWhile_suffix drop
  simpa [dropEndWhile] using List.reverse_prefix.2 h

theorem dropEndWhile_append_of_all {drop : Char → Bool} {u v : Text}
    (hv : ∀ c ∈ v, drop c = true) : dropEndWhile drop (u ++ v) = dropEndWhile drop u := by
  have hr : ∀ c ∈ v.reverse, drop c = true := fun c hc => hv c (List.mem_reverse.1 hc)
  rw [dropEndWhile, List.reverse_append, List.dropWhile_append_of_pos hr]
  rfl

end Text
end EditorConfig
