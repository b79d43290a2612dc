import EditorConfig.Path.Basic
import Mathlib.Data.List.DropRight

/-! The way up from a file. Main statement: the parent of a file that is named in a directory is
that directory. -/
namespace EditorConfig

namespace Text

theorem dropEndWhile_eq (drop : Char → Bool) (text : Text) :
    dropEndWhile drop text = text.rdropWhile drop := rfl

end Text

namespace Path

/-- A text that a parent may be: not empty, and with a separator at its end only if there is
nothing else in it. -/
structure IsDirectory (directory : Text) : Prop where
  ne_nil : directory ≠ []
  separators : directory.getLast? = some '/' → ∀ c ∈ directory, c = '/'

theorem isDirectory_of_parent? {path parent : Text} (h : parent? path = some parent) :
    IsDirectory parent := by
  unfold parent? at h
  split at h
  · cases h
  next hp =>
    rw [Option.some.injEq] at h
    subst h
    rw [Bool.or_eq_true, not_or] at hp
    refine ⟨fun he => hp.1 (by rw [he]; rfl), ?_⟩
    unfold directory
    simp only
    split
    next hb =>
      intro _ c hc
      exact beq_iff_eq.1 (List.rdropWhile_eq_nil_iff.1 (List.isEmpty_iff.1 hb) c hc)
    next hb =>
      intro hl
      have hn := fun he => hb (List.isEmpty_iff.2 he)
      have hs := List.rdropWhile_last_not (· == '/') _ hn
      rw [List.getLast?_eq_some_getLast hn, Option.some.injEq] at hl
      exact absurd (beq_iff_eq.2 hl) hs

theorem isDirectory_of_mem_ancestors {path directory : Text} (h : directory ∈ ancestors path) :
    IsDirectory directory := by
  fun_induction ancestors path with
  | case1 => cases h
  | case2 path parent hp ih =>
    rcases List.mem_cons.1 h with rfl | h
    · exact isDirectory_of_parent? hp
    · exact ih h

theorem ancestors_of_parent? {path parent : Text} (h : parent? path = some parent) :
    ancestors path = parent :: ancestors parent := by
  rw [ancestors]
  split
  next hn => rw [h] at hn; cases hn
  next hp => rw [h, Option.some.injEq] at hp; rw [hp]

theorem ancestors_of_parent?_eq_none {path : Text} (h : parent? path = none) :
    ancestors path = [] := by
  rw [ancestors]
  split
  next => rfl
  next hp => rw [h] at hp; cases hp

theorem directory_join {directory name : Text} (hd : IsDirectory directory) (hs : '/' ∉ name) :
    Path.directory (join directory name) = directory := by
  have hn : ∀ c ∈ name, (c != '/') = true := fun c hc => bne_iff_ne.2 fun he => hs (he ▸ hc)
  have hh : name.head? ≠ some '/' := fun he => hs (List.mem_of_mem_head? he)
  have hg := List.getLast?_eq_some_getLast hd.ne_nil
  unfold Path.directory
  by_cases hl : directory.getLast? = some '/'
  · have hk : Text.dropEndWhile (· != '/') directory = directory := by
      refine List.rdropWhile_eq_self_iff.2 fun _ hc => bne_iff_ne.1 hc ?_
      rwa [hg, Option.some.injEq] at hl
    have hb : Text.dropEndWhile (· == '/') directory = [] :=
      List.rdropWhile_eq_nil_iff.2 fun c hc => beq_iff_eq.2 (hd.separators hl c hc)
    have hj : join directory name = directory ++ name := by
      rw [join, if_neg hh, if_pos (by simp [hl])]
    simp only [hj, Text.dropEndWhile_append_of_all hn, hk, hb]
    rfl
  · have hk : Text.dropEndWhile (· != '/') (directory ++ ['/']) = directory ++ ['/'] :=
      List.rdropWhile_concat_neg _ _ _ (by decide)
    have hb : Text.dropEndWhile (· == '/') (directory ++ ['/']) = directory := by
      rw [Text.dropEndWhile_eq, List.rdropWhile_concat_pos _ _ _ (by decide)]
      refine List.rdropWhile_eq_self_iff.2 fun _ hc => hl ?_
      rw [hg, beq_iff_eq.1 hc]
    have hj : join directory name = (directory ++ ['/']) ++ name := by
      rw [join, if_neg hh, if_neg (by simp [hl, hd.ne_nil]), List.append_assoc]
      rfl
    simp only [hj, Text.dropEndWhile_append_of_all hn, hk, hb, List.isEmpty_iff, hd.ne_nil,
      if_false]

/-- Only a directory of separators is the path of a file without a name in it. -/
theorem join_ne {directory name : Text} (hd : IsDirectory directory) (hs : '/' ∉ name)
    (hn : name = [] → ∃ c ∈ directory, c ≠ '/') : directory ≠ join directory name := by
  intro he
  have hh : name.head? ≠ some '/' := fun he => hs (List.mem_of_mem_head? he)
  have hl := congrArg List.length he
  rw [join, if_neg hh] at hl
  split at hl
  next hc =>
    have hz : name = [] := List.eq_nil_of_length_eq_zero (by rw [List.length_append] at hl; omega)
    obtain ⟨c, hm, hne⟩ := hn hz
    have hg : directory.getLast? = some '/' := by simpa [hd.ne_nil] using hc
    exact hne (hd.separators hg c hm)
  next =>
    rw [List.length_append, List.length_cons] at hl
    omega

theorem parent?_join {directory name : Text} (hd : IsDirectory directory) (hs : '/' ∉ name)
    (hn : name = [] → ∃ c ∈ directory, c ≠ '/') :
    parent? (join directory name) = some directory := by
  have hj := directory_join hd hs
  have hl := join_ne hd hs hn
  rw [parent?, hj, if_neg]
  simp [hd.ne_nil, hl]

end Path
end EditorConfig
