import EditorConfig.Path.Normal
import EditorConfig.Proofs.Path.Parents

/-! Relative paths in normal form, by their components. Main statement: what lies above such a
path are the paths of its first components. -/
namespace EditorConfig.Path

structure IsName (component : Text) : Prop where
  ne_nil : component ≠ []
  ne_dot : component ≠ ['.']
  ne_dots : component ≠ ['.', '.']

instance (component : Text) : Decidable (IsName component) :=
  decidable_of_iff (component ≠ [] ∧ component ≠ ['.'] ∧ component ≠ ['.', '.'])
    ⟨fun ⟨hn, hd, hs⟩ => ⟨hn, hd, hs⟩, fun h => ⟨h.ne_nil, h.ne_dot, h.ne_dots⟩⟩

/-- An absolute path is none of these: its first component is empty. -/
def IsRelative (path : Text) : Prop := ∀ component ∈ components path, IsName component

instance (path : Text) : Decidable (IsRelative path) := inferInstanceAs (Decidable (∀ _ ∈ _, _))

theorem components_ne_nil (path : Text) : components path ≠ [] := List.splitOn_ne_nil '/' path

theorem components_injective : Function.Injective components := by
  intro path path' h
  have hi := congrArg ['/'].intercalate h
  rwa [components, components, List.intercalate_splitOn, List.intercalate_splitOn] at hi

theorem components_append (path path' : Text) :
    components (path ++ '/' :: path') = components path ++ components path' :=
  List.splitOn_append_cons_self path path'

theorem components_of_notMem {name : Text} (h : '/' ∉ name) : components name = [name] :=
  List.splitOn_eq_singleton h

namespace IsRelative
variable {path directory name : Text}

theorem ne_nil (hp : IsRelative path) : path ≠ [] := by
  intro he
  exact (hp [] (by rw [he]; exact List.mem_singleton_self [])).ne_nil rfl

theorem getLast?_ne (hp : IsRelative path) : path.getLast? ≠ some '/' := by
  intro hl
  obtain ⟨start, rfl⟩ := List.getLast?_eq_some_iff.1 hl
  have hm : [] ∈ components (start ++ ['/']) := by
    rw [components_append]
    exact List.mem_append_right _ (List.mem_singleton_self [])
  exact (hp [] hm).ne_nil rfl

theorem head?_ne (hp : IsRelative path) : path.head? ≠ some '/' := by
  intro hl
  obtain ⟨rest, rfl⟩ := List.head?_eq_some_iff.1 hl
  have hm : [] ∈ components ('/' :: rest) := by
    rw [← List.nil_append ('/' :: rest), components_append]
    exact List.mem_append_left _ (List.mem_singleton_self [])
  exact (hp [] hm).ne_nil rfl

theorem isDirectory (hp : IsRelative path) : IsDirectory path :=
  ⟨hp.ne_nil, fun h => absurd h hp.getLast?_ne⟩

theorem join_eq (hd : IsRelative directory) (hs : '/' ∉ name) :
    join directory name = directory ++ '/' :: name := by
  have hh : name.head? ≠ some '/' := fun he => hs (List.mem_of_mem_head? he)
  rw [join, if_neg hh, if_neg]
  simp [hd.ne_nil, hd.getLast?_ne]

theorem components_join (hd : IsRelative directory) (hs : '/' ∉ name) :
    components (join directory name) = components directory ++ [name] := by
  rw [hd.join_eq hs, components_append, components_of_notMem hs]

theorem join (hd : IsRelative directory) (hn : IsName name) (hs : '/' ∉ name) :
    IsRelative (Path.join directory name) := by
  intro component hc
  rw [hd.components_join hs, List.mem_append, List.mem_singleton] at hc
  cases hc with
  | inl hc => exact hd component hc
  | inr hc => exact hc ▸ hn

theorem parent?_join (hd : IsRelative directory) (hs : '/' ∉ name) :
    parent? (Path.join directory name) = some directory := by
  refine Path.parent?_join hd.isDirectory hs fun _ => ?_
  refine ⟨directory.getLast hd.ne_nil, List.getLast_mem hd.ne_nil, fun he => hd.getLast?_ne ?_⟩
  rw [List.getLast?_eq_some_getLast hd.ne_nil, he]

end IsRelative

/-- A relative path with a separator is that of something in a directory. -/
theorem IsRelative.exists_eq_join {path : Text} (hp : IsRelative path) (hs : '/' ∈ path) :
    ∃ directory name, IsRelative directory ∧ '/' ∉ name ∧ path = Path.join directory name := by
  obtain ⟨last, rest, hr, hn⟩ := List.eq_append_cons_of_mem (List.mem_reverse.2 hs)
  have he : path = rest.reverse ++ '/' :: last.reverse := by
    rw [← List.reverse_reverse path, hr]
    simp
  have hd : IsRelative rest.reverse := by
    intro component hc
    refine hp component ?_
    rw [he, components_append]
    exact List.mem_append_left _ hc
  have hl : '/' ∉ last.reverse := fun h => hn (List.mem_reverse.1 h)
  exact ⟨rest.reverse, last.reverse, hd, hl, by rw [hd.join_eq hl, he]⟩

theorem parent?_of_notMem {name : Text} (hs : '/' ∉ name) : parent? name = none := by
  have hn : ∀ c ∈ name, (c != '/') = true := fun c hc => bne_iff_ne.2 fun he => hs (he ▸ hc)
  have hd : Text.dropEndWhile (· != '/') name = [] := Text.dropEndWhile_append_of_all (u := []) hn
  rw [parent?, directory, hd]
  rfl

theorem IsRelative.of_parent? {path parent : Text} (hp : IsRelative path)
    (h : parent? path = some parent) :
    IsRelative parent ∧ ∃ name, components path = components parent ++ [name] := by
  by_cases hs : '/' ∈ path
  · obtain ⟨directory, name, hd, hn, rfl⟩ := hp.exists_eq_join hs
    rw [hd.parent?_join hn, Option.some.injEq] at h
    subst h
    exact ⟨hd, name, hd.components_join hn⟩
  · rw [parent?_of_notMem hs] at h
    cases h

theorem IsRelative.of_parent?_eq_none {path : Text} (hp : IsRelative path)
    (h : parent? path = none) : components path = [path] := by
  by_cases hs : '/' ∈ path
  · obtain ⟨directory, name, hd, hn, rfl⟩ := hp.exists_eq_join hs
    rw [hd.parent?_join hn] at h
    cases h
  · exact components_of_notMem hs

/-- What lies above a relative path are the paths of its first components. -/
theorem mem_ancestors_iff {path directory : Text} (hp : IsRelative path) :
    directory ∈ ancestors path ↔
      components directory <+: components path ∧ directory ≠ path := by
  fun_induction ancestors path with
  | case1 path hn =>
    have hc := hp.of_parent?_eq_none hn
    refine iff_of_false List.not_mem_nil ?_
    intro h
    obtain ⟨hb, hne⟩ := h
    refine hne (components_injective ?_)
    rw [hc] at hb ⊢
    exact hb.eq_of_length_le (List.length_pos_iff.2 (components_ne_nil directory))
  | case2 path parent hn ih =>
    obtain ⟨hr, name, hc⟩ := hp.of_parent? hn
    rw [List.mem_cons, ih hr, hc]
    constructor
    · intro h
      have hb : components directory <+: components parent := by
        rcases h with rfl | h
        · exact List.prefix_rfl
        · exact h.1
      refine ⟨hb.trans (List.prefix_append _ _), fun he => ?_⟩
      have hl := hb.length_le
      rw [he, hc, List.length_append, List.length_singleton] at hl
      omega
    · intro h
      obtain ⟨hb, hne⟩ := h
      rcases List.prefix_concat_iff.1 hb with he | hb
      · exact absurd (components_injective (he.trans hc.symm)) hne
      · by_cases hd : directory = parent
        · exact .inl hd
        · exact .inr ⟨hb, hd⟩

theorem isPrefix_of_mem_ancestors {path directory : Text} (h : directory ∈ ancestors path) :
    directory <+: path := by
  fun_induction ancestors path with
  | case1 => cases h
  | case2 path parent hp ih =>
    have hb : parent <+: path := by
      rw [parent?] at hp
      split at hp
      · cases hp
      · cases hp
        exact directory_isPrefix path
    rcases List.mem_cons.1 h with rfl | h
    · exact hb
    · exact (ih h).trans hb

end EditorConfig.Path
