import EditorConfig.Proofs.Path.Relative
import Mathlib.Data.List.Induction
import Mathlib.Data.List.Infix

/-! Absolute paths in normal form, by their components. Main statement: what a path stands for is
such a path, stays as it is, and the way up from it takes away one component after the other. -/
namespace EditorConfig.Path

def IsRoot (root : Text) : Prop := root = ['/'] ∨ root = ['/', '/']

def AreNames (names : List Text) : Prop := ∀ name ∈ names, IsName name ∧ '/' ∉ name

def ofNames (root : Text) (names : List Text) : Text := root ++ ['/'].intercalate names

/-- One or two separators in front, and names with one separator between them. -/
structure IsCanonical (path : Text) : Prop where
  isAbsolute : isAbsolute path = true
  isRelative : path.dropWhile (· == '/') ≠ [] → IsRelative (path.dropWhile (· == '/'))
  leading : ¬ ['/', '/', '/'] <+: path
  trailing : path.getLast? = some '/' → path = ['/'] ∨ path = ['/', '/']

theorem notMem_of_mem_components {path component : Text} (h : component ∈ components path) :
    '/' ∉ component := by
  by_cases hs : '/' ∈ path
  · obtain ⟨first, rest, rfl, hn⟩ := List.eq_append_cons_of_mem hs
    rw [components_append, components_of_notMem hn, List.mem_append, List.mem_singleton] at h
    cases h with
    | inl h => rwa [h]
    | inr h => exact notMem_of_mem_components h
  · rw [components_of_notMem hs, List.mem_singleton] at h
    rwa [h]
termination_by path.length
decreasing_by
  subst_vars
  rw [List.length_append, List.length_cons]
  omega

namespace AreNames
variable {names kept : List Text} {name : Text}

theorem nil : AreNames [] := List.forall_mem_nil _

theorem concat_iff : AreNames (names ++ [name]) ↔ AreNames names ∧ IsName name ∧ '/' ∉ name := by
  rw [AreNames, List.forall_mem_append, List.forall_mem_singleton]
  rfl

theorem components_intercalate (hn : AreNames names) (hne : names ≠ []) :
    components (['/'].intercalate names) = names :=
  List.splitOn_intercalate '/' (fun name hm => (hn name hm).2) hne

theorem isRelative (hn : AreNames names) (hne : names ≠ []) :
    IsRelative (['/'].intercalate names) := by
  intro component hc
  rw [hn.components_intercalate hne] at hc
  exact (hn component hc).1

theorem head?_intercalate (hn : AreNames names) : (['/'].intercalate names).head? ≠ some '/' := by
  cases names with
  | nil => decide
  | cons name rest => exact (hn.isRelative (List.cons_ne_nil name rest)).head?_ne

theorem intercalate_concat (hn : AreNames names) (hne : names ≠ []) (hs : '/' ∉ name) :
    ['/'].intercalate (names ++ [name]) = ['/'].intercalate names ++ '/' :: name := by
  apply components_injective
  rw [components_append, hn.components_intercalate hne, components_of_notMem hs]
  apply List.splitOn_intercalate '/' _ (List.concat_ne_nil _ _)
  rw [List.forall_mem_append, List.forall_mem_singleton]
  exact ⟨fun name hm => (hn name hm).2, hs⟩

/-- A step of the stack of an absolute path keeps it a stack of names. -/
theorem step {component : Text} (hk : AreNames kept) (hs : '/' ∉ component) :
    AreNames (step true kept component) := by
  unfold Path.step
  split
  · exact hk
  next he =>
    rw [not_or] at he
    split
    next hd =>
      cases kept with
      | nil => exact nil
      | cons top rest =>
        -- the stack holds no `..`, so there is always a name to take away
        have ht : top ≠ ['.', '.'] := (hk top List.mem_cons_self).1.ne_dots
        simp only [if_neg ht]
        exact fun name hm => hk name (List.mem_cons_of_mem top hm)
    next hd => exact List.forall_mem_cons.2 ⟨⟨⟨he.1, he.2, hd⟩, hs⟩, hk⟩

theorem foldl_step (hk : AreNames kept) {components : List Text}
    (hc : ∀ component ∈ components, '/' ∉ component) :
    AreNames (components.foldl (Path.step true) kept) := by
  induction components generalizing kept with
  | nil => exact hk
  | cons component rest ih =>
    rw [List.forall_mem_cons] at hc
    exact ih (hk.step hc.1) hc.2

/-- Names are put on the stack one after the other. -/
theorem foldl_step_eq (hn : AreNames names) (kept : List Text) :
    names.foldl (Path.step true) kept = names.reverse ++ kept := by
  induction names generalizing kept with
  | nil => rfl
  | cons name rest ih =>
    obtain ⟨⟨hname, -⟩, hr⟩ := List.forall_mem_cons.1 hn
    have hs : Path.step true kept name = name :: kept := by
      rw [Path.step.eq_def, if_neg (not_or.2 ⟨hname.ne_nil, hname.ne_dot⟩), if_neg hname.ne_dots]
    rw [List.foldl_cons, hs, ih hr, List.reverse_cons, List.append_assoc]
    rfl

end AreNames

theorem isRoot_root {path : Text} (h : isAbsolute path = true) : IsRoot (root path) := by
  unfold root
  split
  · exact .inl rfl
  · exact .inr rfl
  · exact .inl rfl
  next hn =>
    obtain ⟨rest, rfl⟩ := List.head?_eq_some_iff.1 (of_decide_eq_true h)
    exact absurd rfl (hn rest)

/-- Two separators are kept if there are not more of them. -/
theorem root_eq_iff {path : Text} :
    root path = ['/', '/'] ↔ ['/', '/'] <+: path ∧ ¬ ['/', '/', '/'] <+: path := by
  unfold root
  split
  next rest => exact iff_of_false (by decide) fun h => h.2 ⟨rest, rfl⟩
  next rest hn =>
    refine iff_of_true rfl ⟨⟨rest, rfl⟩, fun h => ?_⟩
    obtain ⟨rest', he⟩ := h
    cases he
    exact hn rest' rfl
  next rest _ hn =>
    refine iff_of_false (by decide) fun h => ?_
    obtain ⟨rest', he⟩ := h.1
    cases he
    exact hn rest' rfl
  next hn =>
    refine iff_of_false (by decide) fun h => ?_
    obtain ⟨rest', he⟩ := h.1
    cases he
    exact hn _ rfl

theorem inits_concat (names : List Text) (name : Text) :
    (names ++ [name]).inits = names.inits ++ [names ++ [name]] := by
  rw [List.inits_append]
  rfl

theorem dropLast_inits (names : List Text) : names.inits.dropLast ++ [names] = names.inits := by
  rcases List.eq_nil_or_concat names with rfl | ⟨start, last, rfl⟩
  · rfl
  · rw [List.concat_eq_append, inits_concat, List.dropLast_concat]

theorem normal_of_isAbsolute {path : Text} (h : isAbsolute path = true) :
    normal path =
      ofNames (root path) ((components path).foldl (step true) []).reverse := by
  unfold normal
  rcases isRoot_root h with hr | hr <;> rw [hr] <;> rfl

namespace IsRoot
variable {root rest : Text} {names : List Text} {name : Text}

theorem isAbsolute_append (hr : IsRoot root) (rest : Text) : isAbsolute (root ++ rest) = true := by
  rcases hr with rfl | rfl <;> rfl

theorem eq_of_mem (hr : IsRoot root) {c : Char} (hc : c ∈ root) : c = '/' := by
  rcases hr with rfl | rfl <;> simpa using hc

theorem root_append (hr : IsRoot root) (h : rest.head? ≠ some '/') :
    Path.root (root ++ rest) = root := by
  rcases hr with rfl | rfl
  · refine (isRoot_root rfl).resolve_right fun he => h ?_
    obtain ⟨rest', hp⟩ := (root_eq_iff.1 he).1
    cases hp
    rfl
  · refine root_eq_iff.2 ⟨List.prefix_append _ _, fun hp => h ?_⟩
    obtain ⟨rest', hp⟩ := hp
    cases hp
    rfl

theorem dropWhile_append (hr : IsRoot root) (h : rest.head? ≠ some '/') :
    (root ++ rest).dropWhile (· == '/') = rest := by
  rw [List.dropWhile_append_of_pos fun c hc => beq_iff_eq.2 (hr.eq_of_mem hc)]
  cases rest with
  | nil => rfl
  | cons c rest =>
    apply List.dropWhile_cons_of_neg
    intro hc
    exact h (by rw [beq_iff_eq.1 hc, List.head?_cons])

/-- The separators in front leave nothing on the stack. -/
theorem foldl_step_append (hr : IsRoot root) (rest : Text) (kept : List Text) :
    (components (root ++ rest)).foldl (step true) kept =
      (components rest).foldl (step true) kept := by
  -- a separator in front adds an empty component
  have hc : ∀ (rest : Text) (kept : List Text),
      (components ('/' :: rest)).foldl (step true) kept =
        (components rest).foldl (step true) kept :=
    fun rest kept => by rw [← List.nil_append ('/' :: rest), components_append]; rfl
  rcases hr with rfl | rfl
  · exact hc rest kept
  · exact (hc ('/' :: rest) kept).trans (hc rest kept)

theorem names_eq_nil (hn : AreNames names)
    (h : (ofNames root names).getLast? = some '/') : names = [] := by
  by_contra hne
  have hp := hn.isRelative hne
  rw [ofNames, List.getLast?_append_of_ne_nil _ hp.ne_nil] at h
  exact hp.getLast?_ne h

theorem isCanonical (hr : IsRoot root) (hn : AreNames names) :
    IsCanonical (ofNames root names) := by
  have hh := hn.head?_intercalate
  have hd : (ofNames root names).dropWhile (· == '/') = ['/'].intercalate names :=
    hr.dropWhile_append hh
  refine ⟨hr.isAbsolute_append _, fun hne => ?_, fun hp => ?_, fun hl => ?_⟩
  · rw [hd] at hne ⊢
    apply hn.isRelative
    rintro rfl
    exact hne rfl
  · obtain ⟨rest, hp⟩ := hp
    apply hh
    rcases hr with rfl | rfl
    · have he : '/' :: '/' :: rest = ['/'].intercalate names := (List.cons.inj hp).2
      rw [← he, List.head?_cons]
    · have he : '/' :: rest = ['/'].intercalate names := (List.cons.inj (List.cons.inj hp).2).2
      rw [← he, List.head?_cons]
  · rw [names_eq_nil hn hl]
    rcases hr with rfl | rfl
    · exact .inl rfl
    · exact .inr rfl

theorem isDirectory (hr : IsRoot root) (hn : AreNames names) :
    IsDirectory (ofNames root names) := by
  have hne : ofNames root names ≠ [] := by
    rcases hr with rfl | rfl <;> exact List.cons_ne_nil _ _
  refine ⟨hne, fun hl c hc => ?_⟩
  rw [names_eq_nil hn hl] at hc
  exact hr.eq_of_mem (List.append_nil root ▸ hc)

theorem join_ofNames (hr : IsRoot root) (hn : AreNames names) (hs : '/' ∉ name) :
    join (ofNames root names) name = ofNames root (names ++ [name]) := by
  have hh : name.head? ≠ some '/' := fun he => hs (List.mem_of_mem_head? he)
  rw [join, if_neg hh]
  by_cases hne : names = []
  · subst hne
    rcases hr with rfl | rfl <;> simp [ofNames]
  · have hl : (ofNames root names).getLast? ≠ some '/' := fun hl => hne (names_eq_nil hn hl)
    have hd := (hr.isDirectory hn).ne_nil
    rw [if_neg (by simp [hl, hd]), ofNames, ofNames, hn.intercalate_concat hne hs,
      List.append_assoc]

theorem parent?_concat (hr : IsRoot root) (hn : AreNames (names ++ [name])) :
    parent? (ofNames root (names ++ [name])) = some (ofNames root names) := by
  obtain ⟨hd, hname, hs⟩ := AreNames.concat_iff.1 hn
  rw [← hr.join_ofNames hd hs]
  exact parent?_join (hr.isDirectory hd) hs fun he => absurd he hname.ne_nil

theorem parent?_nil (hr : IsRoot root) : parent? (ofNames root []) = none := by
  rcases hr with rfl | rfl <;> decide

/-- On the way up the last component is left out each time, as long as there is one. -/
theorem ancestors_ofNames (hr : IsRoot root) (hn : AreNames names) :
    ancestors (ofNames root names) = names.inits.dropLast.reverse.map (ofNames root) := by
  induction names using List.reverseRecOn with
  | nil => exact ancestors_of_parent?_eq_none hr.parent?_nil
  | append_singleton names name ih =>
    have hi : (names ++ [name]).inits.dropLast = names.inits := by
      rw [inits_concat, List.dropLast_concat]
    rw [ancestors_of_parent? (hr.parent?_concat hn), ih (AreNames.concat_iff.1 hn).1, hi,
      ← dropLast_inits names, List.reverse_append]
    simp

theorem normal_ofNames (hr : IsRoot root) (hn : AreNames names) :
    normal (ofNames root names) = ofNames root names := by
  have hs : (components (['/'].intercalate names)).foldl (step true) [] = names.reverse := by
    by_cases hne : names = []
    · subst hne
      rfl
    · rw [hn.components_intercalate hne, hn.foldl_step_eq, List.append_nil]
  unfold ofNames
  rw [normal_of_isAbsolute (hr.isAbsolute_append _), ofNames,
    hr.root_append hn.head?_intercalate, hr.foldl_step_append, hs, List.reverse_reverse]

end IsRoot

theorem isRoot_takeWhile {path : Text} (ha : isAbsolute path = true)
    (hl : ¬ ['/', '/', '/'] <+: path) : IsRoot (path.takeWhile (· == '/')) := by
  obtain ⟨rest, rfl⟩ := List.head?_eq_some_iff.1 (of_decide_eq_true ha)
  rw [List.takeWhile_cons_of_pos (by rfl)]
  rcases rest with _ | ⟨c, rest⟩
  · exact .inl rfl
  by_cases hc : c = '/'
  · subst hc
    rw [List.takeWhile_cons_of_pos (by rfl)]
    rcases rest with _ | ⟨d, rest⟩
    · exact .inr rfl
    have hd : d ≠ '/' := by
      rintro rfl
      exact hl ⟨rest, rfl⟩
    rw [List.takeWhile_cons_of_neg (by simpa using hd)]
    exact .inr rfl
  · rw [List.takeWhile_cons_of_neg (by simpa using hc)]
    exact .inl rfl

/-- The canonical paths are those that are made of names. -/
theorem isCanonical_iff {path : Text} :
    IsCanonical path ↔
      ∃ root names, IsRoot root ∧ AreNames names ∧ path = ofNames root names := by
  constructor
  · intro h
    have hr := isRoot_takeWhile h.isAbsolute h.leading
    have hp := List.takeWhile_append_dropWhile (p := (· == '/')) (l := path)
    by_cases hne : path.dropWhile (· == '/') = []
    · rw [hne] at hp
      exact ⟨_, [], hr, .nil, hp.symm⟩
    · refine ⟨_, components (path.dropWhile (· == '/')), hr, fun name hm => ?_, ?_⟩
      · exact ⟨h.isRelative hne name hm, notMem_of_mem_components hm⟩
      · rw [ofNames, components, List.intercalate_splitOn, hp]
  · rintro ⟨root, names, hr, hn, rfl⟩
    exact hr.isCanonical hn

theorem isAbsolute_join {directory : Text} (h : isAbsolute directory = true) (name : Text) :
    isAbsolute (join directory name) = true := by
  obtain ⟨rest, rfl⟩ := List.head?_eq_some_iff.1 (of_decide_eq_true h)
  unfold join
  split
  next hn => exact decide_eq_true hn
  next => split <;> rfl

/-- The normal form of an absolute path is canonical. -/
theorem normal_eq_ofNames {path : Text} (h : isAbsolute path = true) :
    ∃ names, AreNames names ∧ normal path = ofNames (root path) names := by
  refine ⟨_, fun name hm => ?_, normal_of_isAbsolute h⟩
  have hc : ∀ component ∈ components path, '/' ∉ component := fun _ => notMem_of_mem_components
  exact AreNames.nil.foldl_step hc name (List.mem_reverse.1 hm)

namespace IsCanonical
variable {path : Text}

theorem normal_eq (hp : IsCanonical path) : normal path = path := by
  obtain ⟨root, names, hr, hn, rfl⟩ := isCanonical_iff.1 hp
  exact hr.normal_ofNames hn

theorem canonical?_eq (hp : IsCanonical path) (workingDirectory home : Text) :
    canonical? workingDirectory home path = some path := by
  have he : expandHome? home path = some path := by
    obtain ⟨rest, rfl⟩ := List.head?_eq_some_iff.1 (of_decide_eq_true hp.isAbsolute)
    rfl
  rw [canonical?, he, Option.map_some, absolute, hp.isAbsolute, if_pos rfl, hp.isAbsolute,
    if_pos rfl, hp.normal_eq]

/-- Whatever lies above a canonical path is canonical. -/
theorem of_mem_ancestors (hp : IsCanonical path) {directory : Text}
    (hd : directory ∈ ancestors path) : IsCanonical directory := by
  obtain ⟨root, names, hr, hn, rfl⟩ := isCanonical_iff.1 hp
  rw [hr.ancestors_ofNames hn] at hd
  obtain ⟨start, hs, rfl⟩ := List.mem_map.1 hd
  have hb := (List.mem_inits _ _).1 (List.dropLast_subset _ (List.mem_reverse.1 hs))
  exact hr.isCanonical fun name hm => hn name (hb.subset hm)

/-- Whether to stop at a directory is a question of its spelling. -/
theorem normal_mem_map_iff (hp : IsCanonical path) {stops : List Text}
    (hs : ∀ stop ∈ stops, IsCanonical stop) :
    normal path ∈ stops.map normal ↔ path ∈ stops := by
  have he : stops.map normal = stops :=
    (List.map_congr_left fun stop hm => (hs stop hm).normal_eq).trans (List.map_id stops)
  rw [hp.normal_eq, he]

end IsCanonical

/-- A tilde leads to a path, unless the name behind it is one that no user may have. -/
theorem exists_expandHome? (home : Text) {path : Text}
    (hu : path.head? = some '~' → '\x00' ∉ path.takeWhile (· != '/')) :
    ∃ expanded, expandHome? home path = some expanded := by
  unfold expandHome?
  split
  next rest =>
    have hn : (rest.takeWhile (· != '/')).contains '\x00' = false := by
      rw [← Bool.not_eq_true, List.contains_iff_mem]
      exact fun hm => hu rfl (List.mem_cons_of_mem '~' hm)
    simp only [hn, Bool.false_eq_true, if_false]
    split
    · exact ⟨_, rfl⟩
    · exact ⟨_, rfl⟩
  next => exact ⟨path, rfl⟩

theorem canonical?_of_expandHome? {workingDirectory home path expanded : Text}
    (hw : isAbsolute workingDirectory = true) (he : expandHome? home path = some expanded) :
    canonical? workingDirectory home path = some (normal (join workingDirectory expanded)) := by
  rw [canonical?, he, Option.map_some, absolute]
  by_cases ha : isAbsolute expanded = true
  · have hj : join workingDirectory expanded = expanded := if_pos (of_decide_eq_true ha)
    rw [if_pos ha, if_pos ha, hj]
  · rw [if_neg ha, if_pos (isAbsolute_join hw expanded)]

/-- What a path stands for is canonical, and a canonical path stands for itself. It is its own
normal form, as is all that lies above it, where one component after the other is left out. So it
depends on the spelling of a directory whether a walk stops there. -/
theorem canonical?_isCanonical {workingDirectory path : Text} (home : Text)
    (hw : isAbsolute workingDirectory = true)
    (hu : path.head? = some '~' → '\x00' ∉ path.takeWhile (· != '/')) :
    ∃ expanded result, expandHome? home path = some expanded ∧
      canonical? workingDirectory home path = some result ∧
      IsCanonical result ∧ (IsCanonical path → result = path) ∧
      (['/', '/'] <+: result ↔ ['/', '/'] <+: join workingDirectory expanded ∧
        ¬ ['/', '/', '/'] <+: join workingDirectory expanded) ∧
      (∀ workingDirectory' home', canonical? workingDirectory' home' result = some result) ∧
      (∀ directory ∈ ancestors result, normal directory = directory ∧
        ∀ stops : List Text, (∀ stop ∈ stops, IsCanonical stop) →
          (normal directory ∈ stops.map normal ↔ directory ∈ stops)) ∧
      ∃ root names, IsRoot root ∧ AreNames names ∧ result = ofNames root names ∧
        ancestors result = names.inits.dropLast.reverse.map (ofNames root) := by
  obtain ⟨expanded, he⟩ := exists_expandHome? home hu
  have ha := isAbsolute_join hw expanded
  have hr := isRoot_root ha
  obtain ⟨names, hn, hp⟩ := normal_eq_ofNames ha
  have hc := hr.isCanonical hn
  have hs := (canonical?_of_expandHome? hw he).trans (congrArg some hp)
  refine ⟨expanded, _, he, hs, hc, fun hk => ?_, ?_, hc.canonical?_eq, fun directory hd => ?_, _,
    names, hr, hn, rfl, hr.ancestors_ofNames hn⟩
  · rw [hk.canonical?_eq, Option.some.injEq] at hs
    exact hs.symm
  · have ho : root (ofNames (root (join workingDirectory expanded)) names) =
        root (join workingDirectory expanded) := hr.root_append hn.head?_intercalate
    rw [← root_eq_iff, ← (and_iff_left hc.leading : _ ↔ ['/', '/'] <+: _), ← root_eq_iff, ho]
  · have hd' := hc.of_mem_ancestors hd
    exact ⟨hd'.normal_eq, fun stops hs => hd'.normal_mem_map_iff hs⟩

/-- Two separators in front of the working directory are kept, and those behind the home directory
are not. -/
theorem canonical?_isCanonical_home :
    isAbsolute "//srv/./w".toList = true ∧
      ("~/../a//b/".toList.head? = some '~' →
        '\x00' ∉ "~/../a//b/".toList.takeWhile (· != '/')) ∧
      canonical? "//srv/./w".toList "h///".toList "~/../a//b/".toList =
        some "//srv/w/a/b".toList ∧
      IsCanonical "//srv/w/a/b".toList ∧
      (∀ directory ∈ ancestors "//srv/w/a/b".toList, normal directory = directory) ∧
      ancestors "//srv/w/a/b".toList =
        ["//srv/w/a".toList, "//srv/w".toList, "//srv".toList, "//".toList] := by
  have hw : isAbsolute "//srv/./w".toList = true := by decide
  have hu : "~/../a//b/".toList.head? = some '~' →
      '\x00' ∉ "~/../a//b/".toList.takeWhile (· != '/') := by decide
  have hc : canonical? "//srv/./w".toList "h///".toList "~/../a//b/".toList =
      some "//srv/w/a/b".toList := by decide
  obtain ⟨expanded, result, -, hr, hp, -, -, -, hd, -⟩ := canonical?_isCanonical "h///".toList hw hu
  rw [hc, Option.some.injEq] at hr
  subst hr
  exact ⟨hw, hu, hc, hp, fun directory hm => (hd directory hm).1, by decide +kernel⟩

end EditorConfig.Path
