import EditorConfig.Proofs.Cascade.Stops
import EditorConfig.Proofs.Source.Values

/-! Properties that can be printed on a line each. Main statement: all that a resolution finds are
such properties, whatever the files hold. -/
namespace EditorConfig
variable {limit : Nat}

structure Printable (key value : Text) : Prop where
  ne_nil : key ≠ []
  equals : '=' ∉ key
  key : Text.IsLine key
  value : Text.IsLine value

theorem Printable.of_subset {key value value' : Text} (h : Printable key value)
    (hv : value' ⊆ value) : Printable key value' :=
  ⟨h.ne_nil, h.equals, h.key, h.value.mono hv⟩

theorem isLine_lower {text : Text} (h : Text.IsLine text) : Text.IsLine (Text.lower text) :=
  ⟨fun hr => h.1 (Text.mem_of_mem_lower (by decide) hr),
    fun hn => h.2 (Text.mem_of_mem_lower (by decide) hn)⟩

theorem withoutComment_subset (value : Text) : withoutComment value ⊆ value := by
  unfold withoutComment
  cases hs : Text.before? [' ', ';'] value with
  | some start => exact (Text.prefix_of_before? hs).subset
  | none =>
    cases hc : Text.before? [' ', '#'] value with
    | some start => exact (Text.prefix_of_before? hc).subset
    | none => exact List.Subset.refl value

/-- The key ends in front of the first separator, and it begins with what is no white space. -/
theorem Statement.printable_option? {line key written : Text} (ht : line.IsTrimmed)
    (hl : line.IsLine) (h : option? line = some (key, written)) : Printable key written := by
  unfold option? at h
  split at h
  next c start d rest hk hd =>
    cases h
    have hs : c :: start <+: line := by
      rw [← hk]
      exact List.takeWhile_prefix _
    have hr : rest ⊆ line := by
      refine List.Subset.trans ?_ (List.dropWhile_suffix (!isSeparator ·)).subset
      rw [hd]
      exact List.subset_cons_self d rest
    have hb : Text.isBlank c = false := by
      have hh := Text.head_of_prefix hs ht.head
      simpa using hh
    have hn : '=' ∉ c :: start := by
      rw [← hk]
      intro hm
      exact absurd (List.mem_takeWhile_imp hm) (by decide)
    have hw : Text.trimStart rest ⊆ rest := (List.dropWhile_suffix Text.isBlank).subset
    refine ⟨Text.lower_ne_nil (Text.trim_ne_nil hb start), fun he => hn ?_,
      isLine_lower (hl.mono (List.Subset.trans (Text.trim_subset _) hs.subset)), ?_⟩
    · exact Text.trim_subset _ (Text.mem_of_mem_lower (by decide) he)
    · split
      · exact ⟨List.not_mem_nil, List.not_mem_nil⟩
      · exact hl.mono (List.Subset.trans hw hr)
  · cases h

theorem Watched.ok_of_mapError {α : Type} {w : Watched α} {f : Error → Error} {a : α}
    (h : (w.mapError f).result = .ok a) : w.result = .ok a := by
  have hr : (w.mapError f).result = w.result.mapError f := rfl
  rw [hr] at h
  cases hw : w.result with
  | ok b =>
    rw [hw] at h
    exact h
  | error e =>
    rw [hw] at h
    cases h

namespace Properties

def AllPrintable (m : Properties) : Prop :=
  ∀ key value, m.get? key = some value → Printable key value

theorem allPrintable_empty : AllPrintable .empty := by
  intro key value h
  rw [OrderedMap.get?_empty] at h
  cases h

theorem AllPrintable.insert {m : Properties} (h : m.AllPrintable) {key value : Text}
    (hp : Printable key value) : AllPrintable (m.insert key value) := by
  intro other written hg
  rw [OrderedMap.get?_insert] at hg
  split at hg
  next he =>
    cases hg
    rwa [← he]
  · exact h other written hg

theorem AllPrintable.overriddenBy {farther nearer : Properties} (hf : farther.AllPrintable)
    (hn : nearer.AllPrintable) : AllPrintable (farther.overriddenBy nearer) := by
  intro key value hg
  rw [get?_overriddenBy, Option.or_eq_some_iff] at hg
  cases hg with
  | inl hg => exact hn key value hg
  | inr hg => exact hf key value hg.2

theorem AllPrintable.lowered {m : Properties} (h : m.AllPrintable) : m.lowered.AllPrintable := by
  intro key value hg
  rw [get?_lowered] at hg
  obtain ⟨written, hw, rfl⟩ := Option.map_eq_some_iff.1 hg
  have hp := h key written hw
  unfold loweredValue
  split
  · exact ⟨hp.ne_nil, hp.equals, hp.key, isLine_lower hp.value⟩
  · exact hp

/-- The widths that stand in for each other are values that were there before. -/
theorem AllPrintable.normalized {m : Properties} (h : m.AllPrintable) :
    m.normalized.AllPrintable := by
  have hl := h.lowered
  rw [Properties.normalized]
  obtain ⟨width, -, hw, he⟩ | ⟨size, hs, -, -, he⟩ | ⟨-, he⟩ := withWidths_cases m.lowered
  · rw [he]
    exact hl.insert ⟨by decide, by decide, by decide, (hl _ _ hw).value⟩
  · rw [he]
    exact hl.insert ⟨by decide, by decide, by decide, (hl _ _ hs).value⟩
  · rwa [he]

end Properties

namespace Source
variable {observer : Observer} {path directory : Text}

theorem printable_of_mem_sections {text : Text} {source : Source}
    (h : (ofText limit observer text).result = .ok source) {s : Section} (hs : s ∈ source.sections)
    {key value : Text} (hv : (key, value) ∈ s.options.entries) : Printable key value := by
  obtain ⟨ss, rfl, hr⟩ := exists_statements h
  obtain ⟨written, hm, rfl⟩ := mem_split_options hs hv
  obtain ⟨line, hl, hw⟩ := mem_of_mapM hr hm
  split at hw
  · obtain ⟨raw, hraw, rfl⟩ := List.mem_map.1 hl
    have hp := Statement.printable_option? (Text.isTrimmed_bareLine raw)
      ((Text.isLine_of_mem_lines hraw).mono (Text.bareLine_subset raw))
      (Statement.option?_of_read hw)
    exact hp.of_subset (withoutComment_subset written)
  · cases hw

/-- A section that is visited gives none but its own options. -/
theorem accepted_of_visit {s : Section} {visit : Visit}
    (h : (s.visit limit observer path directory).result = .ok visit) :
    visit.accepted ⊆ s.options.entries := by
  unfold Section.visit at h
  split at h
  · rw [Watched.result_map, result_offer] at h
    cases h
    exact List.filter_subset_self _
  · cases h
    exact List.nil_subset _
  · cases h
    exact List.nil_subset _
  · cases h

theorem mem_of_accepted {sections : List Section} {visits : List Visit}
    (h : (visitAll limit observer path directory sections).result = .ok visits) {e : Text × Text}
    (he : e ∈ visits.flatMap Visit.accepted) : ∃ s ∈ sections, e ∈ s.options.entries := by
  induction sections generalizing visits with
  | nil =>
    cases h
    cases he
  | cons s sections ih =>
    obtain ⟨visit, hv, h⟩ := Watched.exists_of_bind h
    rw [Watched.result_map] at h
    cases hr : (visitAll limit observer path directory sections).result with
    | error e =>
      rw [hr] at h
      cases h
    | ok rest =>
      rw [hr] at h
      cases h
      rw [List.flatMap_cons, List.mem_append] at he
      cases he with
      | inl he => exact ⟨s, List.mem_cons_self, accepted_of_visit hv he⟩
      | inr he =>
        obtain ⟨t, ht, hm⟩ := ih hr he
        exact ⟨t, List.mem_cons_of_mem s ht, hm⟩

theorem allPrintable_options {source : Source} {options : Properties}
    (hs : ∀ s ∈ source.sections, ∀ key value, (key, value) ∈ s.options.entries →
      Printable key value)
    (h : (source.options limit observer path directory).result = .ok options) :
    options.AllPrintable := by
  obtain ⟨visits, hv, h⟩ := Watched.exists_of_bind h
  split at h
  · cases h
    intro key value hg
    have he := OrderedMap.mem_of_mem_ofList (OrderedMap.get?_eq_some_iff.1 hg)
    obtain ⟨s, hm, he⟩ := mem_of_accepted hv he
    exact hs s hm key value he
  · cases h

end Source

namespace Cascade
variable {c : Cascade} {observer : Observer} {stops : List Text} {path : Text}

theorem allPrintable_directoryOptions {directory : Text} {looked : Bool × Properties}
    (h : (c.directoryOptions observer path directory).result = .ok looked) :
    looked.2.AllPrintable := by
  unfold directoryOptions at h
  simp only at h
  split at h
  · rw [Watched.report_bind] at h
    split at h
    · cases hr : c.files.read (Path.join directory c.configName) with
      | error cause =>
        rw [hr] at h
        cases h
      | ok text =>
        rw [hr] at h
        obtain ⟨source, hs, h⟩ := Watched.exists_of_bind (Watched.ok_of_mapError h)
        obtain ⟨options, ho, h⟩ := Watched.exists_of_bind h
        cases h
        refine Source.allPrintable_options (fun s hm _ _ => ?_) ho
        exact Source.printable_of_mem_sections hs hm
    · cases h
      exact Properties.allPrintable_empty
  · cases h
    exact Properties.allPrintable_empty

theorem allPrintable_walk {directories : List Text} {found result : Properties}
    (hf : found.AllPrintable)
    (h : (c.walk observer stops path directories found).result = .ok result) :
    result.AllPrintable := by
  induction directories generalizing found with
  | nil =>
    cases h
    exact hf
  | cons directory farther ih =>
    rw [walk_cons, Watched.report_bind] at h
    split at h
    · obtain ⟨looked, hd, h⟩ := Watched.exists_of_bind h
      have hm := (allPrintable_directoryOptions hd).overriddenBy hf
      unfold walkOn at h
      split at h
      · cases h
        exact hm
      · exact ih hm h
    · cases h
      exact hf

theorem allPrintable_resolve {m : Properties}
    (h : (c.resolve observer stops path).result = .ok m) : m.AllPrintable := by
  cases hv : Version.require c.version with
  | error e =>
    rw [resolve_of_refused hv] at h
    cases h
  | ok =>
    cases hf : observer.file path with
    | false =>
      rw [resolve_of_ignored hv hf] at h
      cases h
      exact Properties.allPrintable_empty
    | true =>
      rw [resolve_eq_walk hv hf] at h
      cases hw : (c.walk observer (stops.map Path.normal) path (Path.ancestors path)
          .empty).result with
      | error e =>
        rw [hw] at h
        cases h
      | ok found =>
        rw [hw] at h
        cases h
        exact (allPrintable_walk Properties.allPrintable_empty hw).normalized

end Cascade
end EditorConfig
