import EditorConfig.FileSystem.Memory
import EditorConfig.Proofs.Cascade.Order
import EditorConfig.Proofs.Properties

/-! Walks that end sooner. Main statement: where a resolution has a result, one with more stop
directories has a result too, visits an initial segment of the directories, and finds no property
with another value, apart from the widths. -/
namespace EditorConfig

namespace Watched
variable {α β : Type} {found found' : Properties}

/-- One run is the beginning of another if that has a result: it has one as well, its events are
the first ones of the other, and what it finds the other finds too. -/
def Opens (w' w : Watched Properties) : Prop :=
  ∀ found, w.result = .ok found →
    ∃ found', w'.result = .ok found' ∧ w'.events <+: w.events ∧
      ∀ key value, found'.get? key = some value → found.get? key = some value

theorem Opens.refl (w : Watched Properties) : w.Opens w := by
  intro found hw
  exact ⟨found, hw, List.prefix_rfl, fun _ _ => id⟩

theorem Opens.trans {w₁ w₂ w₃ : Watched Properties} (h : w₁.Opens w₂) (h' : w₂.Opens w₃) :
    w₁.Opens w₃ := by
  intro found₃ hw₃
  obtain ⟨found₂, hw₂, he, hv⟩ := h' found₃ hw₃
  obtain ⟨found₁, hw₁, he', hv'⟩ := h found₂ hw₂
  exact ⟨found₁, hw₁, he'.trans he, fun key value hk => hv key value (hv' key value hk)⟩

/-- Runs that begin with the same step compare like what they do behind it. -/
theorem Opens.bind (w : Watched α) {next next' : α → Watched Properties}
    (h : ∀ a, (next' a).Opens (next a)) : (w >>= next').Opens (w >>= next) := by
  intro found hw
  obtain ⟨a, hr, hn⟩ := exists_of_bind hw
  obtain ⟨found', hw', he, hv⟩ := h a found hn
  rw [bind_ok hr, bind_ok hr]
  exact ⟨found', hw', (List.prefix_append_right_inj w.events).2 he, hv⟩

theorem pure_opens_pure (h : ∀ key value, found'.get? key = some value →
    found.get? key = some value) : Opens (pure found') (pure found) := by
  intro result hr
  cases hr
  exact ⟨found', rfl, List.prefix_rfl, h⟩

theorem pure_opens_bind (w : Watched α) {next : α → Watched Properties}
    (h : ∀ a, Opens (pure found) (next a)) : Opens (pure found) (w >>= next) := by
  intro result hw
  obtain ⟨a, -, hn⟩ := exists_of_bind hw
  obtain ⟨found', hw', -, hv⟩ := h a result hn
  exact ⟨found', hw', List.nil_prefix, hv⟩

end Watched

namespace Cascade
variable {c : Cascade} {observer : Observer} {stops stops' : List Text} {path : Text}

theorem pure_opens_overriddenBy (farther found : Properties) :
    (pure found : Watched Properties).Opens (pure (farther.overriddenBy found)) := by
  apply Watched.pure_opens_pure
  intro key value hk
  rw [Properties.get?_overriddenBy, hk, Option.some_or]

/-- What has been found stays as it is, however far the walk goes on. -/
theorem pure_opens_walk (c : Cascade) (observer : Observer) (stops : List Text) (path : Text)
    (directories : List Text) (found : Properties) :
    (pure found : Watched Properties).Opens (c.walk observer stops path directories found) := by
  induction directories generalizing found with
  | nil => exact Watched.Opens.refl _
  | cons directory farther ih =>
    rw [walk_cons]
    apply Watched.pure_opens_bind
    intro _
    split
    · apply Watched.pure_opens_bind
      intro looked
      have ho := pure_opens_overriddenBy looked.2 found
      unfold walkOn
      split
      · exact ho
      · exact ho.trans (ih _)
    · exact Watched.Opens.refl _

theorem walkOn_opens (hs : ∀ s ∈ stops, s ∈ stops') {directory : Text} {farther : List Text}
    (hf : ∀ found, (c.walk observer stops' path farther found).Opens
      (c.walk observer stops path farther found))
    (found : Properties) (looked : Bool × Properties) :
    (c.walkOn observer stops' path directory farther found looked).Opens
      (c.walkOn observer stops path directory farther found looked) := by
  unfold walkOn
  -- the longer walk may go on where this one ends, but not the other way round
  by_cases h : (looked.1 || stops.contains (Path.normal directory)) = true
  · have h' : (looked.1 || stops'.contains (Path.normal directory)) = true := by
      rw [Bool.or_eq_true, List.contains_iff_mem] at h ⊢
      exact h.imp_right (hs _)
    rw [if_pos h, if_pos h']
    exact Watched.Opens.refl _
  · rw [if_neg h]
    split
    · exact pure_opens_walk c observer stops path farther _
    · exact hf _

theorem walk_opens (hs : ∀ s ∈ stops, s ∈ stops') (directories : List Text) (found : Properties) :
    (c.walk observer stops' path directories found).Opens
      (c.walk observer stops path directories found) := by
  induction directories generalizing found with
  | nil => exact Watched.Opens.refl _
  | cons directory farther ih =>
    rw [walk_cons, walk_cons]
    apply Watched.Opens.bind
    intro _
    split
    · exact Watched.Opens.bind _ (walkOn_opens hs ih found)
    · exact Watched.Opens.refl _

theorem directories_resolve (hv : Version.require c.version = .ok ())
    (hf : observer.file path = true) :
    (c.resolve observer stops path).events.filterMap Event.directory? =
      (c.walk observer (stops.map Path.normal) path (Path.ancestors path) .empty).events.filterMap
        Event.directory? := by
  rw [resolve_eq_walk hv hf]
  exact directories_around path _ _

/-- With more directories to stop at there is a result if there was one, the visits are the first
ones of those before, and each property apart from the widths has been found before. -/
theorem resolve_more_stops {R : Properties} (hs : ∀ s ∈ stops, s ∈ stops')
    (h : (c.resolve observer stops path).result = .ok R) :
    ∃ R', (c.resolve observer stops' path).result = .ok R' ∧
      (c.resolve observer stops' path).events.filterMap Event.directory? <+:
        (c.resolve observer stops path).events.filterMap Event.directory? ∧
      ∀ key value, (key, value) ∈ R'.entries → key ≠ Properties.indentSize →
        key ≠ Properties.tabWidth → (key, value) ∈ R.entries := by
  cases hv : Version.require c.version with
  | error e =>
    rw [resolve_of_refused hv] at h
    cases h
  | ok =>
    cases hf : observer.file path with
    | false =>
      rw [resolve_of_ignored hv hf] at h ⊢
      rw [resolve_of_ignored hv hf]
      exact ⟨R, h, List.prefix_rfl, fun _ _ hm _ _ => hm⟩
    | true =>
      have hn : ∀ s ∈ stops.map Path.normal, s ∈ stops'.map Path.normal :=
        List.map_subset Path.normal hs
      rw [directories_resolve hv hf, directories_resolve hv hf]
      rw [resolve_eq_walk hv hf] at h ⊢
      cases hw : (c.walk observer (stops.map Path.normal) path (Path.ancestors path)
          .empty).result with
      | error e =>
        rw [hw] at h
        cases h
      | ok found =>
        rw [hw] at h
        cases h
        obtain ⟨found', hw', he, hg⟩ := walk_opens hn _ _ found hw
        exact ⟨found'.normalized, congrArg (Except.map _) hw', he.filterMap _,
          fun key value hm hi ht => Properties.mem_normalized_of_get? hg hi ht hm⟩

def twoWidths : Cascade where
  configName := defaultConfigName
  version := currentVersion
  limits := ⟨100, 100⟩
  files := (Memory.ofFiles
    [("/.editorconfig".toList, "[*]\nk=1\ntab_width=4".toList),
     ("/p/.editorconfig".toList, "[*]\nk=2\nindent_size=3".toList)]).fileSystem

theorem resolve_more_stops_twoWidths :
    (∀ s ∈ ([] : List Text), s ∈ ["/p/".toList]) ∧
      ∃ R, (twoWidths.resolve .silent [] "/p/x".toList).result = .ok R ∧
        R.entries = [("k".toList, "2".toList), ("tab_width".toList, "4".toList),
          ("indent_size".toList, "3".toList)] ∧
        ∃ R', (twoWidths.resolve .silent ["/p/".toList] "/p/x".toList).result = .ok R' ∧
          (twoWidths.resolve .silent ["/p/".toList] "/p/x".toList).events.filterMap
              Event.directory? <+:
            (twoWidths.resolve .silent [] "/p/x".toList).events.filterMap Event.directory? ∧
          ∀ key value, (key, value) ∈ R'.entries → key ≠ Properties.indentSize →
            key ≠ Properties.tabWidth → (key, value) ∈ R.entries := by
  have hs : ∀ s ∈ ([] : List Text), s ∈ ["/p/".toList] := nofun
  have he : (twoWidths.resolve .silent [] "/p/x".toList).result.map OrderedMap.entries =
      .ok [("k".toList, "2".toList), ("tab_width".toList, "4".toList),
        ("indent_size".toList, "3".toList)] := by
    decide +kernel
  cases hr : (twoWidths.resolve .silent [] "/p/x".toList).result with
  | error e =>
    rw [hr] at he
    cases he
  | ok R =>
    rw [hr] at he
    exact ⟨hs, R, rfl, Except.ok.inj he, resolve_more_stops hs hr⟩

/-- Without the farther file the size stands in for the width. -/
example : (twoWidths.resolve .silent ["/p/".toList] "/p/x".toList).result.map OrderedMap.entries =
    .ok [("k".toList, "2".toList), ("indent_size".toList, "3".toList),
      ("tab_width".toList, "3".toList)] := by
  decide +kernel

end Cascade
end EditorConfig
