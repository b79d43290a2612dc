import EditorConfig.FileSystem.Memory
import EditorConfig.Proofs.FileSystem.Descent
import EditorConfig.Proofs.OrderedMap

/-! Files that are stored under a place of a disk. Main statement: a relative path leads to what
is stored at its place, which is a directory if and only if a memory of the same files knows it
as one. -/
namespace EditorConfig

namespace Memory

/-- The directories are those above the files. -/
theorem mem_directories_ofFiles {files : List (Text × Text)} {directory : Text} :
    directory ∈ (ofFiles files).directories ↔
      ∃ path ∈ files.map Prod.fst, directory ∈ Path.ancestors path := by
  have hk := fun key => OrderedMap.mem_keys_insertAll .empty key files
  have he : (OrderedMap.ofList files).entries.flatMap (fun e => Path.ancestors e.1) =
      ((OrderedMap.ofList files).entries.map Prod.fst).flatMap Path.ancestors := by
    rw [List.flatMap_map]
  rw [ofFiles, List.mem_eraseDups, he, List.mem_flatMap]
  simp only [OrderedMap.ofList, hk]
  simp [OrderedMap.empty]

theorem isFile_ofFiles (files : List (Text × Text)) (path : Text) :
    (ofFiles files).fileSystem.isFile path = ((OrderedMap.ofList files).get? path).isSome := rfl

theorem read_ofFiles {files : List (Text × Text)} {path text : Text}
    (h : (OrderedMap.ofList files).get? path = some text) :
    (ofFiles files).fileSystem.read path = .ok text := by
  simp only [fileSystem, ofFiles, h]

end Memory

namespace Disk
open EditorConfig.Path

def encode (text : Text) : ByteArray := (String.ofList text).toUTF8

def ofFiles (place : Place) (files : List (Text × Text)) : Disk :=
  ⟨.ofList (files.map fun e => (under place e.1, .file (encode e.2))), place⟩

/-- Paths that files can have all at once: nothing is too long or forbidden in them, and none of
them leads through another one. -/
structure IsTree (paths : List Text) : Prop where
  relative : ∀ path ∈ paths, IsRelative path
  allowed : ∀ path ∈ paths, checkName path = .ok ()
  short : ∀ path ∈ paths, ∀ name ∈ components path, byteLength name ≤ longestName
  apart : ∀ path ∈ paths, ∀ path' ∈ paths, components path <+: components path' → path = path'

theorem decode_encode (text : Text) : decode (encode text) = .ok (Text.withLineFeeds text) := by
  have h : String.fromUTF8? (encode text) = some (String.ofList text) :=
    dif_pos (String.ofList text).isValidUTF8
  rw [decode, h]
  simp only [String.toList_ofList]

section Tree
variable {place : Place} {files : List (Text × Text)} {path : Text} {first : List Text}

theorem mem_places {spot : Place} :
    spot ∈ (ofFiles place files).nodes.entries.map Prod.fst ↔
      ∃ path ∈ files.map Prod.fst, under place path = spot := by
  rw [ofFiles, OrderedMap.ofList, OrderedMap.mem_keys_insertAll, List.map_map]
  simp [OrderedMap.empty]

theorem any_suffix_iff :
    ((ofFiles place files).nodes.entries.any fun e => (first.reverse ++ place).isSuffixOf e.1) =
      true ↔ ∃ path ∈ files.map Prod.fst, first <+: components path := by
  simp only [List.any_eq_true, List.isSuffixOf_iff_suffix]
  constructor
  · intro ⟨e, he, hs⟩
    obtain ⟨path, hp, hu⟩ := mem_places.1 (List.mem_map_of_mem he)
    exact ⟨path, hp, suffix_under_iff.1 (hu ▸ hs)⟩
  · intro ⟨path, hp, hf⟩
    obtain ⟨e, he, hu⟩ := List.mem_map.1 (mem_places.2 ⟨path, hp, rfl⟩)
    exact ⟨e, he, hu ▸ suffix_under_iff.2 hf⟩

theorem suffix_place_iff : first.reverse ++ place <:+ place ↔ first = [] := by
  constructor
  · intro h
    have hl := h.length_le
    rw [List.length_append, List.length_reverse] at hl
    exact List.eq_nil_of_length_eq_zero (by omega)
  · intro h
    rw [h]
    exact List.suffix_rfl

/-- Where no file is stored, there is a directory if the place is on the way to a file. -/
theorem node?_eq_ite (hn : ∀ path ∈ files.map Prod.fst, components path ≠ first) :
    (ofFiles place files).node? (first.reverse ++ place) =
      if first = [] ∨ ∃ path ∈ files.map Prod.fst, first <+: components path
      then some .directory else none := by
  have hg : (ofFiles place files).nodes.get? (first.reverse ++ place) = none := by
    refine Entries.get?_eq_none_iff.2 fun hm => ?_
    obtain ⟨path, hp, hu⟩ := mem_places.1 hm
    exact hn path hp (List.reverse_injective (List.append_cancel_right hu))
  rw [node?, hg]
  refine if_congr ?_ rfl rfl
  rw [Bool.or_eq_true, List.isSuffixOf_iff_suffix]
  exact or_congr suffix_place_iff any_suffix_iff

theorem get?_under : (ofFiles place files).nodes.get? (under place path) =
    ((OrderedMap.ofList files).get? path).map fun text => .file (encode text) := by
  have he : ∀ path, (OrderedMap.empty : OrderedMap Place Node).get? (under place path) =
      ((OrderedMap.empty : OrderedMap Text Text).get? path).map fun text =>
        .file (encode text) := fun _ => rfl
  exact OrderedMap.get?_insertAll_map (under_injective place) he files path

/-- At the place of a path stands the file with this path, or a directory on the way to one. -/
theorem node?_under :
    (ofFiles place files).node? (under place path) =
      match (OrderedMap.ofList files).get? path with
      | some text => some (.file (encode text))
      | none =>
        if ∃ file ∈ files.map Prod.fst, components path <+: components file
        then some .directory else none := by
  cases hg : (OrderedMap.ofList files).get? path with
  | some text =>
    have hn : (ofFiles place files).nodes.get? (under place path) =
        some (.file (encode text)) := by rw [get?_under, hg, Option.map_some]
    simp only [node?, hn]
  | none =>
    have hk := OrderedMap.get?_ofList_eq_none_iff.1 hg
    have hne : ∀ file ∈ files.map Prod.fst, components file ≠ components path :=
      fun file hm he => hk (components_injective he ▸ hm)
    rw [under, node?_eq_ite hne]
    exact if_congr (or_iff_right (components_ne_nil path)) rfl rfl

theorem isSome_node?_under :
    ((ofFiles place files).node? (under place path)).isSome ↔
      ∃ file ∈ files.map Prod.fst, components path <+: components file := by
  rw [node?_under]
  cases hg : (OrderedMap.ofList files).get? path with
  | some text =>
    have hm : path ∈ files.map Prod.fst := by
      by_contra hn
      rw [OrderedMap.get?_ofList_eq_none_iff.2 hn] at hg
      cases hg
    exact iff_of_true rfl ⟨path, hm, List.prefix_rfl⟩
  | none =>
    by_cases h : ∃ file ∈ files.map Prod.fst, components path <+: components file
    · exact iff_of_true (by rw [if_pos h]; rfl) h
    · exact iff_of_false (by rw [if_neg h]; exact Bool.false_ne_true) h

/-- A file stands in a directory, and that in another one up to where relative paths begin. -/
theorem node?_above (ht : IsTree (files.map Prod.fst)) {file name : Text}
    (hm : file ∈ files.map Prod.fst) (hb : first ++ [name] <+: components file) :
    (ofFiles place files).node? (first.reverse ++ place) = some .directory := by
  have hf : first <+: components file := (List.prefix_append first [name]).trans hb
  have hn : ∀ file' ∈ files.map Prod.fst, components file' ≠ first := by
    intro file' hm' he
    have hl := hb.length_le
    rw [← ht.apart file' hm' file hm (he ▸ hf), he, List.length_append, List.length_singleton] at hl
    omega
  rw [node?_eq_ite hn, if_pos (.inr ⟨file, hm, hf⟩)]

end Tree

section Find
variable {place : Place} {files : List (Text × Text)} {path : Text}

/-- The first components of a file's path lead down to their place. -/
theorem foldlM_components (ht : IsTree (files.map Prod.fst)) {file : Text}
    (hm : file ∈ files.map Prod.fst) (hf : components path <+: components file) :
    (components path).foldlM (ofFiles place files).enter place = .ok (under place path) :=
  foldlM_enter (fun _ _ h => node?_above ht hm (h.trans hf))
    (fun name hn => ⟨ht.relative file hm name (hf.subset hn),
      ht.short file hm name (hf.subset hn)⟩) (isSome_node?_under.2 ⟨file, hm, hf⟩)

theorem locate_eq_ok (ht : IsTree (files.map Prod.fst)) {file : Text}
    (hm : file ∈ files.map Prod.fst) (hf : components path <+: components file) :
    (ofFiles place files).locate path = .ok (under place path) := by
  have hr := ht.relative file hm
  have hp : IsRelative path := fun name hn => hr name (hf.subset hn)
  have hb : path <+: file := by
    by_cases he : path = file
    · exact he ▸ List.prefix_rfl
    · exact isPrefix_of_mem_ancestors ((mem_ancestors_iff hr).2 ⟨hf, he⟩)
  rw [locate, checkName_mono hb hp.ne_nil (ht.allowed file hm), start_eq hp.head?_ne]
  exact foldlM_components ht hm hf

/-- A relative path leads to what is at its place. -/
theorem toOption_find (ht : IsTree (files.map Prod.fst)) (hp : IsRelative path) :
    ((ofFiles place files).find path).toOption =
      (ofFiles place files).node? (under place path) := by
  rw [find]
  cases hn : (ofFiles place files).node? (under place path) with
  | some node =>
    obtain ⟨file, hm, hf⟩ := isSome_node?_under.1 (by rw [hn]; rfl)
    simp only [locate_eq_ok ht hm hf, bind, Except.bind, hn]
    rfl
  | none =>
    cases hl : (ofFiles place files).locate path with
    | error e => rfl
    | ok spot =>
      have hs : spot = under place path := eq_under_of_locate hp hl
      simp only [hs, bind, Except.bind, hn]
      rfl

/-- The directories of a memory are those on the way to a file. -/
theorem mem_directories_iff (ht : IsTree (files.map Prod.fst)) :
    path ∈ (Memory.ofFiles files).directories ↔
      (OrderedMap.ofList files).get? path = none ∧
        ∃ file ∈ files.map Prod.fst, components path <+: components file := by
  rw [Memory.mem_directories_ofFiles, OrderedMap.get?_ofList_eq_none_iff]
  constructor
  · intro ⟨file, hm, ha⟩
    obtain ⟨hf, hne⟩ := (mem_ancestors_iff (ht.relative file hm)).1 ha
    exact ⟨fun hp => hne (ht.apart path hp file hm hf), file, hm, hf⟩
  · intro ⟨hp, file, hm, hf⟩
    exact ⟨file, hm, (mem_ancestors_iff (ht.relative file hm)).2 ⟨hf, fun he => hp (he ▸ hm)⟩⟩

theorem isDirectory_ofFiles (ht : IsTree (files.map Prod.fst)) (hp : IsRelative path) :
    (ofFiles place files).fileSystem.isDirectory path =
      (Memory.ofFiles files).fileSystem.isDirectory path := by
  have hd : (Memory.ofFiles files).fileSystem.isDirectory path = true ↔ _ :=
    List.contains_iff_mem.trans (mem_directories_iff ht)
  rw [Bool.eq_iff_iff, hd, isDirectory_eq, toOption_find ht hp, node?_under]
  cases (OrderedMap.ofList files).get? path with
  | some text => simp
  | none =>
    by_cases h : ∃ file ∈ files.map Prod.fst, components path <+: components file
    · rw [if_pos h]
      exact iff_of_true rfl ⟨rfl, h⟩
    · rw [if_neg h]
      exact iff_of_false Bool.false_ne_true fun hn => h hn.2

theorem isFile_ofFiles (ht : IsTree (files.map Prod.fst)) (hp : IsRelative path) :
    (ofFiles place files).fileSystem.isFile path =
      ((OrderedMap.ofList files).get? path).isSome := by
  rw [isFile_eq, toOption_find ht hp, node?_under]
  cases (OrderedMap.ofList files).get? path with
  | some text => rfl
  | none =>
    by_cases h : ∃ file ∈ files.map Prod.fst, components path <+: components file
    · simp only [if_pos h, Option.isSome_none]
    · simp only [if_neg h, Option.isSome_none]

theorem read_ofFiles (ht : IsTree (files.map Prod.fst)) (hp : IsRelative path) {text : Text}
    (hg : (OrderedMap.ofList files).get? path = some text) :
    (ofFiles place files).fileSystem.read path = .ok (Text.withLineFeeds text) := by
  have hf : ((ofFiles place files).find path).toOption = some (.file (encode text)) := by
    rw [toOption_find ht hp, node?_under, hg]
  cases he : (ofFiles place files).find path with
  | error e =>
    rw [he] at hf
    cases hf
  | ok node =>
    rw [he] at hf
    cases hf
    simp only [fileSystem, bytes, he]
    exact decode_encode text

/-- To say where something is, from a directory, leads to a directory. -/
theorem enter_directory (ht : IsTree (files.map Prod.fst)) {name : Text}
    (hd : path ∈ (Memory.ofFiles files).directories) (hn : ¬ IsName name) :
    ∃ spot, (ofFiles place files).enter (under place path) name = .ok spot ∧
      (ofFiles place files).node? spot = some .directory := by
  obtain ⟨hg, file, hm, hf⟩ := (mem_directories_iff ht).1 hd
  have hu : (ofFiles place files).node? (under place path) = some .directory := by
    rw [node?_under, hg]
    exact if_pos ⟨file, hm, hf⟩
  by_cases hw : name = [] ∨ name = ['.']
  · refine ⟨under place path, ?_, hu⟩
    rw [enter, hu]
    exact if_pos hw
  · have hs : name = ['.', '.'] := by
      by_contra hs
      rw [not_or] at hw
      exact hn ⟨hw.1, hw.2, hs⟩
    refine ⟨(under place path).tail, ?_, ?_⟩
    · rw [enter, hu]
      simp only
      rw [if_neg hw, if_pos hs]
    · have hc := List.dropLast_append_getLast (components_ne_nil path)
      rw [under, ← hc, List.reverse_append]
      exact node?_above ht hm (hc ▸ hf)

/-- A way to say where something is leads to no file. -/
theorem isFile_join (ht : IsTree (files.map Prod.fst)) {directory name : Text}
    (hd : directory ∈ (Memory.ofFiles files).directories) (hs : '/' ∉ name) (hn : ¬ IsName name) :
    (ofFiles place files).fileSystem.isFile (join directory name) = false := by
  obtain ⟨_, file, hm, hf⟩ := (mem_directories_iff ht).1 hd
  have hr : IsRelative directory := fun name hn => ht.relative file hm name (hf.subset hn)
  have hh : (join directory name).head? ≠ some '/' := by
    rw [hr.join_eq hs, List.head?_append_of_ne_nil _ hr.ne_nil]
    exact hr.head?_ne
  obtain ⟨spot, he, hu⟩ := enter_directory ht hd hn
  have hl : (components (join directory name)).foldlM (ofFiles place files).enter
      ((ofFiles place files).start (join directory name)) = .ok spot := by
    rw [start_eq hh, hr.components_join hs, List.foldlM_append]
    exact (congrArg (· >>= _) (foldlM_components ht hm hf)).trans ((bind_pure _).trans he)
  rw [isFile_eq, find, locate]
  cases checkName (join directory name) with
  | error e => rfl
  | ok =>
    simp only [hl, bind, Except.bind, hu]
    rfl

end Find

end Disk
end EditorConfig
