import EditorConfig.FileSystem.Disk
import EditorConfig.Proofs.Path.Relative

/-! The way down to a place of a disk. Main statement: a path of names leads to no other place than
that of its components, and it leads there if there are directories on the way. -/
namespace EditorConfig.Disk
open EditorConfig.Path

def under (place : Place) (path : Text) : Place := (components path).reverse ++ place

theorem under_injective (place : Place) : Function.Injective (under place) := by
  intro path path' h
  exact components_injective (List.reverse_injective (List.append_cancel_right h))

theorem suffix_under_iff {place : Place} {first : List Text} {path : Text} :
    first.reverse ++ place <:+ under place path ↔ first <+: components path := by
  rw [under, List.suffix_append_self_iff, List.reverse_suffix]

theorem checkName_eq_ok_iff {path : Text} :
    checkName path = .ok () ↔ '\x00' ∉ path ∧ path ≠ [] ∧ byteLength path ≤ longestPath := by
  rw [checkName]
  split_ifs with hz hn hl
  · exact iff_of_false nofun fun h => h.1 (List.contains_iff_mem.1 hz)
  · exact iff_of_false nofun fun h => h.2.1 hn
  · exact iff_of_false nofun fun h => Nat.not_le.2 hl h.2.2
  · exact iff_of_true rfl ⟨fun h => hz (List.contains_iff_mem.2 h), hn, Nat.not_lt.1 hl⟩

theorem byteLength_mono {path path' : Text} (h : path <+: path') :
    byteLength path ≤ byteLength path' := by
  obtain ⟨rest, rfl⟩ := h
  rw [byteLength, byteLength, String.ofList_append, String.utf8ByteSize_append]
  exact Nat.le_add_right _ _

theorem checkName_mono {path path' : Text} (h : path <+: path') (hn : path ≠ [])
    (hc : checkName path' = .ok ()) : checkName path = .ok () := by
  rw [checkName_eq_ok_iff] at hc ⊢
  exact ⟨fun hz => hc.1 (h.subset hz), hn, (byteLength_mono h).trans hc.2.2⟩

theorem start_eq {disk : Disk} {path : Text} (h : path.head? ≠ some '/') :
    disk.start path = disk.workingPlace := if_neg (by simpa [isAbsolute] using h)

section Enter
variable {disk : Disk} {place spot : Place} {name : Text} {names : List Text}

theorem enter_eq_ok (hd : disk.node? place = some .directory) (hn : IsName name)
    (hl : byteLength name ≤ longestName) (hs : (disk.node? (name :: place)).isSome) :
    disk.enter place name = .ok (name :: place) := by
  rw [enter, hd]
  simp only
  rw [if_neg (not_or.2 ⟨hn.ne_nil, hn.ne_dot⟩), if_neg hn.ne_dots, if_neg (Nat.not_lt.2 hl),
    if_pos hs]

theorem eq_of_enter (hn : IsName name) (h : disk.enter place name = .ok spot) :
    spot = name :: place := by
  rw [enter] at h
  split at h
  · cases h
  · rw [if_neg (not_or.2 ⟨hn.ne_nil, hn.ne_dot⟩), if_neg hn.ne_dots] at h
    split at h
    · cases h
    · split at h <;> cases h
      rfl
  · cases h

/-- A way down through directories arrives at what is there. -/
theorem foldlM_enter
    (hd : ∀ first name, first ++ [name] <+: names →
      disk.node? (first.reverse ++ place) = some .directory)
    (hn : ∀ name ∈ names, IsName name ∧ byteLength name ≤ longestName)
    (hs : (disk.node? (names.reverse ++ place)).isSome) :
    names.foldlM disk.enter place = .ok (names.reverse ++ place) := by
  induction names using List.reverseRecOn with
  | nil => rfl
  | append_singleton names name ih =>
    have hu := hd names name List.prefix_rfl
    have hi := ih (fun first name h => hd first name (h.trans (List.prefix_append names _)))
      (fun name h => hn name (List.mem_append_left _ h)) (by rw [hu]; rfl)
    obtain ⟨hm, hl⟩ := hn name (List.mem_append_right names (List.mem_singleton_self name))
    rw [List.reverse_append] at hs ⊢
    rw [List.foldlM_append, hi]
    exact (bind_pure _).trans (enter_eq_ok hu hm hl hs)

theorem eq_of_foldlM_enter (hn : ∀ name ∈ names, IsName name)
    (h : names.foldlM disk.enter place = .ok spot) : spot = names.reverse ++ place := by
  induction names generalizing place with
  | nil =>
    cases h
    rfl
  | cons name names ih =>
    rw [List.foldlM_cons] at h
    cases he : disk.enter place name with
    | error e =>
      rw [he] at h
      cases h
    | ok next =>
      rw [he] at h
      have hr := ih (fun name h => hn name (List.mem_cons_of_mem _ h)) h
      rw [hr, eq_of_enter (hn name List.mem_cons_self) he, List.reverse_cons, List.append_assoc]
      rfl

theorem eq_under_of_locate {path : Text} (hp : IsRelative path)
    (h : disk.locate path = .ok spot) : spot = under disk.workingPlace path := by
  rw [locate, start_eq hp.head?_ne] at h
  cases hc : checkName path with
  | error e =>
    rw [hc] at h
    cases h
  | ok =>
    rw [hc] at h
    exact eq_of_foldlM_enter hp h

theorem isDirectory_eq (disk : Disk) (path : Text) :
    disk.fileSystem.isDirectory path =
      match (disk.find path).toOption with
      | some .directory => true
      | _ => false := by
  simp only [fileSystem]
  cases disk.find path with
  | error e => rfl
  | ok node => cases node <;> rfl

theorem isFile_eq (disk : Disk) (path : Text) :
    disk.fileSystem.isFile path =
      match (disk.find path).toOption with
      | none | some .directory => false
      | some _ => true := by
  simp only [fileSystem]
  cases disk.find path with
  | error e => rfl
  | ok node => cases node <;> rfl

end Enter

end EditorConfig.Disk
