import EditorConfig.Proofs.Cascade.Locality
import EditorConfig.Proofs.FileSystem.Tree
import EditorConfig.Proofs.Text.Line

/-! Files on a disk, and the same files in memory. Main statement: a resolution has the same result
over both and reports the same events, whatever ends the lines of the files. -/
namespace EditorConfig

namespace Source

theorem ofText_withLineFeeds (limit : Nat) (observer : Observer) (text : Text) :
    ofText limit observer (Text.withLineFeeds text) = ofText limit observer text := by
  rw [ofText, ofText, Text.lines_withLineFeeds]

end Source

namespace Cascade
variable {name version : Text} {observer : Observer} {path directory : Text}
variable {limits : Limits}

/-- What a directory has for a path depends only on the lines of its file. -/
theorem directoryOptions_congr {files files' : FileSystem}
    (hd : files'.isDirectory directory = files.isDirectory directory)
    (hf : files.isDirectory directory = true → files'.isFile (Path.join directory name) =
      files.isFile (Path.join directory name))
    (hr : files.isFile (Path.join directory name) = true →
      files'.read (Path.join directory name) =
        (files.read (Path.join directory name)).map Text.withLineFeeds) :
    directoryOptions ⟨name, version, files', limits⟩ observer path directory =
      directoryOptions ⟨name, version, files, limits⟩ observer path directory := by
  unfold directoryOptions
  simp only [hd]
  cases hi : files.isDirectory directory with
  | false => rfl
  | true =>
    simp only [hf hi]
    cases hx : files.isFile (Path.join directory name) with
    | false => rfl
    | true =>
      simp only [hr hx]
      cases files.read (Path.join directory name) with
      | error e => rfl
      | ok text => simp only [Except.map, Source.ofText_withLineFeeds]

/-- A directory of a disk has what it has in a memory of the same files. -/
theorem directoryOptions_disk {files : List (Text × Text)}
    (ht : Disk.IsTree (files.map Prod.fst)) (place : Place) (hd : Path.IsRelative directory)
    (hs : '/' ∉ name) :
    directoryOptions ⟨name, version, (Disk.ofFiles place files).fileSystem, limits⟩ observer path
        directory =
      directoryOptions ⟨name, version, (Memory.ofFiles files).fileSystem, limits⟩ observer path
        directory := by
  have hm : (Memory.ofFiles files).fileSystem.isFile (Path.join directory name) = true →
      Path.IsRelative (Path.join directory name) := by
    intro hf
    refine ht.relative _ (by_contra fun hn => ?_)
    rw [Memory.isFile_ofFiles, OrderedMap.get?_ofList_eq_none_iff.2 hn] at hf
    cases hf
  refine directoryOptions_congr (Disk.isDirectory_ofFiles ht hd) (fun hi => ?_) fun hf => ?_
  · by_cases hn : Path.IsName name
    · exact Disk.isFile_ofFiles ht (hd.join hn hs)
    · have hx : (Memory.ofFiles files).fileSystem.isFile (Path.join directory name) = false := by
        refine Bool.eq_false_iff.2 fun hf => hn (hm hf name ?_)
        rw [hd.components_join hs]
        exact List.mem_append_right _ (List.mem_singleton_self name)
      rw [hx, Disk.isFile_join ht (List.contains_iff_mem.1 hi) hs hn]
  · obtain ⟨text, hg⟩ := Option.isSome_iff_exists.1 hf
    rw [Disk.read_ofFiles ht (hm hf) hg, Memory.read_ofFiles hg]
    rfl

/-- Over files on a disk and over the same files in memory a resolution has the same result and
reports the same events. -/
theorem resolve_disk {files : List (Text × Text)} (ht : Disk.IsTree (files.map Prod.fst))
    (place : Place) {name path : Text} (hs : '/' ∉ name) (hp : Path.IsRelative path)
    (version : Text) (observer : Observer) (stops : List Text) :
    resolve ⟨name, version, (Disk.ofFiles place files).fileSystem, limits⟩ observer stops path =
      resolve ⟨name, version, (Memory.ofFiles files).fileSystem, limits⟩ observer stops path := by
  refine resolve_congr fun directory _ hd _ => ?_
  obtain ⟨hb, _⟩ := (Path.mem_ancestors_iff hp).1 hd
  exact directoryOptions_disk ht place (fun component hc => hp component (hb.subset hc)) hs

def mixed : List (Text × Text) :=
  [("p/.editorconfig".toList, "root=true\r\n[*]\ra=1\n[d/f/*]\r\r\nb=2".toList),
   ("p/d/.editorconfig/x".toList, "broken".toList), ("p/d/f".toList, [])]

/-- The path leads through a file, and then up to the file with sections. -/
theorem resolve_disk_mixed :
    Disk.IsTree (mixed.map Prod.fst) ∧ '/' ∉ defaultConfigName ∧
      Path.IsRelative "p/d/f/y".toList ∧
      (resolve ⟨defaultConfigName, currentVersion,
        (Disk.ofFiles ["w".toList] mixed).fileSystem, ⟨100, 100⟩⟩ .silent []
          "p/d/f/y".toList).result.map OrderedMap.entries =
        .ok [("a".toList, "1".toList), ("b".toList, "2".toList)] := by
  have ht : Disk.IsTree (mixed.map Prod.fst) :=
    ⟨by decide, by decide +kernel, by decide +kernel, by decide⟩
  have hs : '/' ∉ defaultConfigName := by decide
  have hp : Path.IsRelative "p/d/f/y".toList := by decide
  refine ⟨ht, hs, hp, ?_⟩
  rw [resolve_disk ht ["w".toList] hs hp]
  decide +kernel

end Cascade
end EditorConfig
