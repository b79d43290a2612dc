import EditorConfig.Proofs.Cascade.Locality
import EditorConfig.Proofs.FileSystem.Tree
import EditorConfig.Proofs.Source.Vetoes

/-! Files and lines that an observer stops. Main statement: a resolution has the result that it
would have if the files were deleted and the lines empty. -/
namespace EditorConfig

def Observer.vetoing (configs lines : Text → Bool) : Observer :=
  { Observer.silent with config := fun path => !configs path, line := fun line => !lines line }

namespace Memory

def without (configs lines : Text → Bool) (files : List (Text × Text)) : List (Text × Text) :=
  (files.filter fun e => !configs e.1).map fun e =>
    (e.1, Text.blanked (fun line => lines (Text.bareLine line)) e.2)

theorem mem_directories_of_without {configs lines : Text → Bool} {files : List (Text × Text)}
    {directory : Text} (h : directory ∈ (ofFiles (without configs lines files)).directories) :
    directory ∈ (ofFiles files).directories := by
  rw [mem_directories_ofFiles] at h ⊢
  obtain ⟨path, hp, hd⟩ := h
  refine ⟨path, ?_, hd⟩
  rw [without, List.map_map] at hp
  obtain ⟨e, he, rfl⟩ := List.mem_map.1 hp
  exact List.mem_map.2 ⟨e, List.mem_of_mem_filter he, rfl⟩

theorem get?_without (configs lines : Text → Bool) (files : List (Text × Text)) (path : Text) :
    (OrderedMap.ofList (without configs lines files)).get? path =
      if configs path then none
      else ((OrderedMap.ofList files).get? path).map
        (Text.blanked fun line => lines (Text.bareLine line)) := by
  refine OrderedMap.get?_insertAll_filter (fun key => ?_) files path
  split <;> rfl

/-- A file that has no name, in a directory of separators, is the directory itself, and is found
only while something else lies below it. The files that are left have to keep it so. -/
def StaysKnown (configs lines : Text → Bool) (files : List (Text × Text)) (name directory : Text) :
    Prop :=
  name = [] → (∀ c ∈ directory, c = '/') → configs (Path.join directory name) = false →
    ((ofFiles files).config? name directory).isSome →
      directory ∈ (ofFiles (without configs lines files)).directories

theorem config?_eq_ite (files : List (Text × Text)) (name directory : Text) :
    (ofFiles files).config? name directory =
      if directory ∈ (ofFiles files).directories then
        (OrderedMap.ofList files).get? (Path.join directory name) else none := by
  simp only [config?, List.contains_iff_mem]
  rfl

theorem config?_without {configs lines : Text → Bool} {files : List (Text × Text)}
    {name path directory : Text} (hd : directory ∈ Path.ancestors path) (hs : '/' ∉ name)
    (hk : StaysKnown configs lines files name directory) :
    (ofFiles (without configs lines files)).config? name directory =
      if configs (Path.join directory name) then none
      else ((ofFiles files).config? name directory).map
        (Text.blanked fun line => lines (Text.bareLine line)) := by
  by_cases hn : name = [] → ∃ c ∈ directory, c ≠ '/'
  · rw [config?_ofFiles _ hd hs hn, config?_ofFiles _ hd hs hn, get?_without]
  · rw [Classical.not_imp] at hn
    obtain ⟨hz, ha⟩ := hn
    have hk' := hk hz fun c hc => by_contra fun hne => ha ⟨c, hc, hne⟩
    rw [config?_eq_ite, get?_without]
    cases hc : configs (Path.join directory name) with
    | true => exact ite_self none
    | false =>
      rw [if_neg Bool.false_ne_true, if_neg Bool.false_ne_true]
      by_cases hm : directory ∈ (ofFiles (without configs lines files)).directories
      · rw [if_pos hm, config?_eq_ite, if_pos (mem_directories_of_without hm)]
      · rw [if_neg hm]
        cases hs : (ofFiles files).config? name directory with
        | none => rfl
        | some text => exact absurd (hk' hc (by rw [hs]; rfl)) hm

end Memory

namespace Cascade
variable {path : Text} {limits : Limits}

/-- In each directory an observer stops what is not there without it. -/
theorem result_directoryOptions_without {configs lines : Text → Bool}
    {files : List (Text × Text)} {name directory : Text} (hs : '/' ∉ name)
    (hd : directory ∈ Path.ancestors path)
    (hk : Memory.StaysKnown configs lines files name directory) (version : Text) :
    (directoryOptions ⟨name, version, (Memory.ofFiles (Memory.without configs lines
      files)).fileSystem, limits⟩ .silent path directory).result =
    (directoryOptions ⟨name, version, (Memory.ofFiles files).fileSystem, limits⟩
      (.vetoing configs lines) path directory).result := by
  rw [directoryOptions_memory, directoryOptions_memory, Memory.config?_without hd hs hk]
  cases (Memory.ofFiles files).config? name directory with
  | none => cases configs (Path.join directory name) <;> rfl
  | some text =>
    cases hc : configs (Path.join directory name) with
    | true =>
      have ho : (Observer.vetoing configs lines).config (Path.join directory name) = false :=
        congrArg (!·) hc
      simp only [if_true, ho]
      rfl
    | false =>
      have ho : (Observer.vetoing configs lines).config (Path.join directory name) = true :=
        congrArg (!·) hc
      have hn : (Observer.vetoing configs lines).option = Observer.silent.option := rfl
      have hl : (fun l => !(Observer.vetoing configs lines).line (Text.bareLine l)) =
          fun l => lines (Text.bareLine l) := funext fun l => Bool.not_not _
      have hr := @Source.result_read_blanked limits.reading limits.visiting _ hn text path directory
      rw [hl] at hr
      simp only [Bool.false_eq_true, if_false, Option.map_some, ho, Watched.report_bind, if_true]
      exact congrArg (Except.mapError (Error.inFile (Path.join directory name))) hr

/-- Stopping files and lines has the result that deleting the files and emptying the lines has. -/
theorem resolve_without {files : List (Text × Text)} {name : Text} (hs : '/' ∉ name)
    (configs lines : Text → Bool) (version : Text) (stops : List Text) (path : Text)
    (hk : ∀ d, (resolve ⟨name, version, (Memory.ofFiles files).fileSystem, limits⟩
      (.vetoing configs lines) stops path).Visits d →
        Memory.StaysKnown configs lines files name d) :
    (resolve ⟨name, version, (Memory.ofFiles (Memory.without configs lines files)).fileSystem,
      limits⟩ .silent stops path).result =
    (resolve ⟨name, version, (Memory.ofFiles files).fileSystem, limits⟩
      (.vetoing configs lines) stops path).result := by
  have ho : (Observer.silent).directory = (Observer.vetoing configs lines).directory := rfl
  exact resolve_related Watched.isCongruence_result rfl ho fun d hv hd _ =>
    result_directoryOptions_without hs hd (hk d hv) version

def obstructed : List (Text × Text) :=
  [("/p/.editorconfig".toList, "root=true\n[*]\na=1".toList),
   ("/.editorconfig".toList, "[*]\nb=1\r\n[x]\rbroken\nc=1".toList)]

/-- Without the root, the other section's header and the bad line, all that is left is one section
with two options. -/
theorem resolve_without_obstructed :
    '/' ∉ defaultConfigName ∧
      (∀ d, (resolve ⟨defaultConfigName, currentVersion, (Memory.ofFiles obstructed).fileSystem,
          ⟨100, 100⟩⟩
        (.vetoing (· == "/p/.editorconfig".toList) ["[x]".toList, "broken".toList].contains) []
          "/p/y".toList).Visits d →
        Memory.StaysKnown (· == "/p/.editorconfig".toList) ["[x]".toList, "broken".toList].contains
          obstructed defaultConfigName d) ∧
      (resolve ⟨defaultConfigName, currentVersion, (Memory.ofFiles obstructed).fileSystem,
          ⟨100, 100⟩⟩
        (.vetoing (· == "/p/.editorconfig".toList) ["[x]".toList, "broken".toList].contains) []
          "/p/y".toList).result.map OrderedMap.entries =
        .ok [("b".toList, "1".toList), ("c".toList, "1".toList)] := by
  have hs : '/' ∉ defaultConfigName := by decide
  have hk : ∀ directory, Memory.StaysKnown (· == "/p/.editorconfig".toList)
      ["[x]".toList, "broken".toList].contains obstructed defaultConfigName directory :=
    fun _ h => absurd h (by decide)
  refine ⟨hs, fun d _ => hk d, ?_⟩
  rw [← resolve_without hs _ _ currentVersion [] _ fun d _ => hk d]
  decide +kernel

def namelessTwice : List (Text × Text) := [("/".toList, "[*]\nk=v".toList), ("/a/".toList, [])]

/-- Deleting the file below makes the topmost directory unknown, and with it the file that has no
name; stopping it does not. -/
theorem without_nameless_differs :
    '/' ∉ ([] : Text) ∧
      (resolve ⟨[], currentVersion, (Memory.ofFiles (Memory.without (· == "/a/".toList)
        (fun _ => false) namelessTwice)).fileSystem, ⟨100, 100⟩⟩ .silent [] "/x".toList).result.map
          OrderedMap.entries = .ok [] ∧
      (resolve ⟨[], currentVersion, (Memory.ofFiles namelessTwice).fileSystem, ⟨100, 100⟩⟩
        (.vetoing (· == "/a/".toList) fun _ => false) [] "/x".toList).result.map
          OrderedMap.entries = .ok [("k".toList, "v".toList)] :=
  ⟨List.not_mem_nil, by decide +kernel, by decide +kernel⟩

end Cascade
end EditorConfig
