import EditorConfig.Cascade
import EditorConfig.FileSystem.Memory
import EditorConfig.Proofs.Path.Parents
import EditorConfig.Proofs.Source.Assignments

/-! The cascade as one flat pass. Main statement: the properties of a path are the map of all
assignments in the files that are visited, from the farthest to the nearest. -/
namespace EditorConfig

def takeThrough {α : Type} (ends : α → Bool) : List α → List α
  | [] => []
  | a :: rest => if ends a then [a] else a :: takeThrough ends rest

namespace Memory

def config? (m : Memory) (name directory : Text) : Option Text :=
  if m.directories.contains directory then m.files.get? (Path.join directory name) else none

/-- Where files have just been put, every directory above a path has the file that is stored
there under the name. -/
theorem config?_ofFiles (files : List (Text × Text)) {name path directory : Text}
    (hd : directory ∈ Path.ancestors path) (hs : '/' ∉ name)
    (hn : name = [] → ∃ c ∈ directory, c ≠ '/') :
    (ofFiles files).config? name directory =
      (OrderedMap.ofList files).get? (Path.join directory name) := by
  have hf : (ofFiles files).files = .ofList files := rfl
  rw [config?, hf]
  cases hg : (OrderedMap.ofList files).get? (Path.join directory name) with
  | none => exact ite_self none
  | some text =>
    have hp := Path.parent?_join (Path.isDirectory_of_mem_ancestors hd) hs hn
    have ha : directory ∈ Path.ancestors (Path.join directory name) := by
      rw [Path.ancestors]
      split
      · next h => rw [hp] at h; cases h
      · next h =>
        rw [hp, Option.some.injEq] at h
        rw [h]
        exact List.mem_cons_self
    have hm : (ofFiles files).directories.contains directory = true := by
      rw [List.contains_iff_mem]
      exact List.mem_eraseDups.2 (List.mem_flatMap.2 ⟨_, Entries.mem_of_get? hg, ha⟩)
    rw [if_pos hm]

def isRoot (m : Memory) (limits : Limits) (name directory : Text) : Bool :=
  match (m.config? name directory).map (Source.statements limits.reading) with
  | some (.ok statements) => (Source.ofStatements statements).isRoot
  | _ => false

def assignmentsIn (m : Memory) (limits : Limits) (name path directory : Text) :
    Except Error (List (Text × Text)) :=
  match m.config? name directory with
  | none => return []
  | some text =>
    ((Source.statements limits.reading text).bind
      (Source.assignments (headerMatches limits.visiting directory · path) false)).mapError
        (Error.inFile (Path.join directory name))

def ends (m : Memory) (limits : Limits) (name : Text) (stops : List Text) (directory : Text) :
    Bool :=
  m.isRoot limits name directory || stops.contains (Path.normal directory)

def visited (m : Memory) (limits : Limits) (name : Text) (stops : List Text) (path : Text) :
    List Text :=
  takeThrough (m.ends limits name (stops.map Path.normal)) (Path.ancestors path)

end Memory

namespace Cascade
variable (m : Memory) (limits : Limits) (name version : Text)

/-- A directory without a file has nothing for any path; any other has what its file is read
for. -/
theorem directoryOptions_memory (observer : Observer) (path directory : Text) :
    directoryOptions ⟨name, version, m.fileSystem, limits⟩ observer path directory =
      match m.config? name directory with
      | none => pure (false, .empty)
      | some text => do
        Watched.report (.config (Path.join directory name))
        if observer.config (Path.join directory name) then
          Watched.mapError (Error.inFile (Path.join directory name)) do
            let source ← Source.ofText limits.reading observer text
            return (source.isRoot, ← source.options limits.visiting observer path directory)
        else return (false, .empty) := by
  unfold directoryOptions Memory.config?
  cases hd : m.directories.contains directory with
  | false =>
    have hc : m.fileSystem.isDirectory directory = false := hd
    simp only [hc]
    rfl
  | true =>
    have hc : m.fileSystem.isDirectory directory = true := hd
    cases hf : m.files.get? (Path.join directory name) with
    | none =>
      have hn : m.fileSystem.isFile (Path.join directory name) = false := by
        simp [Memory.fileSystem, hf]
      simp only [hc, hn]
      rfl
    | some text =>
      have hn : m.fileSystem.isFile (Path.join directory name) = true := by
        simp [Memory.fileSystem, hf]
      have ht : m.fileSystem.read (Path.join directory name) = .ok text := by
        simp [Memory.fileSystem, hf]
      simp only [hc, hn, Bool.and_true, if_true, ht]

theorem result_directoryOptions (path directory : Text) :
    (directoryOptions ⟨name, version, m.fileSystem, limits⟩ .silent path directory).result =
      (m.assignmentsIn limits name path directory).map fun assigned =>
        (m.isRoot limits name directory, OrderedMap.ofList assigned) := by
  rw [directoryOptions_memory, Memory.assignmentsIn, Memory.isRoot]
  cases m.config? name directory with
  | none => rfl
  | some text =>
    have hs := @Source.result_ofText_options limits.reading limits.visiting text path directory
    simp only [if_true, Observer.silent, Watched.report_bind, Watched.mapError, bind_pure_comp]
      at hs ⊢
    rw [hs]
    cases hss : Source.statements limits.reading text with
    | error e => rfl
    | ok ss =>
      simp only [Except.bind, Option.map_some, hss]
      cases Source.assignments (headerMatches limits.visiting directory · path) false ss <;> rfl

theorem result_walk (stops : List Text) (path : Text) (directories : List Text)
    (near : List (Text × Text)) :
    (walk ⟨name, version, m.fileSystem, limits⟩ .silent stops path directories
        (.ofList near)).result =
      ((takeThrough (m.ends limits name stops) directories).mapM
        (m.assignmentsIn limits name path)).map
        fun parts => OrderedMap.ofList (parts.reverse.flatten ++ near) := by
  induction directories generalizing near with
  | nil => rfl
  | cons directory farther ih =>
    have hd := result_directoryOptions m limits name version path directory
    rw [walk, Watched.report_bind, takeThrough, Memory.ends]
    simp only [Observer.silent, if_true, Watched.result_bind] at hd ih ⊢
    rw [hd]
    cases ha : m.assignmentsIn limits name path directory with
    | error e =>
      split <;> simp [List.mapM_cons, ha, bind, Except.bind, Except.map]
    | ok assigned =>
      have ih' := ih (assigned ++ near)
      simp only [Except.map, bind, Except.bind, Properties.ofList_overriddenBy] at ih' ⊢
      cases he : m.isRoot limits name directory || stops.contains (Path.normal directory) with
      | true =>
        simp only [if_true, List.mapM_cons, List.mapM_nil, ha, bind, Except.bind]
        simp [pure, Except.pure, Watched.pure]
      | false =>
        simp only [Bool.false_eq_true, if_false, List.mapM_cons, ha, bind, Except.bind, ih']
        cases (takeThrough (m.ends limits name stops) farther).mapM
          (m.assignmentsIn limits name path) with
        | error e => rfl
        | ok parts => simp [pure, Except.pure]

theorem result_visited (stops : List Text) (path : Text) :
    (walk ⟨name, version, m.fileSystem, limits⟩ .silent (stops.map Path.normal) path
        (Path.ancestors path) .empty).result =
      ((m.visited limits name stops path).mapM (m.assignmentsIn limits name path)).map
        fun parts => OrderedMap.ofList parts.reverse.flatten := by
  have hw := result_walk m limits name version (stops.map Path.normal) path (Path.ancestors path) []
  simp only [List.append_nil] at hw
  exact hw

theorem result_resolve (hv : Version.require version = .ok ()) (stops : List Text) (path : Text) :
    (resolve ⟨name, version, m.fileSystem, limits⟩ .silent stops path).result =
      (walk ⟨name, version, m.fileSystem, limits⟩ .silent (stops.map Path.normal) path
        (Path.ancestors path) .empty).result.map Properties.normalized := by
  rw [resolve, Watched.bind_ok hv]
  simp only [Watched.report_bind, Observer.silent, if_true, Watched.result_bind]
  cases (walk ⟨name, version, m.fileSystem, limits⟩ _ (stops.map Path.normal) path
    (Path.ancestors path) .empty).result <;> rfl

end Cascade
end EditorConfig
