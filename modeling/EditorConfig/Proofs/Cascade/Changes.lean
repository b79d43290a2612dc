import EditorConfig.Proofs.Cascade.Locality
import EditorConfig.Proofs.Cascade.Order
import EditorConfig.Proofs.FileSystem.Tree

/-! Files that come and go. Main statement: a memory whose files have changed is resolved like one
with the same files from the start, exactly if each directory that is visited and holds a file
counts as known to both or to neither. -/
namespace EditorConfig

theorem exists_ok_of_map {α β ε : Type} {f : α → β} {r r' : Except ε α}
    (h : r.map f = r'.map f) : (∃ a, r = .ok a) ↔ ∃ a, r' = .ok a := by
  cases r <;> cases r' <;> simp_all [Except.map]

namespace Watched
variable {α β : Type}

theorem head?_bind {w : Watched α} {event : Event} (h : w.events.head? = some event)
    (next : α → Watched β) : (w >>= next).events.head? = some event := by
  cases hw : w.result with
  | error e =>
    rw [bind_error hw]
    exact h
  | ok a =>
    rw [bind_ok hw, List.head?_append, h]
    rfl

end Watched

namespace Memory

inductive Change where
  | write (path text : Text)
  | remove (path : Text)

def change (m : Memory) : Change → Memory
  | .write path text => m.write path text
  | .remove path => m.remove path

def changed (m : Memory) (changes : List Change) : Memory := changes.foldl change m

def after (files : List (Text × Text)) (changes : List Change) : Memory :=
  (ofFiles files).changed changes

def renewed (m : Memory) : Memory := ofFiles m.files.entries

variable (m : Memory)

theorem directories_change (c : Change) : (m.change c).directories = m.directories := by
  cases c <;> rfl

/-- No change of the files is one of the directories. -/
theorem directories_changed (changes : List Change) :
    (m.changed changes).directories = m.directories := by
  induction changes generalizing m with
  | nil => rfl
  | cons c changes ih => exact (ih (m.change c)).trans (directories_change m c)

theorem files_renewed : m.renewed.files = m.files := OrderedMap.ofList_entries m.files

def IsAbove (directory : Text) (paths : List Text) : Prop :=
  ∃ path ∈ paths, directory ∈ Path.ancestors path

/-- If there is a file with the name in the directory, the directory is known now and would be
known from the files as they are, or neither. -/
def UpToDate (name directory : Text) : Prop :=
  (m.files.get? (Path.join directory name)).isSome →
    (directory ∈ m.directories ↔ directory ∈ m.renewed.directories)

instance (name directory : Text) : Decidable (m.UpToDate name directory) :=
  inferInstanceAs (Decidable (_ → _))

theorem upToDate_iff {name directory : Text} :
    m.UpToDate name directory ↔ m.config? name directory = m.renewed.config? name directory := by
  rw [UpToDate, config?, config?, files_renewed]
  simp only [List.contains_iff_mem]
  cases m.files.get? (Path.join directory name) with
  | none => simp
  | some text =>
    by_cases h : directory ∈ m.directories <;> by_cases h' : directory ∈ m.renewed.directories <;>
      simp [h, h']

theorem isSome_config? {name directory : Text} :
    (m.config? name directory).isSome ↔
      directory ∈ m.directories ∧ (m.files.get? (Path.join directory name)).isSome := by
  rw [config?]
  simp only [List.contains_iff_mem]
  split
  next h => exact (and_iff_right h).symm
  next h => exact iff_of_false Bool.false_ne_true fun hc => h hc.1

theorem upToDate_of_isSome_iff {name directory : Text}
    (h : (m.config? name directory).isSome ↔ (m.renewed.config? name directory).isSome) :
    m.UpToDate name directory := by
  intro hf
  rw [isSome_config?, isSome_config?, files_renewed] at h
  simpa only [hf, and_true] using h

end Memory

namespace Cascade
variable {m : Memory} {name version path : Text} {observer : Observer} {stops : List Text}
variable {limits : Limits}

/-- The first event about a directory's file tells whether it has been found. -/
theorem head?_directoryOptions_memory (m : Memory) (limits : Limits) (name version : Text)
    (observer : Observer) (path directory : Text) :
    (directoryOptions ⟨name, version, m.fileSystem, limits⟩ observer path directory).events.head? =
      (m.config? name directory).map fun _ => .config (Path.join directory name) := by
  rw [directoryOptions_memory]
  cases m.config? name directory <;> rfl

/-- The first event of a walk is that for a directory. -/
theorem head?_walk_ne (c : Cascade) (observer : Observer) (stops : List Text) (path : Text)
    (directories : List Text) (found : Properties) (config : Text) :
    (c.walk observer stops path directories found).events.head? ≠ some (.config config) := by
  cases directories with
  | nil => exact nofun
  | cons directory farther =>
    rw [walk_cons, Watched.report_bind]
    exact nofun

theorem head?_walkOn_ne (c : Cascade) (observer : Observer) (stops : List Text)
    (path directory : Text) (farther : List Text) (found : Properties)
    (looked : Bool × Properties) (config : Text) :
    (c.walkOn observer stops path directory farther found looked).events.head? ≠
      some (.config config) := by
  unfold walkOn
  split
  · exact nofun
  · exact head?_walk_ne c observer stops path farther _ config

theorem directory_notMem_directoryOptions (c : Cascade) (observer : Observer)
    (path directory d : Text) :
    .directory d ∉ (c.directoryOptions observer path directory).events := by
  intro h
  have hb := (reports_directoryOptions c observer path directory).beginning
  exact isInner_fullReport (hb.subset h)

/-- Whether a directory's file has been found shows in the events of the step. -/
theorem found_iff {directory : Text} {next : Bool × Properties → Watched Properties}
    (hn : ∀ a config, (next a).events.head? ≠ some (.config config)) :
    (directoryOptions ⟨name, version, m.fileSystem, limits⟩ observer path directory >>=
        next).events.head? =
        some (.config (Path.join directory name)) ↔
      (m.config? name directory).isSome := by
  have hh := head?_directoryOptions_memory m limits name version observer path directory
  cases hc : m.config? name directory with
  | none =>
    have hd : directoryOptions ⟨name, version, m.fileSystem, limits⟩ observer path directory =
        pure (false, .empty) := by rw [directoryOptions_memory, hc]
    rw [hd, pure_bind]
    exact iff_of_false (hn _ _) Bool.false_ne_true
  | some text =>
    rw [hc] at hh
    exact iff_of_true (Watched.head?_bind hh next) rfl

/-- Two walks that report the same have found the same files where they may look. -/
theorem upToDate_of_events {directories : List Text} {found : Properties}
    (h : (walk ⟨name, version, m.fileSystem, limits⟩ observer stops path directories found).events =
      (walk ⟨name, version, m.renewed.fileSystem, limits⟩ observer stops path directories
        found).events)
    {d : Text}
    (hv : (walk ⟨name, version, m.renewed.fileSystem, limits⟩ observer stops path directories
      found).Visits d) (ho : observer.directory d = true) :
    m.UpToDate name d := by
  induction directories generalizing found with
  | nil => cases hv
  | cons directory farther ih =>
    rw [Watched.Visits] at hv
    rw [walk_cons, Watched.report_bind] at h hv
    rw [walk_cons, Watched.report_bind] at h
    cases hp : observer.directory directory with
    | false =>
      rw [hp, if_neg Bool.false_ne_true] at hv
      cases List.mem_singleton.1 hv
      rw [hp] at ho
      cases ho
    | true =>
      simp only [hp, if_true, List.cons.injEq, true_and] at h hv
      have he : m.UpToDate name directory := by
        refine m.upToDate_of_isSome_iff ?_
        rw [← found_iff (head?_walkOn_ne _ observer stops path directory farther found), h,
          found_iff (head?_walkOn_ne _ observer stops path directory farther found)]
      have hd : directoryOptions ⟨name, version, m.fileSystem, limits⟩ observer path directory =
          directoryOptions ⟨name, version, m.renewed.fileSystem, limits⟩ observer path
            directory := by
        rw [directoryOptions_memory, directoryOptions_memory, m.upToDate_iff.1 he]
      cases List.mem_cons.1 hv with
      | inl hm =>
        cases hm
        exact he
      | inr hm =>
        have hn := directory_notMem_directoryOptions
          ⟨name, version, m.renewed.fileSystem, limits⟩ observer
          path directory d
        rw [hd] at h
        cases hr : (directoryOptions ⟨name, version, m.renewed.fileSystem, limits⟩ observer path
            directory).result with
        | error e =>
          rw [Watched.bind_error hr] at hm
          exact absurd hm hn
        | ok looked =>
          rw [Watched.bind_ok hr] at h hm
          rw [Watched.bind_ok hr, List.append_cancel_left_eq] at h
          have hm' := (List.mem_append.1 hm).resolve_left hn
          unfold walkOn at h hm'
          split at h
          · next hs =>
            rw [if_pos hs] at hm'
            cases hm'
          · next hs =>
            rw [if_neg hs] at hm'
            exact ih h hm'

theorem upToDate_of_resolve
    (h : resolve ⟨name, version, m.fileSystem, limits⟩ observer stops path =
      resolve ⟨name, version, m.renewed.fileSystem, limits⟩ observer stops path) {d : Text}
    (hv : (resolve ⟨name, version, m.renewed.fileSystem, limits⟩ observer stops path).Visits d)
    (ho : observer.directory d = true) : m.UpToDate name d := by
  cases hr : Version.require version with
  | error e =>
    rw [resolve_of_refused (c := ⟨name, version, m.renewed.fileSystem, limits⟩) hr] at hv
    cases hv
  | ok =>
    cases hf : observer.file path with
    | false =>
      rw [resolve_of_ignored (c := ⟨name, version, m.renewed.fileSystem, limits⟩) hr hf] at hv
      cases List.mem_singleton.1 hv
    | true =>
      have hw := fun m : Memory =>
        @resolve_eq_walk ⟨name, version, m.fileSystem, limits⟩ observer stops path hr hf
      rw [hw m.renewed] at h hv
      rw [hw m] at h
      have hs := exists_ok_of_map (congrArg Watched.result h)
      have he := congrArg Watched.events h
      simp only [hs, List.append_cancel_right_eq, List.cons.injEq, true_and] at he
      refine upToDate_of_events he ?_ ho
      cases List.mem_append.1 hv with
      | inl hm => exact (List.mem_cons.1 hm).resolve_left nofun
      | inr hm =>
        split at hm
        · cases List.mem_singleton.1 hm
        · cases hm

/-- A file with a name makes the directory known that it stands in, if it is there now. -/
theorem mem_directories_renewed_of_isSome {directory : Text} (hd : directory ∈ Path.ancestors path)
    (hs : '/' ∉ name) (hn : name ≠ [])
    (hf : (m.files.get? (Path.join directory name)).isSome) :
    directory ∈ m.renewed.directories := by
  have hc := Memory.config?_ofFiles m.files.entries hd hs (absurd · hn)
  have hg : (m.renewed.config? name directory).isSome := by
    rw [Memory.renewed, hc, OrderedMap.ofList_entries]
    exact hf
  exact (m.renewed.isSome_config?.1 hg).1

theorem resolve_renewed_iff (m : Memory) (name version : Text) (observer : Observer)
    (stops : List Text) (path : Text) :
    resolve ⟨name, version, m.fileSystem, limits⟩ observer stops path =
        resolve ⟨name, version, m.renewed.fileSystem, limits⟩ observer stops path ↔
      ∀ d, (resolve ⟨name, version, m.renewed.fileSystem, limits⟩ observer stops path).Visits d →
        observer.directory d = true → m.UpToDate name d := by
  constructor
  · exact fun h d hv ho => upToDate_of_resolve h hv ho
  · intro h
    refine resolve_congr fun d hv _ ho => ?_
    rw [directoryOptions_memory, directoryOptions_memory, m.upToDate_iff.1 (h d hv ho)]

/-- Only the first files make directories known. A resolution is that of the files as they are now
exactly if each visited directory with a file in it is known from both, and where files have a
name it is to lie above one of the first. -/
theorem resolve_after_iff (files : List (Text × Text)) (changes : List Memory.Change)
    (name version : Text) (observer : Observer) (stops : List Text) (path : Text) :
    (∀ d, (Memory.after files changes).fileSystem.isDirectory d = true ↔
        Memory.IsAbove d (files.map Prod.fst)) ∧
      (resolve ⟨name, version, (Memory.after files changes).fileSystem, limits⟩ observer stops
            path =
          resolve ⟨name, version, (Memory.after files changes).renewed.fileSystem, limits⟩
            observer stops path ↔
        ∀ d, (resolve ⟨name, version, (Memory.after files changes).renewed.fileSystem, limits⟩
            observer stops path).Visits d → observer.directory d = true →
          (Memory.after files changes).UpToDate name d) ∧
      ('/' ∉ name → name ≠ [] → ∀ d ∈ Path.ancestors path,
        ((Memory.after files changes).UpToDate name d ↔
          (((Memory.after files changes).files.get? (Path.join d name)).isSome →
            Memory.IsAbove d (files.map Prod.fst)))) := by
  have hk : ∀ d, d ∈ (Memory.after files changes).directories ↔
      Memory.IsAbove d (files.map Prod.fst) := by
    intro d
    rw [Memory.after, Memory.directories_changed]
    exact Memory.mem_directories_ofFiles
  refine ⟨fun d => List.contains_iff_mem.trans (hk d), resolve_renewed_iff _ _ _ _ _ _, ?_⟩
  intro hs hn d hd
  rw [Memory.UpToDate, hk]
  refine imp_congr_right fun hf => ?_
  exact iff_true_right (mem_directories_renewed_of_isSome hd hs hn hf)

def rewritten : Memory :=
  .after [("/p/.editorconfig".toList, "[*]\na=1".toList)]
    [.remove "/p/.editorconfig".toList, .write "/p/.editorconfig".toList "[*]\na=2".toList]

theorem after_rewrite_seen :
    resolve ⟨defaultConfigName, currentVersion, rewritten.fileSystem, ⟨100, 100⟩⟩ .silent []
          "/p/x".toList =
        resolve ⟨defaultConfigName, currentVersion, rewritten.renewed.fileSystem, ⟨100, 100⟩⟩
          .silent [] "/p/x".toList ∧
      (resolve ⟨defaultConfigName, currentVersion, rewritten.renewed.fileSystem, ⟨100, 100⟩⟩
        .silent [] "/p/x".toList).result.map OrderedMap.entries =
          .ok [("a".toList, "2".toList)] := by
  have hv : (resolve ⟨defaultConfigName, currentVersion, rewritten.renewed.fileSystem,
      ⟨100, 100⟩⟩ .silent [] "/p/x".toList).events.filterMap Event.directory? =
        ["/p".toList, "/".toList] := by
    decide +kernel
  have hu : ∀ d ∈ ["/p".toList, "/".toList], rewritten.UpToDate defaultConfigName d := by
    decide +kernel
  refine ⟨(resolve_after_iff _ _ _ _ .silent [] _).2.1.2 fun d hd _ => hu d ?_, by decide +kernel⟩
  rw [← hv]
  exact List.mem_filterMap.2 ⟨_, hd, rfl⟩

/-- A file that is put into a directory without one is not found. -/
theorem after_write_unseen :
    ¬ ∀ (files : List (Text × Text)) (changes : List Memory.Change) (name path : Text)
        (stops : List Text), '/' ∉ name →
      (resolve ⟨name, currentVersion, (Memory.after files changes).fileSystem, ⟨100, 100⟩⟩
          .silent stops path).result =
        (resolve ⟨name, currentVersion, (Memory.after files changes).renewed.fileSystem,
          ⟨100, 100⟩⟩ .silent stops path).result := by
  intro h
  have hr := congrArg (Except.map OrderedMap.entries) (h []
    [.write "/p/.editorconfig".toList "[*]\nk=v".toList] defaultConfigName "/p/x".toList []
    (by decide))
  exact absurd hr (by decide +kernel)

end Cascade
end EditorConfig
