import EditorConfig.Cascade
import EditorConfig.FileSystem.Memory
import EditorConfig.Proofs.Source.Reports

/-! The order of the events of a resolution. Main statement: the events are those of an ascent
through the directories above the file, each with the report on its file behind it, between the
event for the file itself and the last one. -/
namespace EditorConfig

def Event.directory? : Event → Option Text
  | .directory path => some path
  | _ => none

def Event.IsInner : Event → Prop
  | .config _ | .line _ | .option _ _ => True
  | .file _ | .directory _ | .finished _ => False

theorem directories_of_isInner {events : List Event} (h : ∀ e ∈ events, e.IsInner) :
    events.filterMap Event.directory? = [] := by
  refine List.filterMap_eq_nil_iff.2 fun e he => ?_
  cases e with
  | directory path => exact absurd (h _ he) id
  | _ => rfl

/-- The events around a walk are those of no directory. -/
theorem directories_around (path : Text) (events : List Event) (c : Prop) [Decidable c] :
    (Event.file path :: events ++ if c then [Event.finished path] else []).filterMap
      Event.directory? = events.filterMap Event.directory? := by
  have hd : (Event.file path :: events).filterMap Event.directory? =
      events.filterMap Event.directory? := rfl
  have hl : (if c then [Event.finished path] else []).filterMap Event.directory? = [] := by
    split <;> rfl
  rw [List.filterMap_append, hd, hl, List.append_nil]

namespace Source

theorem isInner_fullReport {reading limit : Nat} {observer : Observer}
    {path directory text : Text} {e : Event}
    (he : e ∈ fullReport observer path directory reading limit text) : e.IsInner := by
  rcases List.mem_append.1 he with hl | ho
  · obtain ⟨line, -, rfl⟩ := List.mem_map.1 hl
    trivial
  · split at ho
    · obtain ⟨s, -, hs⟩ := List.mem_flatMap.1 ho
      obtain ⟨option, -, rfl⟩ := List.mem_map.1 hs
      trivial
    · cases ho

end Source

namespace Cascade
variable {c : Cascade} {observer : Observer} {stops : List Text} {path : Text}

def fullReport (c : Cascade) (observer : Observer) (path directory : Text) : List Event :=
  let config := Path.join directory c.configName
  if c.files.isDirectory directory && c.files.isFile config then
    .config config ::
      if observer.config config then
        match c.files.read config with
        | .ok text =>
          Source.fullReport observer path directory c.limits.reading c.limits.visiting text
        | .error _ => []
      else []
  else []

theorem isInner_fullReport {directory : Text} {e : Event}
    (he : e ∈ c.fullReport observer path directory) : e.IsInner := by
  unfold fullReport at he
  simp only at he
  split at he
  · rcases List.mem_cons.1 he with rfl | he
    · trivial
    · split at he
      · split at he
        · exact Source.isInner_fullReport he
        · cases he
      · cases he
  · cases he

/-- A resolution goes no further than a directory whose file fails or is the root, or one where a
stop is spelled. -/
def EndsAt (c : Cascade) (observer : Observer) (stops : List Text) (path directory : Text) : Prop :=
  (∀ options, (c.directoryOptions observer path directory).result ≠ .ok (false, options)) ∨
    stops.contains (Path.normal directory) = true

/-- The events of a way up through directories. Only a run that is `cut` leaves out events, and
only the last ones of the last directory, but never that for its file. -/
inductive Ascent (c : Cascade) (observer : Observer) (stops : List Text) (path : Text)
    (cut : Prop) : List Text → List Event → Prop
  | top : Ascent c observer stops path cut [] []
  | stopped {directory : Text} (farther : List Text) (ho : observer.directory directory = false) :
    Ascent c observer stops path cut (directory :: farther) [.directory directory]
  | broken {directory : Text} (farther : List Text) {events : List Event}
    (ho : observer.directory directory = true) (hc : cut)
    (he : events <+: c.fullReport observer path directory)
    (hf : events.head? = (c.fullReport observer path directory).head?) :
    Ascent c observer stops path cut (directory :: farther) (.directory directory :: events)
  | last {directory : Text} (farther : List Text) (ho : observer.directory directory = true)
    (he : c.EndsAt observer stops path directory) :
    Ascent c observer stops path cut (directory :: farther)
      (.directory directory :: c.fullReport observer path directory)
  | passed {directory : Text} {farther : List Text} {more : List Event}
    (ho : observer.directory directory = true) (he : ¬ c.EndsAt observer stops path directory)
    (hm : Ascent c observer stops path cut farther more) :
    Ascent c observer stops path cut (directory :: farther)
      (.directory directory :: (c.fullReport observer path directory ++ more))

namespace Ascent
variable {cut : Prop} {directories : List Text} {events : List Event}

/-- The directories of an ascent are the first ones above the file, in order. -/
theorem directories_prefix (h : Ascent c observer stops path cut directories events) :
    events.filterMap Event.directory? <+: directories := by
  have hd : ∀ (directory : Text) {inner : List Event}, (∀ e ∈ inner, e.IsInner) →
      (.directory directory :: inner).filterMap Event.directory? = [directory] := by
    intro directory inner hi
    exact congrArg (directory :: ·) (directories_of_isInner hi)
  induction h with
  | top => exact List.prefix_rfl
  | stopped farther => exact ⟨farther, rfl⟩
  | broken farther ho hc he hf =>
    rw [hd _ fun e hm => isInner_fullReport (he.subset hm)]
    exact ⟨farther, rfl⟩
  | last farther =>
    rw [hd _ fun e hm => isInner_fullReport hm]
    exact ⟨farther, rfl⟩
  | passed ho he hm ih =>
    rw [← List.cons_append, List.filterMap_append, hd _ fun e hm => isInner_fullReport hm]
    exact (List.prefix_cons_inj _).2 ih

/-- The event of the file and the last one are none of an ascent. -/
theorem isInner_or_directory (h : Ascent c observer stops path cut directories events) {e : Event}
    (he : e ∈ events) : e.IsInner ∨ ∃ directory, e = .directory directory := by
  induction h with
  | top => cases he
  | @stopped directory farther =>
    exact .inr ⟨directory, List.mem_singleton.1 he⟩
  | @broken directory farther events ho hc hp hf =>
    rcases List.mem_cons.1 he with rfl | he
    · exact .inr ⟨directory, rfl⟩
    · exact .inl (isInner_fullReport (hp.subset he))
  | @last directory farther =>
    rcases List.mem_cons.1 he with rfl | he
    · exact .inr ⟨directory, rfl⟩
    · exact .inl (isInner_fullReport he)
  | @passed directory farther more ho hp hm ih =>
    rcases List.mem_cons.1 he with rfl | he
    · exact .inr ⟨directory, rfl⟩
    · rcases List.mem_append.1 he with he | he
      · exact .inl (isInner_fullReport he)
      · exact ih he

end Ascent

theorem reports_directoryOptions (c : Cascade) (observer : Observer) (path directory : Text) :
    (c.directoryOptions observer path directory).Reports
      (c.fullReport observer path directory) := by
  unfold directoryOptions fullReport
  simp only
  split
  · refine Watched.Reports.report_bind _ ?_
    split
    · cases c.files.read (Path.join directory c.configName) with
      | error cause => exact .of_eq rfl
      | ok text =>
        have hl := @Source.reports_fullReport c.limits.reading c.limits.visiting observer path
          directory text
        simp only [Watched.bind_pure_comp]
        exact hl.inFile _
    · exact Watched.reports_pure _
  · exact Watched.reports_pure _

theorem head?_directoryOptions (c : Cascade) (observer : Observer) (path directory : Text) :
    (c.directoryOptions observer path directory).events.head? =
      (c.fullReport observer path directory).head? := by
  unfold directoryOptions fullReport
  simp only
  split <;> rfl

def walkOn (c : Cascade) (observer : Observer) (stops : List Text) (path directory : Text)
    (farther : List Text) (found : Properties) : Bool × Properties → Watched Properties :=
  fun looked =>
    if looked.1 || stops.contains (Path.normal directory) then
      pure (looked.2.overriddenBy found)
    else c.walk observer stops path farther (looked.2.overriddenBy found)

theorem walk_cons (c : Cascade) (observer : Observer) (stops : List Text) (path directory : Text)
    (farther : List Text) (found : Properties) :
    c.walk observer stops path (directory :: farther) found =
      (Watched.report (.directory directory) >>= fun _ =>
        if observer.directory directory then
          c.directoryOptions observer path directory >>=
            c.walkOn observer stops path directory farther found
        else pure found) := rfl

theorem ascent_walk (c : Cascade) (observer : Observer) (stops : List Text) (path : Text)
    (directories : List Text) (found : Properties) :
    c.Ascent observer stops path (c.walk observer stops path directories found).IsCut directories
      (c.walk observer stops path directories found).events := by
  induction directories generalizing found with
  | nil => exact .top
  | cons directory farther ih =>
    have hr := reports_directoryOptions c observer path directory
    rw [walk, Watched.report_bind]
    cases ho : observer.directory directory with
    | false => exact .stopped farther ho
    | true =>
      simp only [if_true]
      cases hd : (c.directoryOptions observer path directory).result with
      | error e =>
        rw [Watched.bind_error hd]
        by_cases hc : (c.directoryOptions observer path directory).IsCut
        · refine .broken farther ho ?_ hr.beginning (head?_directoryOptions c observer path _)
          obtain ⟨e', he, hm⟩ := hc
          rw [hd] at he
          cases he
          exact ⟨e, rfl, hm⟩
        · rw [hr.whole hc]
          refine .last farther ho (.inl fun options hn => ?_)
          rw [hd] at hn
          cases hn
      | ok result =>
        obtain ⟨isRoot, options⟩ := result
        rw [Watched.bind_ok hd, hr.whole (Watched.not_isCut_of_ok hd)]
        cases he : isRoot || stops.contains (Path.normal directory) with
        | true =>
          rw [if_pos rfl, Watched.events_pure, List.append_nil]
          refine .last farther ho ?_
          cases isRoot with
          | true => exact .inl fun options hn => by rw [hd] at hn; cases hn
          | false => exact .inr he
        | false =>
          rw [if_neg Bool.false_ne_true]
          rw [Bool.or_eq_false_iff] at he
          obtain ⟨rfl, hs⟩ := he
          refine .passed ho (fun h => ?_) (ih _)
          cases h with
          | inl h => exact h options hd
          | inr h => exact Bool.false_ne_true (hs.symm.trans h)

/-- The events of a resolution, in order. The run for a version that is refused has none, and one
for a file that the observer stops has no other than that for the file. -/
structure InOrder (c : Cascade) (observer : Observer) (stops : List Text) (path : Text)
    (run : Watched Properties) : Prop where
  refused : ∀ e, Version.require c.version = .error e → run.events = []
  stopped : Version.require c.version = .ok () → observer.file path = false →
    run.events = [.file path]
  ascent : Version.require c.version = .ok () → observer.file path = true →
    ∃ events, c.Ascent observer (stops.map Path.normal) path run.IsCut (Path.ancestors path)
        events ∧
      run.events = .file path :: events ++
        if ∃ properties, run.result = .ok properties then [.finished path] else []
  directories : run.events.filterMap Event.directory? <+: Path.ancestors path
  finished : ∀ p, .finished p ∈ run.events ↔
    p = path ∧ observer.file path = true ∧ ∃ properties, run.result = .ok properties
  final : ∀ p, .finished p ∉ run.events.dropLast

theorem resolve_of_refused {e : Error} (hv : Version.require c.version = .error e) :
    c.resolve observer stops path = ⟨[], .error e⟩ := by
  rw [resolve, Watched.bind_error hv]
  rfl

theorem resolve_of_ignored (hv : Version.require c.version = .ok ())
    (hf : observer.file path = false) :
    c.resolve observer stops path = ⟨[.file path], .ok .empty⟩ := by
  rw [resolve, Watched.bind_ok hv, Watched.report_bind, if_neg (by simp [hf])]
  rfl

theorem resolve_of_walk (hv : Version.require c.version = .ok ()) (hf : observer.file path = true)
    {events : List Event} {result : Except Error Properties}
    (hw : c.walk observer (stops.map Path.normal) path (Path.ancestors path) .empty =
      ⟨events, result⟩) :
    c.resolve observer stops path =
      ⟨.file path :: events ++ if ∃ found, result = .ok found then [.finished path] else [],
        result.map Properties.normalized⟩ := by
  rw [resolve, Watched.bind_ok hv, Watched.report_bind, if_pos hf, hw]
  cases result with
  | error e =>
    rw [Watched.bind_error rfl]
    simp [Watched.ofExcept, Except.map]
  | ok found =>
    rw [Watched.bind_ok rfl, if_pos ⟨found, rfl⟩]
    rfl

theorem resolve_eq_walk (hv : Version.require c.version = .ok ())
    (hf : observer.file path = true) :
    c.resolve observer stops path =
      ⟨.file path :: (c.walk observer (stops.map Path.normal) path (Path.ancestors path)
          .empty).events ++
        if ∃ found, (c.walk observer (stops.map Path.normal) path (Path.ancestors path)
          .empty).result = .ok found then [.finished path] else [],
        (c.walk observer (stops.map Path.normal) path (Path.ancestors path)
          .empty).result.map Properties.normalized⟩ :=
  resolve_of_walk hv hf rfl

/-- Around the events of a walk stand that for the file and, if there is a result, the last one. -/
theorem inOrder_of_ascent (hv : Version.require c.version = .ok ())
    (hf : observer.file path = true) {events : List Event} {result : Except Error Properties}
    (ha : c.Ascent observer (stops.map Path.normal) path (Watched.mk events result).IsCut
      (Path.ancestors path) events) :
    InOrder c observer stops path
      ⟨.file path :: events ++ if ∃ found, result = .ok found then [.finished path] else [],
        result.map Properties.normalized⟩ := by
  have hn : ∀ p, Event.finished p ∉ Event.file path :: events := by
    intro p hp
    rcases List.mem_cons.1 hp with hp | hp
    · cases hp
    · rcases ha.isInner_or_directory hp with h | ⟨d, h⟩
      · exact h
      · cases h
  have hr : (∃ found, result.map Properties.normalized = .ok found) ↔
      ∃ found, result = .ok found := by
    cases result <;> simp [Except.map]
  constructor
  case refused =>
    intro e h
    rw [hv] at h
    cases h
  case stopped =>
    intro _ h
    rw [hf] at h
    cases h
  case ascent =>
    intro _ _
    refine ⟨events, ?_, ?_⟩
    · rw [Watched.isCut_map]
      exact ha
    · simp only [hr]
  case directories =>
    rw [directories_around]
    exact ha.directories_prefix
  case finished =>
    intro p
    rw [List.mem_append, or_iff_right (hn p), hr]
    split <;> simp_all
  case final =>
    intro p h
    revert h
    split
    · rw [List.dropLast_concat]
      exact hn p
    · rw [List.append_nil]
      exact fun h => hn p (List.dropLast_subset _ h)

/-- Whatever files there are, and whatever an observer stops, the events come in order. -/
theorem resolve_inOrder (c : Cascade) (observer : Observer) (stops : List Text) (path : Text) :
    InOrder c observer stops path (c.resolve observer stops path) := by
  cases hv : Version.require c.version with
  | error e =>
    have hn : Version.require c.version ≠ .ok () := by simp [hv]
    rw [resolve_of_refused hv]
    exact ⟨fun _ _ => rfl, fun h => absurd h hn, fun h => absurd h hn, List.nil_prefix,
      fun p => by simp, fun p => List.not_mem_nil⟩
  | ok =>
    cases hf : observer.file path with
    | false =>
      have hn : ∀ e, Version.require c.version ≠ .error e := by simp [hv]
      rw [resolve_of_ignored hv hf]
      exact ⟨fun e h => absurd h (hn e), fun _ _ => rfl, fun _ h => by simp [hf] at h,
        List.nil_prefix, fun p => by simp [hf], fun p => List.not_mem_nil⟩
    | true =>
      have ha := ascent_walk c observer (stops.map Path.normal) path (Path.ancestors path) .empty
      rw [resolve_of_walk hv hf rfl]
      exact inOrder_of_ascent hv hf ha

/-- A stopped file in the nearest directory, and above it a cut in the second of three sections. -/
example :
    (resolve ⟨defaultConfigName, currentVersion, (Memory.ofFiles
        [("/.editorconfig".toList, "root=true".toList),
         ("/p/.editorconfig".toList,
          "[*]\na=1\na=2\n[\x7bx,[\x7b1..3\x7d][\x7d]]\n[*]\nb=1".toList),
         ("/p/q/.editorconfig".toList, "c=1".toList)]).fileSystem, ⟨100, 100⟩⟩
      { Observer.silent with config := (· ≠ "/p/q/.editorconfig".toList) } []
      "/p/q/1])".toList).events =
    [.file "/p/q/1])".toList, .directory "/p/q".toList, .config "/p/q/.editorconfig".toList,
     .directory "/p".toList, .config "/p/.editorconfig".toList, .line "[*]".toList,
     .line "a=1".toList, .line "a=2".toList, .line "[\x7bx,[\x7b1..3\x7d][\x7d]]".toList,
     .line "[*]".toList, .line "b=1".toList, .option "a".toList "2".toList] := by
  decide +kernel

end Cascade
end EditorConfig
