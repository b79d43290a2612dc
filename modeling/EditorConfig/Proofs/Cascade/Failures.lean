import EditorConfig.Proofs.Cascade.FlatPass
import EditorConfig.Proofs.Source.Header
import EditorConfig.Proofs.Version

/-! The errors of a resolution. Main statement: an error that is not documented comes exactly
from an excessive header, or from one whose ranges are overrun, in the nearest file that fails. -/
namespace EditorConfig
variable {reading limit : Nat}

def Error.Documented : Error → Prop
  | .newerVersion _ | .malformed _ _ => True
  | _ => False

theorem Error.documented_inFile (path : Text) (e : Error) :
    (e.inFile path).Documented ↔ e.Documented := by
  cases e <;> exact Iff.rfl

namespace Statement
variable {line pattern : Text} {e : Error}

theorem read_error (h : read limit line = .error e) :
    ¬ e.Documented ∧ ∃ pattern, pattern? line = some pattern ∧ Glob.Excessive limit pattern := by
  obtain ⟨pattern, hh, he, hn⟩ := read_eq_error_iff.1 h
  have hp := pattern?_eq_some_iff.2 hh
  rcases Matcher.ofHeader_error he with rfl | ⟨hx, rfl | rfl⟩
  · exact absurd rfl (hn pattern)
  · exact ⟨id, pattern, hp, hx⟩
  · exact ⟨id, pattern, hp, hx⟩

theorem read_of_excessive (hp : pattern? line = some pattern)
    (hx : Glob.Excessive limit pattern) : ∃ e, read limit line = .error e := by
  obtain ⟨e, he, hor⟩ := Matcher.ofHeader_of_excessive hx
  refine ⟨e, read_eq_error_iff.2 ⟨pattern, header_of_pattern? hp, he, fun p hi => ?_⟩⟩
  rcases hor with rfl | rfl <;> cases hi

end Statement

namespace Source

def HasExcessive (limit : Nat) (text : Text) : Prop :=
  ∃ line ∈ (Text.lines text).map Text.bareLine, ∃ pattern,
    Statement.pattern? line = some pattern ∧ Glob.Excessive limit pattern

/-- Malformed lines are only looked for once every line has been read. -/
theorem statements_error_iff {text : Text} :
    (∃ e, statements limit text = .error e ∧ ¬ e.Documented) ↔ HasExcessive limit text := by
  rw [statements]
  cases hr : ((Text.lines text).map Text.bareLine).mapM (Statement.read limit) with
  | error e =>
    obtain ⟨before, line, after, hl, -, he⟩ := mapM_eq_error_iff.1 hr
    obtain ⟨hd, hx⟩ := Statement.read_error he
    exact iff_of_true ⟨e, rfl, hd⟩ ⟨line, by simp [hl], hx⟩
  | ok ss =>
    refine iff_of_false ?_ ?_
    · intro h
      obtain ⟨e, he, hd⟩ := h
      simp only [bind, Except.bind] at he
      split at he
      · cases he
      · cases he
        exact hd trivial
    · intro h
      obtain ⟨line, hl, pattern, hp, hx⟩ := h
      obtain ⟨e, he⟩ := Statement.read_of_excessive hp hx
      obtain ⟨s, hs⟩ := ok_of_mapM hr hl
      rw [he] at hs
      cases hs

theorem assignments_error {accepts : Text → Except Error Bool} {inForce : Bool}
    {ss : List Statement} {e : Error} (h : assignments accepts inForce ss = .error e) :
    ∃ pattern line, .header pattern line ∈ ss ∧ accepts pattern = .error e := by
  induction ss generalizing inForce with
  | nil => cases h
  | cons s ss ih =>
    have hr : ∀ inForce, assignments accepts inForce ss = .error e →
        ∃ pattern line, .header pattern line ∈ s :: ss ∧ accepts pattern = .error e := by
      intro inForce h
      obtain ⟨pattern, line, hm, ha⟩ := ih h
      exact ⟨pattern, line, List.mem_cons_of_mem s hm, ha⟩
    cases s with
    | skipped => exact hr inForce h
    | malformed line => exact hr inForce h
    | option key value =>
      rw [assignments] at h
      cases ha : assignments accepts inForce ss with
      | error e' =>
        rw [ha] at h
        cases h
        exact hr inForce ha
      | ok more =>
        rw [ha] at h
        cases h
    | header pattern line =>
      rw [assignments] at h
      cases ha : accepts pattern with
      | error e' =>
        rw [ha] at h
        cases h
        exact ⟨pattern, line, List.mem_cons_self, ha⟩
      | ok accepted =>
        rw [ha] at h
        exact hr accepted h

theorem ok_of_assignments {accepts : Text → Except Error Bool} {inForce : Bool}
    {ss : List Statement} {assigned : List (Text × Text)}
    (h : assignments accepts inForce ss = .ok assigned) {pattern line : Text}
    (hs : .header pattern line ∈ ss) : ∃ accepted, accepts pattern = .ok accepted := by
  induction ss generalizing inForce assigned with
  | nil => cases hs
  | cons s ss ih =>
    cases s with
    | skipped => exact ih h (by simpa using hs)
    | malformed line => exact ih h (by simpa using hs)
    | option key value =>
      rw [assignments] at h
      cases ha : assignments accepts inForce ss with
      | error e' =>
        rw [ha] at h
        cases h
      | ok more => exact ih ha (by simpa using hs)
    | header pattern' line' =>
      rw [assignments] at h
      cases ha : accepts pattern' with
      | error e' =>
        rw [ha] at h
        cases h
      | ok accepted =>
        rw [ha] at h
        cases hs with
        | head => exact ⟨accepted, ha⟩
        | tail _ hs => exact ih h hs

end Source

/-- Of a header that was accepted once, a match fails if there is no room for it any more, or if
the path overruns its ranges. -/
theorem headerMatches_error_iff {pattern : Text} {m : Matcher}
    (h : Matcher.ofHeader reading pattern ['/'] = .ok m) (directory path : Text) :
    (∃ e, headerMatches limit directory pattern path = .error e) ↔
      Glob.TooDeep limit pattern ∨
        ∃ matcher, Matcher.ofHeader limit pattern directory = .ok matcher ∧
          matcher.Overruns path := by
  have hd := Matcher.tooDeep_iff h limit
  rw [headerMatches, Matcher.ofHeader_eq]
  rcases Matcher.ofHeader_ok_or_tooDeep h limit with hl | hl
  · have hn : ¬ Glob.TooDeep limit pattern := by
      rw [hd, hl]
      intro he
      cases he
    rw [hl]
    simpa [hn, Except.map, bind, Except.bind] using Matcher.matches?_error_iff
  · rw [hl]
    exact iff_of_true ⟨_, rfl⟩ (.inl (hd.2 hl))

namespace Memory
variable (m : Memory) (limits : Limits) (name : Text)

/-- The file of a directory holds an excessive header, or else can be read and holds a header for
which there is no room any more, or whose ranges are overrun by the path. -/
def Breaks (path directory : Text) : Prop :=
  ∃ text, m.config? name directory = some text ∧
    (Source.HasExcessive limits.reading text ∨
      ∃ ss, Source.statements limits.reading text = .ok ss ∧
        ∃ pattern line, .header pattern line ∈ ss ∧
          (Glob.TooDeep limits.visiting pattern ∨
            ∃ matcher, Matcher.ofHeader limits.visiting pattern directory = .ok matcher ∧
              matcher.Overruns path))

theorem assignmentsIn_error_iff {path directory : Text} :
    (∃ e, m.assignmentsIn limits name path directory = .error e ∧ ¬ e.Documented) ↔
      m.Breaks limits name path directory := by
  rw [assignmentsIn, Breaks]
  cases m.config? name directory with
  | none => simp [pure, Except.pure]
  | some text =>
    have hx := @Source.statements_error_iff limits.reading text
    simp only [Option.some.injEq, exists_eq_left']
    cases hs : Source.statements limits.reading text with
    | error e =>
      rw [← hx, hs]
      simp [Except.bind, Except.mapError, Error.documented_inFile]
    | ok ss =>
      have hn : ¬ Source.HasExcessive limits.reading text := by
        rw [← hx, hs]
        simp
      simp only [hn, false_or, Except.ok.injEq, exists_eq_left', Except.bind]
      cases ha : Source.assignments (headerMatches limits.visiting directory · path) false ss with
      | error e =>
        obtain ⟨pattern, line, hp, he⟩ := Source.assignments_error ha
        obtain ⟨matcher, ho⟩ := Source.ofHeader_of_mem_statements hs hp
        have hb := (headerMatches_error_iff ho directory path).1 ⟨e, he⟩
        refine iff_of_true ⟨_, rfl, ?_⟩ ⟨pattern, line, hp, hb⟩
        rw [Error.documented_inFile]
        rcases error_of_headerMatches ho he with rfl | rfl | rfl <;> exact id
      | ok assigned =>
        refine iff_of_false ?_ ?_
        · intro h
          obtain ⟨e, he, -⟩ := h
          cases he
        · intro h
          obtain ⟨pattern, line, hp, hb⟩ := h
          obtain ⟨matcher, ho⟩ := Source.ofHeader_of_mem_statements hs hp
          obtain ⟨e, he⟩ := (headerMatches_error_iff ho directory path).2 hb
          obtain ⟨accepted, hok⟩ := Source.ok_of_assignments ha hp
          rw [he] at hok
          cases hok

end Memory

namespace Cascade
variable (m : Memory) (limits : Limits) (name : Text)

/-- An error that is not documented ends a resolution exactly if a file breaks, and none fails in
a nearer directory. -/
theorem resolve_undocumented_iff {version : Text} (hv : Version.Short version)
    (stops : List Text) (path : Text) :
    (∃ e, (resolve ⟨name, version, m.fileSystem, limits⟩ .silent stops path).result = .error e ∧
        ¬ e.Documented) ↔
      Version.require version = .ok () ∧ ∃ nearer directory farther,
        m.visited limits name stops path = nearer ++ directory :: farther ∧
          (∀ d ∈ nearer, ∃ assigned, m.assignmentsIn limits name path d = .ok assigned) ∧
            m.Breaks limits name path directory := by
  cases Version.require_of_short hv with
  | inl hr =>
    have he : ∀ e,
        (resolve ⟨name, version, m.fileSystem, limits⟩ .silent stops path).result = .error e ↔
        (m.visited limits name stops path).mapM (m.assignmentsIn limits name path) = .error e := by
      intro e
      rw [result_resolve m limits name version hr, result_visited]
      cases (m.visited limits name stops path).mapM (m.assignmentsIn limits name path) <;>
        simp [Except.map]
    simp only [hr, true_and, he, mapM_eq_error_iff, ← Memory.assignmentsIn_error_iff]
    constructor
    · intro h
      obtain ⟨e, ⟨nearer, directory, farther, hs, hn, hd⟩, hu⟩ := h
      exact ⟨nearer, directory, farther, hs, hn, e, hd, hu⟩
    · intro h
      obtain ⟨nearer, directory, farther, hs, hn, e, hd, hu⟩ := h
      exact ⟨e, ⟨nearer, directory, farther, hs, hn, hd⟩, hu⟩
  | inr hr =>
    refine iff_of_false ?_ ?_
    · intro h
      obtain ⟨e, he, hd⟩ := h
      rw [resolve, Watched.bind_error hr] at he
      cases he
      exact hd trivial
    · intro h
      rw [hr] at h
      cases h.1

/-- A file with a header in which a class takes the parentheses of a range, and a choice ends
with the bracket of another class. -/
def withoutGroup : Memory :=
  .ofFiles [("/p/.editorconfig".toList, "[\x7bx,[\x7b1..3\x7d][\x7d]]\nk=v".toList)]

theorem result_withoutGroup :
    (resolve ⟨".editorconfig".toList, currentVersion, withoutGroup.fileSystem, ⟨100, 100⟩⟩
      .silent [] "/p/1])".toList).result = .error .missingGroup := by
  have h : ((resolve ⟨".editorconfig".toList, currentVersion, withoutGroup.fileSystem,
      ⟨100, 100⟩⟩ .silent [] "/p/1])".toList).result.map OrderedMap.entries) =
        .error .missingGroup := by
    decide +kernel
  cases hr : (resolve ⟨".editorconfig".toList, currentVersion, withoutGroup.fileSystem,
      ⟨100, 100⟩⟩ .silent [] "/p/1])".toList).result with
  | error e =>
    rw [hr] at h
    cases h
    rfl
  | ok properties =>
    rw [hr] at h
    cases h

theorem resolve_undocumented :
    ∃ e, (resolve ⟨".editorconfig".toList, currentVersion, withoutGroup.fileSystem, ⟨100, 100⟩⟩
      .silent [] "/p/1])".toList).result = .error e ∧ ¬ e.Documented :=
  ⟨_, result_withoutGroup, id⟩

theorem breaks_withoutGroup :
    Version.Short currentVersion ∧ ∃ nearer directory farther,
      withoutGroup.visited ⟨100, 100⟩ ".editorconfig".toList [] "/p/1])".toList =
        nearer ++ directory :: farther ∧
          withoutGroup.Breaks ⟨100, 100⟩ ".editorconfig".toList "/p/1])".toList directory := by
  obtain ⟨-, nearer, directory, farther, hs, -, hb⟩ :=
    (resolve_undocumented_iff withoutGroup ⟨100, 100⟩ ".editorconfig".toList
      Version.short_current [] "/p/1])".toList).1 ⟨_, result_withoutGroup, id⟩
  exact ⟨Version.short_current, nearer, directory, farther, hs, hb⟩

end Cascade
end EditorConfig
