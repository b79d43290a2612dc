import EditorConfig.Proofs.Source.Header
import EditorConfig.Proofs.Source.Visits

/-! What is reported while a file is read. Main statement: each line is reported in its place, and
behind the lines each option under a header that accepts the path, unless an error other than
malformed lines cuts the report short. -/
namespace EditorConfig
variable {reading limit : Nat}

namespace Watched
variable {α β : Type}

def IsCut (w : Watched α) : Prop :=
  ∃ e, w.result = .error e ∧ ∀ lines path, e ≠ .malformed lines path

/-- A run reports a list of events: all of them, or the first ones if it is cut short. -/
structure Reports (w : Watched α) (all : List Event) : Prop where
  beginning : w.events <+: all
  whole : ¬ w.IsCut → w.events = all

theorem not_isCut_of_ok {w : Watched α} {a : α} (h : w.result = .ok a) : ¬ w.IsCut := by
  intro hc
  obtain ⟨e, he, -⟩ := hc
  rw [h] at he
  cases he

/-- Only the error of a run tells whether it is cut short. -/
theorem isCut_map {result : Except Error α} (f : α → β) (before after : List Event) :
    (Watched.mk after (result.map f)).IsCut ↔ (Watched.mk before result).IsCut := by
  cases result <;> simp [IsCut, Except.map]

theorem Reports.of_eq {w : Watched α} {all : List Event} (h : w.events = all) : w.Reports all :=
  ⟨h ▸ List.prefix_rfl, fun _ => h⟩

theorem reports_pure (a : α) : (pure a : Watched α).Reports [] := .of_eq rfl

theorem Reports.map {w : Watched α} {all : List Event} (h : w.Reports all) (f : α → β) :
    (f <$> w).Reports all :=
  ⟨h.beginning, fun hn => h.whole fun hc => hn ((isCut_map f w.events w.events).2 hc)⟩

/-- What the second step reports follows what the first one does. If the first one fails for
malformed lines, there is nothing to follow. -/
theorem Reports.bind {w : Watched α} {next : α → Watched β} {first second : List Event}
    (hf : w.Reports first) (hs : ∀ a, w.result = .ok a → (next a).Reports second)
    (hm : ∀ lines path, w.result = .error (.malformed lines path) → second = []) :
    (w >>= next).Reports (first ++ second) := by
  cases hw : w.result with
  | ok a =>
    have he := hf.whole (not_isCut_of_ok hw)
    have hr := hs a hw
    rw [bind_ok hw, he]
    refine ⟨(List.prefix_append_right_inj first).2 hr.beginning, fun hn => ?_⟩
    exact congrArg (first ++ ·) (hr.whole hn)
  | error e =>
    rw [bind_error hw]
    refine ⟨hf.beginning.trans (List.prefix_append first second), fun hn => ?_⟩
    have hd : ∃ lines path, e = .malformed lines path := by
      by_contra hne
      simp only [not_exists] at hne
      exact hn ⟨e, rfl, hne⟩
    obtain ⟨lines, path, rfl⟩ := hd
    rw [hm lines path hw, List.append_nil]
    refine hf.whole fun hc => ?_
    obtain ⟨e', he, hne⟩ := hc
    rw [hw] at he
    cases he
    exact hne lines path rfl

theorem Reports.report_bind {next : Unit → Watched β} {all : List Event} (event : Event)
    (h : (next ()).Reports all) : (report event >>= next).Reports (event :: all) := by
  have hr : (report event).Reports [event] := .of_eq rfl
  exact hr.bind (fun _ _ => h) nofun

theorem isCut_inFile {w : Watched α} {path : Text} :
    (mapError (Error.inFile path) w).IsCut ↔ w.IsCut := by
  have hr : (mapError (Error.inFile path) w).result = w.result.mapError (Error.inFile path) := rfl
  unfold IsCut
  rw [hr]
  cases w.result with
  | ok a => simp [Except.mapError]
  | error e => cases e <;> simp [Except.mapError, Error.inFile]

theorem Reports.inFile {w : Watched α} {all : List Event} (h : w.Reports all) (path : Text) :
    (mapError (Error.inFile path) w).Reports all :=
  ⟨h.beginning, fun hn => h.whole fun hc => hn (isCut_inFile.2 hc)⟩

end Watched

/-- To match a header is not to read a file, so no line is called malformed. -/
theorem headerMatches_ne_malformed (directory pattern path : Text) (lines : List Text)
    (file : Option Text) :
    headerMatches limit directory pattern path ≠ .error (.malformed lines file) := by
  intro h
  rw [headerMatches_eq] at h
  cases hm : Matcher.ofHeader limit pattern ['/'] with
  | ok m =>
    rw [hm] at h
    rcases Matcher.error_of_matches? h with he | he <;> cases he
  | error e =>
    rw [hm] at h
    cases h
    rcases Matcher.ofHeader_error hm with he | ⟨-, he | he⟩ <;> cases he

/-- Malformed lines are no error of the line that is read. -/
theorem Statement.read_ne_malformed (line : Text) (lines : List Text) (path : Option Text) :
    read limit line ≠ .error (.malformed lines path) := by
  intro h
  obtain ⟨pattern, -, he, -⟩ := read_eq_error_iff.1 h
  rcases Matcher.ofHeader_error he with hi | ⟨-, hi | hi⟩ <;> cases hi

namespace Source
variable (observer : Observer) (path directory : Text)

theorem readLines_ne_malformed (lines : List Text) (bad : List Text) (file : Option Text) :
    (readLines limit observer lines).result ≠ .error (.malformed bad file) := by
  intro h
  rw [result_readLines] at h
  obtain ⟨before, line, after, -, -, he⟩ := mapM_eq_error_iff.1 h
  split at he
  · exact Statement.read_ne_malformed line bad file he
  · cases he

theorem reports_readLines (lines : List Text) :
    (readLines limit observer lines).Reports (lines.map .line) := by
  induction lines with
  | nil => exact Watched.reports_pure []
  | cons line lines ih =>
    refine Watched.Reports.report_bind _ ?_
    cases observer.line line with
    | false => exact ih.map _
    | true =>
      refine Watched.Reports.bind (.of_eq rfl) (fun statement _ => ih.map _) ?_
      intro bad file h
      exact absurd h (Statement.read_ne_malformed line bad file)

theorem reports_ofText (text : Text) :
    (ofText limit observer text).Reports (((Text.lines text).map Text.bareLine).map .line) := by
  have hl := @reports_readLines limit observer ((Text.lines text).map Text.bareLine)
  rw [← List.append_nil (List.map Event.line _)]
  refine hl.bind (fun statements _ => ?_) fun _ _ _ => rfl
  split
  · exact Watched.reports_pure _
  · exact .of_eq rfl

def offered (limit : Nat) (path directory : Text) (sections : List Section) : List Event :=
  (sections.filter fun s => headerMatches limit directory s.header path = .ok true).flatMap
    fun s => s.options.entries.map fun e => .option e.1 e.2

theorem offered_cons (s : Section) (sections : List Section) :
    offered limit path directory (s :: sections) =
      offered limit path directory [s] ++ offered limit path directory sections := by
  rw [offered, ← List.singleton_append, List.filter_append, List.flatMap_append]
  rfl

theorem events_offer (options : List (Text × Text)) :
    (offer observer options).events = options.map fun e => .option e.1 e.2 := by
  induction options with
  | nil => rfl
  | cons option options ih =>
    rw [offer, Watched.report_bind, List.map_cons, ← ih]
    split <;> rfl

theorem reports_visit (s : Section) :
    (s.visit limit observer path directory).Reports (offered limit path directory [s]) := by
  unfold Section.visit offered
  split
  next h => simpa [h] using (Watched.Reports.of_eq (events_offer observer _)).map _
  next h => simpa [h] using Watched.reports_pure _
  next h => simpa [h] using Watched.reports_pure _
  next e _ h =>
    refine .of_eq ?_
    simp [h, Watched.fail]

theorem visit_ne_malformed (s : Section) (lines : List Text) (file : Option Text) :
    (s.visit limit observer path directory).result ≠ .error (.malformed lines file) := by
  intro h
  unfold Section.visit at h
  split at h
  · rw [Watched.result_map, result_offer] at h
    cases h
  · cases h
  · cases h
  next hm =>
    cases h
    exact headerMatches_ne_malformed _ _ _ _ _ hm

theorem reports_visitAll (sections : List Section) :
    (visitAll limit observer path directory sections).Reports
      (offered limit path directory sections) := by
  induction sections with
  | nil => exact Watched.reports_pure []
  | cons s sections ih =>
    rw [offered_cons]
    refine (reports_visit observer path directory s).bind (fun visit _ => ih.map _) ?_
    intro lines file h
    exact absurd h (visit_ne_malformed observer path directory s lines file)

theorem reports_options (source : Source) :
    (source.options limit observer path directory).Reports
      (offered limit path directory source.sections) := by
  have hv := @reports_visitAll limit observer path directory source.sections
  rw [← List.append_nil (offered limit path directory source.sections)]
  refine hv.bind (fun visits _ => ?_) fun _ _ _ => rfl
  split
  · exact Watched.reports_pure _
  · exact .of_eq rfl

def fullReport (reading limit : Nat) (text : Text) : List Event :=
  ((Text.lines text).map Text.bareLine).map .line ++
    match (ofText reading observer text).result with
    | .ok source => offered limit path directory source.sections
    | .error _ => []

theorem reports_fullReport (text : Text) :
    (ofText reading observer text >>= fun source =>
      (source.isRoot, ·) <$> source.options limit observer path directory).Reports
        (fullReport observer path directory reading limit text) := by
  refine (reports_ofText observer text).bind ?_ ?_
  · intro source h
    rw [h]
    exact (reports_options observer path directory source).map _
  · intro lines file h
    rw [h]

end Source
end EditorConfig
