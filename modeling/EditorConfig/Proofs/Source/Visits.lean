import EditorConfig.Source.Options
import EditorConfig.Proofs.Glob.Overrun
import EditorConfig.Proofs.Traversal

/-! What the sections of a file have for a path, whatever the observer. Main statement: where all
headers can be made out, the sections are visited like any steps taken in turn, and only a match
can fail. -/
namespace EditorConfig
variable {reading limit : Nat}

namespace Watched
variable {α β : Type}

theorem result_bind (w : Watched α) (next : α → Watched β) :
    (w >>= next).result = w.result >>= fun a => (next a).result := by
  cases h : w.result with
  | error e =>
    rw [bind_error h]
    rfl
  | ok a =>
    rw [bind_ok h]
    rfl

theorem exists_of_bind {w : Watched α} {next : α → Watched β} {b : β}
    (h : (w >>= next).result = .ok b) : ∃ a, w.result = .ok a ∧ (next a).result = .ok b := by
  cases hr : w.result with
  | error e =>
    rw [bind_error hr] at h
    cases h
  | ok a =>
    rw [bind_ok hr] at h
    exact ⟨a, rfl, h⟩

end Watched

namespace Observer

def kept (observer : Observer) (options : List (Text × Text)) : List (Text × Text) :=
  options.filter fun e => observer.option e.1 e.2

theorem kept_silent (options : List (Text × Text)) : silent.kept options = options :=
  List.filter_eq_self.2 fun _ _ => rfl

end Observer

/-- A header that could be made out at the top can be made out below every directory, unless
there is less room; then a match fails for a number or a missing group only. -/
theorem error_of_headerMatches {pattern directory path : Text} {m : Matcher}
    (h : Matcher.ofHeader reading pattern ['/'] = .ok m) {e : Error}
    (he : headerMatches limit directory pattern path = .error e) :
    e = .numeralTooLong ∨ e = .missingGroup ∨ e = .tooDeep := by
  rw [headerMatches_eq] at he
  rcases Matcher.ofHeader_ok_or_tooDeep h limit with hl | hl
  · rw [hl] at he
    exact (Matcher.error_of_matches? he).imp_right .inl
  · rw [hl] at he
    cases he
    exact .inr (.inr rfl)

theorem headerMatches_ne_invalid {pattern : Text} {m : Matcher}
    (h : Matcher.ofHeader reading pattern ['/'] = .ok m) (directory path p : Text) :
    headerMatches limit directory pattern path ≠ .error (.invalidPattern p) := by
  intro hm
  rcases error_of_headerMatches h hm with he | he | he <;> cases he

namespace Source
variable (observer : Observer) (path directory : Text)

theorem result_readLines (lines : List Text) :
    (readLines limit observer lines).result =
      lines.mapM fun line =>
        if observer.line line then Statement.read limit line else .ok .skipped := by
  induction lines with
  | nil => rfl
  | cons line lines ih =>
    rw [readLines, List.mapM_cons, Watched.report_bind]
    cases observer.line line with
    | true =>
      simp only [if_true, Watched.result_bind, Watched.result_map, ih]
      rfl
    | false =>
      simp only [Bool.false_eq_true, if_false, Watched.result_bind, Watched.result_map, ih]
      rfl

theorem result_offer (options : List (Text × Text)) :
    (offer observer options).result = .ok (observer.kept options) := by
  induction options with
  | nil => rfl
  | cons option options ih =>
    rw [offer, Watched.report_bind, Observer.kept, List.filter_cons]
    cases ho : observer.option option.1 option.2 with
    | true =>
      simp only [if_true, Watched.result_map, ih]
      rfl
    | false =>
      simp only [Bool.false_eq_true, if_false, ih]
      rfl

/-- What a section has for a path, if nothing but its match can fail. -/
theorem result_visit (s : Section)
    (h : ∀ p, headerMatches limit directory s.header path ≠ .error (.invalidPattern p)) :
    (s.visit limit observer path directory).result =
      (headerMatches limit directory s.header path).map fun accepted =>
        .options (if accepted then observer.kept s.options.entries else []) := by
  rw [Section.visit]
  cases hm : headerMatches limit directory s.header path with
  | ok accepted =>
    cases accepted with
    | true =>
      rw [Watched.result_map, result_offer]
      rfl
    | false => rfl
  | error e =>
    cases e with
    | invalidPattern p => exact absurd hm (h p)
    | _ => rfl

theorem result_visitAll_cons (s : Section) (sections : List Section)
    (h : ∀ p, headerMatches limit directory s.header path ≠ .error (.invalidPattern p)) :
    (visitAll limit observer path directory (s :: sections)).result =
      (headerMatches limit directory s.header path).bind fun accepted =>
        (visitAll limit observer path directory sections).result.map
          (.options (if accepted then observer.kept s.options.entries else []) :: ·) := by
  rw [visitAll, Watched.result_bind, result_visit observer path directory s h]
  cases headerMatches limit directory s.header path <;> rfl

theorem result_visitAll {sections : List Section}
    (h : ∀ s ∈ sections, ∀ p,
      headerMatches limit directory s.header path ≠ .error (.invalidPattern p)) :
    (visitAll limit observer path directory sections).result =
      sections.mapM fun s => (headerMatches limit directory s.header path).map fun accepted =>
        .options (if accepted then observer.kept s.options.entries else []) := by
  induction sections with
  | nil => rfl
  | cons s sections ih =>
    have ih' := ih fun k hk => h k (List.mem_cons_of_mem s hk)
    rw [result_visitAll_cons observer path directory s sections (h s List.mem_cons_self), ih',
      List.mapM_cons]
    cases headerMatches limit directory s.header path <;> rfl

theorem readable_visitAll {sections : List Section}
    (h : ∀ s ∈ sections, ∀ p,
      headerMatches limit directory s.header path ≠ .error (.invalidPattern p))
    {visits : List Visit}
    (hv : (visitAll limit observer path directory sections).result = .ok visits) :
    visits.filterMap Visit.unreadable? = [] := by
  rw [result_visitAll observer path directory h] at hv
  refine List.filterMap_eq_nil_iff.2 fun visit hm => ?_
  obtain ⟨s, -, hs⟩ := mem_of_mapM hv hm
  cases hd : headerMatches limit directory s.header path with
  | error e =>
    rw [hd] at hs
    cases hs
  | ok accepted =>
    rw [hd] at hs
    cases hs
    rfl

end Source
end EditorConfig
