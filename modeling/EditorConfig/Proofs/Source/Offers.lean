import EditorConfig.Proofs.Source.Accepted
import EditorConfig.Proofs.Source.Grammar
import EditorConfig.Proofs.Source.Reports

/-! The options that sections offer for a path. Main statement: as long as headers are invalid at
worst, every option of a section that matches is offered, all invalid headers are reported, and
without any each accepted key has the value that was accepted last. -/
namespace EditorConfig
variable {limit : Nat}

theorem Matcher.ofHeader_eq_invalid_iff (pattern directory path : Text) :
    ofHeader limit pattern directory = .error (.invalidPattern pattern) ↔
      headerMatches limit directory pattern path = .error (.invalidPattern pattern) := by
  rw [headerMatches]
  cases ofHeader limit pattern directory with
  | error e =>
    constructor
    · intro h
      cases h
      rfl
    · intro h
      cases h
      rfl
  | ok m =>
    refine iff_of_false (fun h => ?_) fun h => ?_
    · cases h
    · cases error_of_matches? h with
      | inl he => cases he
      | inr he => cases he

namespace Section
variable (limit : Nat) (path directory : Text)

/-- The header matches the path or does not, or it is invalid. -/
def Settled (s : Section) : Prop :=
  ∀ e, headerMatches limit directory s.header path = .error e → e = .invalidPattern s.header

def Invalid (s : Section) : Prop :=
  Matcher.ofHeader limit s.header directory = .error (.invalidPattern s.header)

instance (s : Section) : Decidable (s.Invalid limit directory) :=
  inferInstanceAs (Decidable (_ = _))

instance (s : Section) : Decidable (s.Settled limit path directory) :=
  match h : headerMatches limit directory s.header path with
  | .ok _ => .isTrue fun e he => by rw [h] at he; cases he
  | .error e =>
    if hp : e = .invalidPattern s.header then
      .isTrue fun e' he => by rw [h] at he; cases he; exact hp
    else .isFalse fun hs => hp (hs e h)

def matching (s : Section) : List (Text × Text) :=
  if headerMatches limit directory s.header path = .ok true then s.options.entries else []

end Section

namespace Source

section
variable (limit : Nat) (observer : Observer) (path directory : Text)

def accepted (sections : List Section) : List (Text × Text) :=
  observer.kept (sections.flatMap (Section.matching limit path directory))

def invalidLines (sections : List Section) : List Text :=
  (sections.filter (Section.Invalid limit directory ·)).map Section.line

def visited (s : Section) : Visit :=
  if s.Invalid limit directory then .unreadable s.line
  else .options (observer.kept (s.matching limit path directory))

theorem offered_singleton (s : Section) :
    offered limit path directory [s] =
      (s.matching limit path directory).map fun e => .option e.1 e.2 := by
  unfold offered Section.matching
  by_cases h : headerMatches limit directory s.header path = .ok true <;> simp [h]

/-- A section that matches is offered, and one that is invalid is remembered. -/
theorem visit_of_settled {s : Section} (h : s.Settled limit path directory) :
    s.visit limit observer path directory =
      ⟨offered limit path directory [s], .ok (visited limit observer path directory s)⟩ := by
  have hi : s.Invalid limit directory ↔ headerMatches limit directory s.header path =
      .error (.invalidPattern s.header) :=
    Matcher.ofHeader_eq_invalid_iff s.header directory path
  rw [offered_singleton, visited, Section.visit, Section.matching]
  simp only [hi]
  cases hm : headerMatches limit directory s.header path with
  | ok matched =>
    cases matched with
    | true => exact Watched.ext (events_offer observer _) (by simp [result_offer, Except.map])
    | false => rfl
  | error e =>
    rw [h e hm]
    simp
    rfl

/-- All sections are visited, and what is offered does not depend on the invalid ones. -/
theorem visitAll_of_settled {sections : List Section}
    (h : ∀ s ∈ sections, s.Settled limit path directory) :
    visitAll limit observer path directory sections =
      ⟨offered limit path directory sections,
        .ok (sections.map (visited limit observer path directory))⟩ := by
  induction sections with
  | nil => rfl
  | cons s sections ih =>
    rw [List.forall_mem_cons] at h
    have hv := visit_of_settled limit observer path directory h.1
    rw [visitAll, hv, Watched.bind_ok rfl, ih h.2,
      offered_cons path directory s sections]
    rfl

/-- Any other error ends the visits. -/
theorem visitAll_of_error {before after : List Section} {s : Section}
    (h : ∀ t ∈ before, t.Settled limit path directory) {e : Error}
    (he : headerMatches limit directory s.header path = .error e)
    (hn : ∀ p, e ≠ .invalidPattern p) :
    visitAll limit observer path directory (before ++ s :: after) =
      ⟨offered limit path directory before, .error e⟩ := by
  induction before with
  | nil =>
    have hv : s.visit limit observer path directory = ⟨[], .error e⟩ := by
      unfold Section.visit
      rw [he]
      cases e with
      | invalidPattern p => exact absurd rfl (hn p)
      | _ => rfl
    rw [List.nil_append, visitAll, hv, Watched.bind_error rfl]
    rfl
  | cons t before ih =>
    rw [List.forall_mem_cons] at h
    have hv := visit_of_settled limit observer path directory h.1
    rw [List.cons_append, visitAll, hv, Watched.bind_ok rfl, ih h.2,
      offered_cons path directory t before]
    rfl

theorem unreadable_visited (sections : List Section) :
    (sections.map (visited limit observer path directory)).filterMap Visit.unreadable? =
      invalidLines limit directory sections := by
  induction sections with
  | nil => rfl
  | cons s sections ih =>
    rw [List.map_cons, List.filterMap_cons, ih, invalidLines, invalidLines, List.filter_cons,
      visited]
    by_cases h : s.Invalid limit directory <;> simp [h, Visit.unreadable?]

theorem accepted_visited {sections : List Section}
    (h : invalidLines limit directory sections = []) :
    (sections.map (visited limit observer path directory)).flatMap Visit.accepted =
      accepted limit observer path directory sections := by
  induction sections with
  | nil => rfl
  | cons s sections ih =>
    have hs : ¬ s.Invalid limit directory ∧ invalidLines limit directory sections = [] := by
      by_cases hi : s.Invalid limit directory
      · simp [invalidLines, hi] at h
      · simpa [invalidLines, hi] using h
    rw [List.map_cons, List.flatMap_cons, ih hs.2, visited, if_neg hs.1, accepted, accepted,
      List.flatMap_cons, Observer.kept, Observer.kept, Observer.kept, List.filter_append]
    rfl

end

/-- Every option of a matching section is offered and the accepted ones are merged, but invalid
headers are reported instead. Any other error ends the call where it comes up. -/
theorem options_offered (observer : Observer) (path directory : Text) (source : Source) :
    ((∀ s ∈ source.sections, s.Settled limit path directory) →
      (source.options limit observer path directory).events =
        offered limit path directory source.sections ∧
      (invalidLines limit directory source.sections ≠ [] →
        (source.options limit observer path directory).result =
          .error (.malformed (invalidLines limit directory source.sections) none)) ∧
      (invalidLines limit directory source.sections = [] →
        ∃ m, (source.options limit observer path directory).result = .ok m ∧
          m.entries.map Prod.fst =
            ((accepted limit observer path directory source.sections).map Prod.fst).eraseDups ∧
          ∀ key, m.get? key =
            (((accepted limit observer path directory source.sections).filter (·.1 = key)).map
              Prod.snd).getLast?)) ∧
    ∀ before s after e, source.sections = before ++ s :: after →
      (∀ t ∈ before, t.Settled limit path directory) →
      headerMatches limit directory s.header path = .error e → (∀ p, e ≠ .invalidPattern p) →
      source.options limit observer path directory =
        ⟨offered limit path directory before, .error e⟩ := by
  constructor
  · intro h
    have hv := visitAll_of_settled limit observer path directory h
    rw [options, hv, Watched.bind_ok rfl]
    simp only [unreadable_visited]
    cases hi : invalidLines limit directory source.sections with
    | nil =>
      refine ⟨List.append_nil _, absurd rfl, fun _ => ⟨_, rfl, ?_⟩⟩
      rw [accepted_visited limit observer path directory hi]
      exact ⟨OrderedMap.keys_ofList _, OrderedMap.get?_ofList _⟩
    | cons line lines =>
      exact ⟨List.append_nil _, fun _ => rfl, fun hn => absurd hn (List.cons_ne_nil line lines)⟩
  · intro before s after e hs hb he hn
    rw [options, hs, visitAll_of_error limit observer path directory hb he hn,
      Watched.bind_error rfl]

def threeSections : List Section :=
  [⟨"*".toList, .ofList [("k".toList, "1".toList)], "[*]".toList⟩,
    ⟨"[z-a]".toList, .ofList [("k".toList, "2".toList)], "[[z-a]]".toList⟩,
    ⟨"*.c".toList, .ofList [("x".toList, "3".toList), ("k".toList, "4".toList)], "[*.c]".toList⟩]

theorem options_offered_three :
    (Source.options ⟨false, threeSections⟩ 100 .silent "/a.c".toList "/".toList).events =
        [.option "k".toList "1".toList, .option "x".toList "3".toList,
          .option "k".toList "4".toList] ∧
      (Source.options ⟨false, threeSections⟩ 100 .silent "/a.c".toList "/".toList).result =
        .error (.malformed ["[[z-a]]".toList] none) := by
  have hs : ∀ s ∈ threeSections, s.Settled 100 "/a.c".toList "/".toList := by decide +kernel
  have hi : invalidLines 100 "/".toList threeSections = ["[[z-a]]".toList] := by decide +kernel
  have ho : offered 100 "/a.c".toList "/".toList threeSections =
      [.option "k".toList "1".toList, .option "x".toList "3".toList,
        .option "k".toList "4".toList] := by decide +kernel
  obtain ⟨he, hr, -⟩ :=
    (@options_offered 100 .silent "/a.c".toList "/".toList ⟨false, threeSections⟩).1 hs
  rw [hi] at hr
  exact ⟨he.trans ho, hr (List.cons_ne_nil _ _)⟩

def overnestedSection : Section := ⟨(Glob.Term.nested (999 + 1)).text, .empty, overnested⟩

theorem ofHeader_overnested (hl : limit < 1000) :
    Matcher.ofHeader limit overnestedSection.header ['/'] = .error .tooDeep := by
  have ht : Regex.ofText limit ((Glob.pieces (Glob.anchor overnestedSection.header ['/'])).flatMap
      Glob.Piece.text) = .error .tooDeep := by
    have hn : limit < 2 * (999 + 1) := by omega
    exact Glob.tooDeep_nested hn
  have hb : Glob.ShortBounds overnestedSection.header := Glob.shortBounds_nested 999
  rw [Matcher.ofHeader_eq_ite, if_neg hb.not_any_isTooLong, ht]

/-- A header that is nested too deep is not reported. -/
theorem options_unreported :
    ¬ ∃ limit, limit < 1000 ∧ ∀ (source : Source) observer path directory,
      (∀ s ∈ source.sections,
        headerMatches limit directory s.header path ≠ .error .numeralTooLong ∧
          headerMatches limit directory s.header path ≠ .error .missingGroup) →
      (∃ s ∈ source.sections, ¬ ∃ m, Matcher.ofHeader limit s.header directory = .ok m) →
      ∃ lines,
        (source.options limit observer path directory).result = .error (.malformed lines none) := by
  intro h
  obtain ⟨limit, hlimit, h⟩ := h
  have hm : headerMatches limit ['/'] overnestedSection.header ['/'] = .error .tooDeep := by
    rw [headerMatches, ofHeader_overnested hlimit]
    rfl
  have he : ∀ e : Error, e ≠ .tooDeep →
      headerMatches limit ['/'] overnestedSection.header ['/'] ≠ .error e := by
    intro e he h
    rw [hm] at h
    cases h
    exact he rfl
  have hv : visitAll limit .silent ['/'] ['/'] [overnestedSection] = ⟨[], .error .tooDeep⟩ := by
    refine @visitAll_of_error limit .silent ['/'] ['/'] [] [] _ (List.forall_mem_nil _) _ hm ?_
    intro p h
    cases h
  have hn : ¬ ∃ m, Matcher.ofHeader limit overnestedSection.header ['/'] = .ok m := by
    rw [ofHeader_overnested hlimit]
    rintro ⟨m, h⟩
    cases h
  obtain ⟨lines, hl⟩ := h ⟨false, [overnestedSection]⟩ .silent ['/'] ['/']
    (List.forall_mem_singleton.2 ⟨he _ Error.noConfusion, he _ Error.noConfusion⟩)
    ⟨_, List.mem_singleton_self _, hn⟩
  rw [options, hv] at hl
  cases hl

end Source
end EditorConfig
