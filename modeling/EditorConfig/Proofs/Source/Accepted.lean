import EditorConfig.Proofs.Source.Assignments

/-! Headers of a file that could be read. Main statement: a header that is accepted once is
accepted below every directory with the same ranges, so what has been read never turns out to be
malformed where it is matched. -/
namespace EditorConfig

namespace Matcher
variable (limit : Nat) (pattern directory directory' : Text)

/-- Below every directory a header is made out with the same ranges, or fails for the same
cause. -/
theorem ranges_ofHeader :
    (ofHeader limit pattern directory).map ranges =
      (ofHeader limit pattern directory').map ranges := by
  rw [ofHeader_eq pattern directory, ofHeader_eq pattern directory']
  cases ofHeader limit pattern ['/'] <;> rfl

theorem error_ofHeader (e : Error) :
    ofHeader limit pattern directory = .error e ↔
      ofHeader limit pattern directory' = .error e := by
  rw [ofHeader_eq pattern directory, ofHeader_eq pattern directory']
  cases ofHeader limit pattern ['/'] <;> simp [Except.map]

end Matcher

/-- The ranges of a header are those of its glob, whether or not its expression can be read. -/
theorem Glob.ranges_expression (pattern directory directory' : Text) :
    (expression (anchor pattern directory)).map Expression.ranges =
      (expression (anchor pattern directory')).map Expression.ranges := by
  unfold expression
  simp only [bounds_anchor pattern directory, bounds_anchor pattern directory']
  split <;> rfl

namespace Source
variable {reading limit : Nat}

/-- The statements that a source is made of have been read from the lines of the text. -/
theorem exists_statements {observer : Observer} {text : Text} {source : Source}
    (h : (ofText limit observer text).result = .ok source) :
    ∃ ss, source = ofStatements ss ∧
      ((Text.lines text).map Text.bareLine).mapM (fun line =>
        if observer.line line then Statement.read limit line else .ok .skipped) = .ok ss := by
  rw [ofText, Watched.result_bind, result_readLines] at h
  cases hr : ((Text.lines text).map Text.bareLine).mapM fun line =>
      if observer.line line then Statement.read limit line else .ok .skipped with
  | error e =>
    rw [hr] at h
    cases h
  | ok ss =>
    rw [hr] at h
    simp only [bind, Except.bind] at h
    split at h
    · cases h
      exact ⟨ss, rfl, rfl⟩
    · cases h

theorem ofHeader_of_mem_sections {observer : Observer} {text : Text} {source : Source}
    (h : (ofText limit observer text).result = .ok source) {s : Section}
    (hs : s ∈ source.sections) : ∃ m, Matcher.ofHeader limit s.header ['/'] = .ok m := by
  obtain ⟨ss, rfl, hr⟩ := exists_statements h
  obtain ⟨written, -, hw⟩ := mem_of_mapM hr (mem_split hs)
  split at hw
  · exact Statement.ofHeader_of_read hw
  · cases hw

theorem options_ne_malformed {source : Source}
    (h : ∀ s ∈ source.sections, ∃ m, Matcher.ofHeader reading s.header ['/'] = .ok m)
    (observer : Observer) (path directory : Text) (lines : List Text) (file : Option Text) :
    (source.options limit observer path directory).result ≠ .error (.malformed lines file) := by
  intro ho
  have hi : ∀ s ∈ source.sections, ∀ p,
      headerMatches limit directory s.header path ≠ .error (.invalidPattern p) := by
    intro s hs
    obtain ⟨m, hm⟩ := h s hs
    exact headerMatches_ne_invalid hm directory path
  rw [options, Watched.result_bind] at ho
  cases hv : (visitAll limit observer path directory source.sections).result with
  | error e =>
    rw [hv] at ho
    cases ho
    rw [result_visitAll observer path directory hi] at hv
    obtain ⟨before, s, after, hs, -, he⟩ := mapM_eq_error_iff.1 hv
    obtain ⟨m, hm⟩ := h s (by rw [hs]; exact List.mem_append_right before List.mem_cons_self)
    cases hd : headerMatches limit directory s.header path with
    | error e =>
      rw [hd] at he
      cases he
      rcases error_of_headerMatches hm hd with he | he | he <;> cases he
    | ok accepted =>
      rw [hd] at he
      cases he
  | ok visits =>
    have hu := readable_visitAll observer path directory hi hv
    rw [hv] at ho
    simp only [bind, Except.bind, hu] at ho
    cases ho

/-- A header is refused below every directory or below none, its ranges are the same below all,
and no header of a file that could be read is reported when the file's options are asked for, with
as much room as there was before or with other. -/
theorem accepted_everywhere :
    (∀ limit pattern directory directory',
      ((∃ p, Matcher.ofHeader limit pattern directory = .error (.invalidPattern p)) ↔
        ∃ p, Matcher.ofHeader limit pattern directory' = .error (.invalidPattern p)) ∧
      (Matcher.ofHeader limit pattern directory).map Matcher.ranges =
        (Matcher.ofHeader limit pattern directory').map Matcher.ranges ∧
      (Glob.expression (Glob.anchor pattern directory)).map Glob.Expression.ranges =
        (Glob.expression (Glob.anchor pattern directory')).map Glob.Expression.ranges) ∧
    ∀ reading observer text source, (ofText reading observer text).result = .ok source →
      ∀ limit observer' path directory lines file,
        (source.options limit observer' path directory).result ≠
          .error (.malformed lines file) := by
  constructor
  · intro limit pattern directory directory'
    have he := fun p =>
      Matcher.error_ofHeader limit pattern directory directory' (.invalidPattern p)
    exact ⟨exists_congr he, Matcher.ranges_ofHeader limit pattern directory directory',
      Glob.ranges_expression pattern directory directory'⟩
  · intro reading observer text source h limit
    exact options_ne_malformed fun s hs => ofHeader_of_mem_sections h hs

/-- Choices, classes and ranges, below a directory whose name is made of their characters. -/
theorem accepted_below_wildcards :
    ∃ source,
      (ofText 100 .silent "[\x7ba,[!b]\x7d/\x7b1..3\x7d*]\nk=v".toList).result = .ok source ∧
      source.sections.map Section.header = ["\x7ba,[!b]\x7d/\x7b1..3\x7d*".toList] ∧
      ∀ limit observer path lines file,
        (source.options limit observer path "/\x7b,[\\".toList).result ≠
          .error (.malformed lines file) := by
  have hr : (ofText 100 .silent "[\x7ba,[!b]\x7d/\x7b1..3\x7d*]\nk=v".toList).result.map
      (fun source => source.sections.map Section.header) =
        .ok ["\x7ba,[!b]\x7d/\x7b1..3\x7d*".toList] := by decide +kernel
  cases hs : (ofText 100 .silent "[\x7ba,[!b]\x7d/\x7b1..3\x7d*]\nk=v".toList).result with
  | error e =>
    rw [hs] at hr
    cases hr
  | ok source =>
    rw [hs] at hr
    have hh := Except.ok.inj hr
    exact ⟨source, rfl, hh, fun limit observer path =>
      accepted_everywhere.2 100 .silent _ source hs limit observer path _⟩

end Source
end EditorConfig
