import EditorConfig.Proofs.Source.Written
import EditorConfig.Proofs.Glob.TermLanguage

/-! The lines of a file as they are declared. Main statement: a text whose headers are not nested
too deep is read exactly if all its lines are well formed, and otherwise every other line is
reported. -/
namespace EditorConfig
variable {limit : Nat}

namespace Glob
variable (limit : Nat) (pattern : Text)

def ShortBounds : Prop :=
  ∀ bounds ∈ (pieces (anchor pattern ['/'])).filterMap Piece.bounds?,
    bounds.low.digits.length ≤ Numeral.maxDigits ∧ bounds.high.digits.length ≤ Numeral.maxDigits

instance : Decidable (ShortBounds pattern) :=
  inferInstanceAs (Decidable
    (∀ bounds ∈ (pieces (anchor pattern ['/'])).filterMap Piece.bounds?, _))

instance : Decidable (TooDeep limit pattern) := inferInstanceAs (Decidable (_ = _))

theorem ShortBounds.not_any_isTooLong {pattern : Text} (h : ShortBounds pattern) :
    ¬ ((pieces (anchor pattern ['/'])).filterMap Piece.bounds?).any Bounds.isTooLong = true := by
  intro ha
  obtain ⟨bounds, hm, hl⟩ := List.any_eq_true.1 ha
  obtain ⟨hlow, hhigh⟩ := h bounds hm
  simp only [Bounds.isTooLong, Numeral.isTooLong, Bool.or_eq_true, decide_eq_true_eq] at hl
  omega

end Glob

namespace Statement

def IsOption (line : Text) : Prop :=
  (':' ∈ line ∨ '=' ∈ line) ∧ line.head? ≠ some ':' ∧ line.head? ≠ some '='

inductive WellFormed (limit : Nat) : Text → Prop where
  | blank : WellFormed limit []
  | comment (mark : Char) (rest : Text) :
    mark = '#' ∨ mark = ';' → WellFormed limit (mark :: rest)
  | header {line pattern : Text} {m : Matcher} :
    Header line pattern → Matcher.ofHeader limit pattern ['/'] = .ok m → WellFormed limit line
  | option {line : Text} : (¬ ∃ body, Body line body) → IsOption line → WellFormed limit line

theorem isSeparator_iff {c : Char} : isSeparator c = true ↔ c = ':' ∨ c = '=' := by
  simp [isSeparator]

theorem option?_isSome_iff {line : Text} : (option? line).isSome = true ↔ IsOption line := by
  cases line with
  | nil => exact iff_of_false Bool.false_ne_true fun h => by simp [IsOption] at h
  | cons c rest =>
    cases hc : isSeparator c with
    | true =>
      have ho : option? (c :: rest) = none := by
        rw [option?, List.takeWhile_cons_of_neg (by simp [hc])]
      rw [ho]
      refine iff_of_false Bool.false_ne_true fun h => ?_
      cases isSeparator_iff.1 hc with
      | inl hc => exact h.2.1 (congrArg some hc)
      | inr hc => exact h.2.2 (congrArg some hc)
    | false =>
      have hn : c ≠ ':' ∧ c ≠ '=' := by
        refine not_or.1 fun h => ?_
        rw [isSeparator_iff.2 h] at hc
        cases hc
      have hi : IsOption (c :: rest) ↔ ¬ rest.dropWhile (!isSeparator ·) = [] := by
        simp only [IsOption, List.dropWhile_eq_nil_iff, List.mem_cons, List.head?_cons,
          Option.some.injEq, ne_eq, hn.1, hn.2, hn.1.symm, hn.2.symm]
        simp [isSeparator_iff, and_or_left, exists_or]
      rw [hi, option?, List.takeWhile_cons_of_pos (by simp [hc]),
        List.dropWhile_cons_of_pos (by simp [hc])]
      cases rest.dropWhile (!isSeparator ·) with
      | nil => exact iff_of_false Bool.false_ne_true fun h => h rfl
      | cons d more => exact iff_of_true rfl (List.cons_ne_nil d more)

theorem pattern?_eq_none_iff {line : Text} : pattern? line = none ↔ ¬ ∃ body, Body line body := by
  constructor
  · intro hp h
    obtain ⟨body, hb⟩ := h
    obtain ⟨pattern, hs⟩ := pattern?_isSome hb
    rw [hp] at hs
    cases hs
  · intro h
    cases hp : pattern? line with
    | none => rfl
    | some pattern => exact absurd ⟨_, (header_of_pattern? hp).body⟩ h

/-- The well-formed lines are those that are read and do not come out malformed. -/
theorem wellFormed_iff {line : Text} :
    WellFormed limit line ↔ (read limit line).map malformed? = .ok none := by
  constructor
  · intro h
    cases h with
    | blank => rfl
    | comment mark rest hm =>
      rw [read, if_pos (by simp [isCommentMark_iff.2 hm])]
      rfl
    | header hh hm =>
      rw [read_of_header hh, hm]
      rfl
    | option hb ho =>
      obtain ⟨option, he⟩ := Option.isSome_iff_exists.1 (option?_isSome_iff.2 ho)
      rw [read, pattern?_eq_none_iff.2 hb, he]
      split <;> rfl
  · intro h
    unfold read at h
    split at h
    next hc =>
      cases line with
      | nil => exact .blank
      | cons c rest => exact .comment c rest (isCommentMark_iff.1 (by simpa using hc))
    next =>
      split at h
      next pattern hp =>
        split at h
        next m hm => exact .header (header_of_pattern? hp) hm
        next => cases h
        next => cases h
      next hp =>
        split at h
        next key value ho =>
          refine .option (pattern?_eq_none_iff.1 hp) (option?_isSome_iff.1 ?_)
          rw [ho]
          rfl
        next => cases h

instance (line : Text) : Decidable (WellFormed limit line) :=
  decidable_of_iff' _ wellFormed_iff

theorem malformed?_of_read {line : Text} {s : Statement} (h : read limit line = .ok s) :
    s.malformed? = if WellFormed limit line then none else some line := by
  split
  next hw =>
    rw [wellFormed_iff, h] at hw
    exact Except.ok.inj hw
  next hw =>
    rw [wellFormed_iff, h] at hw
    unfold read at h
    split at h
    · cases h
      exact absurd rfl hw
    · split at h
      · split at h
        · cases h
          exact absurd rfl hw
        · cases h
          rfl
        · cases h
      · split at h
        · cases h
          exact absurd rfl hw
        · cases h
          rfl

/-- With short bounds only groups that are nested too deep stop the reading. -/
theorem read_eq_error_of_short {line : Text}
    (h : ∀ pattern, Header line pattern → Glob.ShortBounds pattern) {e : Error} :
    read limit line = .error e ↔
      e = .tooDeep ∧ ∃ pattern, Header line pattern ∧ Glob.TooDeep limit pattern := by
  rw [read_eq_error_iff]
  constructor
  · intro he
    obtain ⟨pattern, hh, he, hn⟩ := he
    rw [Matcher.ofHeader_eq_ite, if_neg (h pattern hh).not_any_isTooLong] at he
    split at he
    · cases he
    · cases he
      exact absurd rfl (hn pattern)
    next ht =>
      cases he
      exact ⟨rfl, pattern, hh, ht⟩
  · intro he
    obtain ⟨rfl, pattern, hh, ht⟩ := he
    refine ⟨pattern, hh, ?_, nofun⟩
    rw [Matcher.ofHeader_eq_ite, if_neg (h pattern hh).not_any_isTooLong, ht]

end Statement

namespace Source

def bareLines (text : Text) : List Text := (Text.lines text).map Text.bareLine

def ShortBounds (text : Text) : Prop :=
  ∀ line ∈ bareLines text, ∀ pattern, Statement.Header line pattern → Glob.ShortBounds pattern

def HasTooDeep (limit : Nat) (text : Text) : Prop :=
  ∃ line ∈ bareLines text, ∃ pattern, Statement.Header line pattern ∧ Glob.TooDeep limit pattern

instance (text : Text) : Decidable (ShortBounds text) :=
  decidable_of_iff (∀ line ∈ bareLines text, ∀ pattern ∈ Statement.pattern? line,
    Glob.ShortBounds pattern) (by simp only [Option.mem_def, Statement.pattern?_eq_some_iff]; rfl)

instance (text : Text) : Decidable (HasTooDeep limit text) :=
  decidable_of_iff (∃ line ∈ bareLines text, ∃ pattern ∈ Statement.pattern? line,
    Glob.TooDeep limit pattern) (by simp only [Option.mem_def, Statement.pattern?_eq_some_iff]; rfl)

def illFormed (limit : Nat) (text : Text) : List Text :=
  (bareLines text).filter fun line => ¬ Statement.WellFormed limit line

theorem malformed_of_mapM_read {lines : List Text} {ss : List Statement}
    (h : lines.mapM (Statement.read limit) = .ok ss) :
    ss.filterMap Statement.malformed? =
      lines.filter fun line => ¬ Statement.WellFormed limit line := by
  induction lines generalizing ss with
  | nil =>
    cases h
    rfl
  | cons line lines ih =>
    obtain ⟨s, ss, hs, hr, rfl⟩ := mapM_cons_ok h
    rw [List.filterMap_cons, Statement.malformed?_of_read hs, List.filter_cons, ih hr]
    by_cases hw : Statement.WellFormed limit line <;> simp [hw]

theorem error_of_mapM_read {text : Text} (hb : ShortBounds text) {e : Error}
    (h : (bareLines text).mapM (Statement.read limit) = .error e) :
    e = .tooDeep ∧ HasTooDeep limit text := by
  obtain ⟨before, line, after, hl, -, he⟩ := mapM_eq_error_iff.1 h
  have hm : line ∈ bareLines text := by
    rw [hl]
    exact List.mem_append_right before List.mem_cons_self
  obtain ⟨ht, hp⟩ := (Statement.read_eq_error_of_short (hb line hm)).1 he
  exact ⟨ht, line, hm, hp⟩

theorem result_of_tooDeep {text : Text} (hb : ShortBounds text) (hd : HasTooDeep limit text) :
    (ofText limit .silent text).result = .error .tooDeep := by
  rw [result_ofText, statements, ← bareLines]
  cases hr : (bareLines text).mapM (Statement.read limit) with
  | ok ss =>
    obtain ⟨line, hl, hp⟩ := hd
    obtain ⟨s, hs⟩ := ok_of_mapM hr hl
    rw [(Statement.read_eq_error_of_short (hb line hl)).2 ⟨rfl, hp⟩] at hs
    cases hs
  | error e =>
    rw [(error_of_mapM_read hb hr).1]
    rfl

theorem result_of_not_tooDeep {text : Text} (hb : ShortBounds text)
    (hd : ¬ HasTooDeep limit text) :
    ∃ ss, (ofText limit .silent text).result =
      if illFormed limit text = [] then .ok (ofStatements ss)
      else .error (.malformed (illFormed limit text) none) := by
  rw [result_ofText, statements, ← bareLines]
  cases hr : (bareLines text).mapM (Statement.read limit) with
  | ok ss =>
    refine ⟨ss, ?_⟩
    rw [illFormed, ← malformed_of_mapM_read hr]
    simp only [bind, Except.bind]
    cases ss.filterMap Statement.malformed? <;> rfl
  | error e => exact absurd (error_of_mapM_read hb hr).2 hd

theorem illFormed_eq_nil_iff {text : Text} :
    illFormed limit text = [] ↔ ∀ line ∈ bareLines text, Statement.WellFormed limit line := by
  simp [illFormed, List.filter_eq_nil_iff]

/-- A text is read exactly if all its lines are well formed, and otherwise the other lines are
reported, each in its place; but a header that is nested too deep ends the reading. -/
theorem ofText_grammar {text : Text} (hb : ShortBounds text) :
    (HasTooDeep limit text → (ofText limit .silent text).result = .error .tooDeep) ∧
      (¬ HasTooDeep limit text →
        ((∃ source, (ofText limit .silent text).result = .ok source) ↔
          ∀ line ∈ bareLines text, Statement.WellFormed limit line) ∧
        (¬ (∀ line ∈ bareLines text, Statement.WellFormed limit line) →
          (ofText limit .silent text).result =
            .error (.malformed (illFormed limit text) none))) := by
  refine ⟨result_of_tooDeep hb, fun hd => ?_⟩
  obtain ⟨ss, hs⟩ := result_of_not_tooDeep hb hd
  rw [hs, ← @illFormed_eq_nil_iff limit]
  by_cases hi : illFormed limit text = []
  · simp [hi]
  · simp [hi]

def mixed : Text := "; c\n[[z-a]]\n[a = 1\n[\x7b1..3\x7d]\r\n= b\nK: v\n[a\n= b".toList

theorem ofText_grammar_mixed :
    ShortBounds mixed ∧ ¬ HasTooDeep 100 mixed ∧ (ofText 100 .silent mixed).result =
      .error (.malformed ["[[z-a]]".toList, "= b".toList, "[a".toList, "= b".toList] none) := by
  have hb : ShortBounds mixed := by decide +kernel
  have hd : ¬ HasTooDeep 100 mixed := by decide +kernel
  have hi : illFormed 100 mixed = ["[[z-a]]".toList, "= b".toList, "[a".toList, "= b".toList] := by
    decide +kernel
  have hr := ((ofText_grammar hb).2 hd).2 (by decide +kernel)
  rw [hi] at hr
  exact ⟨hb, hd, hr⟩

end Source

namespace Glob

theorem anchor_nested (n : Nat) :
    anchor (Term.nested (n + 1)).text ['/'] =
      (Term.atom .anyDirectories (Term.nested (n + 1))).text := by
  have hc : (Term.nested (n + 1)).text.contains '/' = false := by
    rw [List.contains_eq_mem, decide_eq_false_iff_not]
    exact fun h => absurd (Term.mem_text_nested h) (by decide)
  rw [anchor_top, Term.text]
  rw [Term.text_nested] at hc ⊢
  rw [List.cons_append] at hc ⊢
  rw [relative.eq_2 _ (by simp), hc]
  rfl

theorem separated_deep (n : Nat) : (Term.atom .anyDirectories (Term.nested n)).Separated :=
  ⟨id, Term.separated_nested n⟩

theorem shortBounds_nested (n : Nat) : ShortBounds (Term.nested (n + 1)).text := by
  rw [ShortBounds, anchor_nested, Term.pieces_text (separated_deep _), Term.bounds?_pieces]
  exact nofun

theorem tooDeep_nested {limit n : Nat} (h : limit < 2 * (n + 1)) :
    TooDeep limit (Term.nested (n + 1)).text := by
  have hd : ¬ (Term.atom .anyDirectories (Term.nested (n + 1))).calls ≤ limit := by
    rw [Term.calls, Term.calls_nested]
    omega
  rw [TooDeep, anchor_nested, Term.pieces_text (separated_deep _),
    Term.ofText_pieces (separated_deep _), if_neg hd]

end Glob

namespace Source

def overnested : Text := Statement.written (.header (Glob.Term.nested 1000).text [])

theorem bareLines_overnested : bareLines overnested = [overnested] := by
  have hl : Text.IsLine (Glob.Term.nested 1000).text :=
    ⟨fun h => absurd (Glob.Term.mem_text_nested h) (by decide),
      fun h => absurd (Glob.Term.mem_text_nested h) (by decide)⟩
  have hw := Text.isLine_append.2
    ⟨Statement.isLine_quoteMarks hl, (by decide : Text.IsLine [']'])⟩
  have ho : Text.IsLine overnested := Text.isLine_cons.2 ⟨by decide, hw⟩
  rw [bareLines, Text.lines_of_isLine ho, List.map_singleton, overnested, Statement.bareLine_header]

theorem header_overnested : Statement.Header overnested (Glob.Term.nested (999 + 1)).text :=
  Statement.header_written (by rw [Glob.Term.text_nested]; nofun) []

theorem shortBounds_overnested : ShortBounds overnested := by
  intro line hl pattern hp
  rw [bareLines_overnested, List.mem_singleton] at hl
  rw [hl] at hp
  rw [hp.unique header_overnested]
  exact Glob.shortBounds_nested 999

theorem hasTooDeep_overnested (hl : limit < 1000) : HasTooDeep limit overnested := by
  refine ⟨overnested, ?_, _, header_overnested, Glob.tooDeep_nested (by omega)⟩
  rw [bareLines_overnested]
  exact List.mem_singleton_self _

theorem overnested_unreported :
    ¬ ∃ limit, limit < 1000 ∧ ∀ text, ShortBounds text →
      ((∃ source, (ofText limit .silent text).result = .ok source) ↔
        ∀ line ∈ bareLines text, Statement.WellFormed limit line) ∧
      (¬ (∀ line ∈ bareLines text, Statement.WellFormed limit line) →
        (ofText limit .silent text).result = .error (.malformed (illFormed limit text) none)) := by
  intro h
  obtain ⟨limit, hl, h⟩ := h
  have hr := result_of_tooDeep shortBounds_overnested (hasTooDeep_overnested hl)
  have ho := h overnested shortBounds_overnested
  rw [hr] at ho
  by_cases hw : ∀ line ∈ bareLines overnested, Statement.WellFormed limit line
  · obtain ⟨source, hs⟩ := ho.1.2 hw
    cases hs
  · cases ho.2 hw

end Source
end EditorConfig
