import EditorConfig.Source.Statement

/-! Section headers by their bodies. Main statement: the pattern of a header is read from the
longest text behind its opening bracket that ends at a closing one and quotes every comment
mark. -/
namespace EditorConfig.Statement
variable {limit : Nat}

def MarksQuoted (text : Text) : Prop :=
  ∀ before mark after, text = before ++ mark :: after → mark = '#' ∨ mark = ';' →
    before.getLast? = some '\\'

structure Body (line body : Text) : Prop where
  bracketed : ∃ rest, line = '[' :: body ++ ']' :: rest
  ne_nil : body ≠ []
  quoted : MarksQuoted body

def quoteMarks (text : Text) : Text :=
  text.flatMap fun c => if isCommentMark c then ['\\', c] else [c]

/-- A header with a pattern: the pattern's marks are quoted in the longest of the line's bodies. -/
structure Header (line pattern : Text) : Prop where
  body : Body line (quoteMarks pattern)
  longest : ∀ body, Body line body → body.length ≤ (quoteMarks pattern).length

theorem isCommentMark_iff {c : Char} : isCommentMark c = true ↔ c = '#' ∨ c = ';' := by
  simp [isCommentMark]

theorem quoteMarks_cons (c : Char) (text : Text) :
    quoteMarks (c :: text) = (if isCommentMark c then ['\\', c] else [c]) ++ quoteMarks text := rfl

def marksQuoted : Bool → Text → Bool
  | _, [] => true
  | behindBackslash, c :: rest =>
    (!isCommentMark c || behindBackslash) && marksQuoted (c == '\\') rest

theorem marksQuoted_cons {b : Bool} {c : Char} {text : Text} :
    marksQuoted b (c :: text) = true ↔
      (isCommentMark c = true → b = true) ∧ marksQuoted (c == '\\') text = true := by
  cases h : isCommentMark c <;> simp [marksQuoted, h]

/-- Every mark is quoted by the character before it, or by what stands before the text. -/
theorem marksQuoted_iff {b : Bool} {text : Text} :
    marksQuoted b text = true ↔ ∀ before mark after, text = before ++ mark :: after →
      isCommentMark mark = true → before.getLast?.elim b (· == '\\') = true := by
  induction text generalizing b with
  | nil => simp [marksQuoted]
  | cons c text ih =>
    rw [marksQuoted_cons, ih]
    constructor
    · intro h before mark after he hm
      cases before with
      | nil =>
        cases he
        exact h.1 hm
      | cons d before =>
        obtain ⟨rfl, ht⟩ := List.cons.inj he
        have hl := h.2 before mark after ht hm
        cases before with
        | nil => exact hl
        | cons d before => exact hl
    · intro h
      refine ⟨fun hc => h [] c text rfl hc, fun before mark after he hm => ?_⟩
      have hl := h (c :: before) mark after (by rw [he]; rfl) hm
      cases before with
      | nil => exact hl
      | cons d before => exact hl

theorem marksQuoted_false_iff {text : Text} : marksQuoted false text = true ↔ MarksQuoted text := by
  rw [marksQuoted_iff, MarksQuoted]
  simp only [isCommentMark_iff]
  refine forall_congr' fun before => forall_congr' fun mark => forall_congr' fun after => ?_
  refine forall_congr' fun _ => forall_congr' fun _ => ?_
  cases before.getLast? <;> simp

theorem marksQuoted_of_append {u v : Text} {b : Bool} (h : marksQuoted b (u ++ v) = true) :
    marksQuoted b u = true := by
  induction u generalizing b with
  | nil => rfl
  | cons c u ih =>
    rw [List.cons_append, marksQuoted_cons] at h
    exact marksQuoted_cons.2 ⟨h.1, ih h.2⟩

theorem marksQuoted_concat {c : Char} (hc : isCommentMark c = false) {u : Text} {b : Bool}
    (h : marksQuoted b u = true) : marksQuoted b (u ++ [c]) = true := by
  induction u generalizing b with
  | nil => simp [marksQuoted, hc]
  | cons d u ih =>
    rw [marksQuoted_cons] at h
    exact marksQuoted_cons.2 ⟨h.1, ih h.2⟩

/-- What stands before a comment is a beginning of the text. -/
theorem beforeComment_isPrefix (b : Bool) (text : Text) : beforeComment b text <+: text := by
  induction text generalizing b with
  | nil => exact List.prefix_rfl
  | cons c text ih =>
    rw [beforeComment]
    split
    · exact List.nil_prefix
    · exact List.cons_prefix_cons.2 ⟨rfl, ih _⟩

theorem marksQuoted_beforeComment (b : Bool) (text : Text) :
    marksQuoted b (beforeComment b text) = true := by
  induction text generalizing b with
  | nil => rfl
  | cons c text ih =>
    rw [beforeComment]
    split
    · rfl
    next hc =>
      refine marksQuoted_cons.2 ⟨fun hm => ?_, ih _⟩
      simpa [hm] using hc

/-- It is the longest beginning in which all marks are quoted. -/
theorem isPrefix_beforeComment {b : Bool} {u text : Text} (hu : u <+: text)
    (hq : marksQuoted b u = true) : u <+: beforeComment b text := by
  induction text generalizing b u with
  | nil => rwa [beforeComment]
  | cons c text ih =>
    cases u with
    | nil => exact List.nil_prefix
    | cons d u =>
      obtain ⟨rfl, ht⟩ := List.cons_prefix_cons.1 hu
      rw [marksQuoted_cons] at hq
      have hn : ¬ (isCommentMark d && !b) = true := by
        cases hm : isCommentMark d with
        | false => simp
        | true => simp [hq.1 hm]
      rw [beforeComment, if_neg hn]
      exact List.cons_prefix_cons.2 ⟨rfl, ih ht hq.2⟩

theorem beforeLast?_isPrefix {mark : Char} {text start : Text}
    (h : beforeLast? mark text = some start) : start ++ [mark] <+: text := by
  induction text generalizing start with
  | nil => cases h
  | cons c text ih =>
    rw [beforeLast?] at h
    cases hb : beforeLast? mark text with
    | some u =>
      rw [hb] at h
      cases h
      exact List.cons_prefix_cons.2 ⟨rfl, ih hb⟩
    | none =>
      simp only [hb] at h
      split at h
      next hc =>
        cases h
        exact List.cons_prefix_cons.2 ⟨hc.symm, List.nil_prefix⟩
      next => cases h

/-- No place of the character lies behind the last. -/
theorem exists_beforeLast? {mark : Char} {text u : Text} (h : u ++ [mark] <+: text) :
    ∃ start, beforeLast? mark text = some start ∧ u.length ≤ start.length := by
  induction text generalizing u with
  | nil => simp at h
  | cons c text ih =>
    rw [beforeLast?]
    cases u with
    | nil =>
      obtain ⟨rfl, -⟩ := List.cons_prefix_cons.1 h
      cases beforeLast? mark text with
      | some start => exact ⟨mark :: start, rfl, Nat.zero_le _⟩
      | none => exact ⟨[], if_pos rfl, Nat.le_refl _⟩
    | cons d u =>
      obtain ⟨rfl, ht⟩ := List.cons_prefix_cons.1 h
      obtain ⟨start, hs, hl⟩ := ih ht
      exact ⟨d :: start, by rw [hs], Nat.succ_le_succ hl⟩

/-- The first character of a text with quoted marks is no mark. -/
theorem head_quoteMarks {text rest : Text} {c : Char} (h : quoteMarks text = c :: rest) :
    isCommentMark c = false := by
  cases text with
  | nil => cases h
  | cons d text =>
    rw [quoteMarks_cons] at h
    cases hd : isCommentMark d with
    | true =>
      rw [hd] at h
      cases h
      rfl
    | false =>
      rw [hd] at h
      cases h
      exact hd

theorem unescapeMarks_cons {c : Char} {rest : Text}
    (h : c = '\\' → ∀ d more, rest = d :: more → isCommentMark d = false) :
    unescapeMarks (c :: rest) = c :: unescapeMarks rest := by
  rw [unescapeMarks.eq_def]
  split
  · cases ‹_›
  next d more he =>
    obtain ⟨hc, hr⟩ := List.cons.inj he
    have hd := h hc d more hr
    rw [hd, hc, hr]
    rfl
  next he =>
    obtain ⟨rfl, rfl⟩ := List.cons.inj he
    rfl

theorem unescapeMarks_quoteMarks (text : Text) : unescapeMarks (quoteMarks text) = text := by
  induction text with
  | nil => rfl
  | cons c text ih =>
    rw [quoteMarks_cons]
    cases hc : isCommentMark c with
    | true =>
      rw [if_pos rfl, List.cons_append, List.cons_append, List.nil_append, unescapeMarks, hc,
        if_pos rfl, ih]
    | false =>
      rw [if_neg Bool.false_ne_true, List.cons_append, List.nil_append,
        unescapeMarks_cons fun _ d more hd => head_quoteMarks hd, ih]

theorem isCommentMark_backslash : isCommentMark '\\' = false := rfl

theorem beq_backslash_of_isCommentMark {c : Char} (h : isCommentMark c = true) :
    (c == '\\') = false := by
  refine beq_false_of_ne fun he => ?_
  rw [he] at h
  cases h

/-- Where all marks are quoted, their backslashes are all that is dropped. -/
theorem quoteMarks_unescapeMarks {text : Text} (h : marksQuoted false text = true) :
    quoteMarks (unescapeMarks text) = text := by
  fun_induction unescapeMarks text with
  | case1 => rfl
  | case2 c rest hc ih =>
    have hr := (marksQuoted_cons.1 (marksQuoted_cons.1 h).2).2
    rw [beq_backslash_of_isCommentMark hc] at hr
    rw [quoteMarks_cons, if_pos hc, ih hr]
    rfl
  | case3 c rest hc ih =>
    have hr := marksQuoted_cons.1 (marksQuoted_cons.1 h).2
    have hn : marksQuoted false (c :: rest) = true :=
      marksQuoted_cons.2 ⟨fun hm => absurd hm hc, hr.2⟩
    rw [quoteMarks_cons, isCommentMark_backslash, ih hn]
    rfl
  | case4 c rest hb ih =>
    have hc : ¬ isCommentMark c = true := fun hm => Bool.false_ne_true ((marksQuoted_cons.1 h).1 hm)
    have hn : marksQuoted false rest = true := by
      have hr := (marksQuoted_cons.1 h).2
      by_cases hc : c = '\\'
      · cases rest with
        | nil => rfl
        | cons d rest => exact absurd rfl (hb d rest hc)
      · rwa [beq_false_of_ne hc] at hr
    rw [quoteMarks_cons, if_neg hc, ih hn]
    rfl

theorem marksQuoted_quoteMarks (text : Text) (b : Bool) :
    marksQuoted b (quoteMarks text) = true := by
  induction text generalizing b with
  | nil => rfl
  | cons c text ih =>
    rw [quoteMarks_cons]
    cases hc : isCommentMark c with
    | true =>
      have hm := marksQuoted_cons.2 ⟨fun _ => rfl, ih (c == '\\')⟩
      exact marksQuoted_cons.2 ⟨fun h => absurd h (by decide), hm⟩
    | false => exact marksQuoted_cons.2 ⟨fun h => absurd h (by simp [hc]), ih _⟩

/-- Between an opening bracket and a closing one before any comment there is a body, unless it is
empty. -/
theorem body_iff {line body : Text} :
    Body line body ↔ ∃ rest, line = '[' :: rest ∧ body ≠ [] ∧
      body ++ [']'] <+: beforeComment false rest := by
  constructor
  · intro h
    obtain ⟨after, hl⟩ := h.bracketed
    refine ⟨body ++ ']' :: after, hl, h.ne_nil, isPrefix_beforeComment ⟨after, by simp⟩ ?_⟩
    exact marksQuoted_concat rfl (marksQuoted_false_iff.2 h.quoted)
  · intro h
    obtain ⟨rest, hl, hn, hb⟩ := h
    obtain ⟨after, ha⟩ := hb.trans (beforeComment_isPrefix false rest)
    obtain ⟨more, hm⟩ := hb
    refine ⟨⟨after, ?_⟩, hn, marksQuoted_false_iff.1 ?_⟩
    · rw [hl, ← ha]
      simp
    · have hq := marksQuoted_beforeComment false rest
      rw [← hm, List.append_assoc] at hq
      exact marksQuoted_of_append hq

/-- The pattern is read from the longest body. -/
theorem longest_of_pattern? {line pattern : Text} (h : pattern? line = some pattern) :
    ∃ body, Body line body ∧ (∀ other, Body line other → other.length ≤ body.length) ∧
      pattern = unescapeMarks body := by
  unfold pattern? at h
  split at h
  next rest =>
    split at h
    next c body hb =>
      cases h
      refine ⟨c :: body, body_iff.2 ⟨rest, rfl, nofun, beforeLast?_isPrefix hb⟩, ?_, rfl⟩
      intro other ho
      obtain ⟨rest', hr, -, hp⟩ := body_iff.1 ho
      cases hr
      obtain ⟨start, hs, hl⟩ := exists_beforeLast? hp
      rw [hb, Option.some.injEq] at hs
      rwa [hs]
    next => cases h
  next => cases h

theorem pattern?_isSome {line body : Text} (h : Body line body) :
    ∃ pattern, pattern? line = some pattern := by
  obtain ⟨rest, rfl, hn, hp⟩ := body_iff.1 h
  obtain ⟨start, hs, hl⟩ := exists_beforeLast? hp
  cases start with
  | nil => exact absurd (List.eq_nil_of_length_eq_zero (Nat.le_zero.1 hl)) hn
  | cons c start => exact ⟨unescapeMarks (c :: start), by rw [pattern?, hs]⟩

theorem Header.unique {line pattern pattern' : Text} (h : Header line pattern)
    (h' : Header line pattern') : pattern = pattern' := by
  have hl : (quoteMarks pattern).length = (quoteMarks pattern').length :=
    Nat.le_antisymm (h'.longest _ h.body) (h.longest _ h'.body)
  obtain ⟨rest, he⟩ := h.body.bracketed
  obtain ⟨rest', he'⟩ := h'.body.bracketed
  rw [he, List.cons_append, List.cons_append, List.cons.injEq] at he'
  have hq := (List.append_inj he'.2 hl).1
  rw [← unescapeMarks_quoteMarks pattern, hq, unescapeMarks_quoteMarks]

theorem header_of_pattern? {line pattern : Text} (h : pattern? line = some pattern) :
    Header line pattern := by
  obtain ⟨body, hb, hl, rfl⟩ := longest_of_pattern? h
  have hq := quoteMarks_unescapeMarks (marksQuoted_false_iff.2 hb.quoted)
  exact ⟨by rwa [hq], by rwa [hq]⟩

/-- What is read as a pattern is what the line is a header for. -/
theorem pattern?_eq_some_iff {line pattern : Text} :
    pattern? line = some pattern ↔ Header line pattern := by
  constructor
  · exact header_of_pattern?
  · intro h
    obtain ⟨pattern', hp⟩ := pattern?_isSome h.body
    rw [hp, h.unique (header_of_pattern? hp)]

/-- A header is read as its pattern can be made out. -/
theorem read_of_header {line pattern : Text} (h : Header line pattern) :
    read limit line =
      match Matcher.ofHeader limit pattern ['/'] with
      | .ok _ => .ok (.header pattern line)
      | .error (.invalidPattern _) => .ok (.malformed line)
      | .error e => .error e := by
  have hp := pattern?_eq_some_iff.2 h
  obtain ⟨rest, rfl⟩ := h.body.bracketed
  rw [read, hp]
  rfl

/-- No line but a header can fail to be read, and no header fails for a bad pattern. -/
theorem read_eq_error_iff {line : Text} {e : Error} :
    read limit line = .error e ↔ ∃ pattern, Header line pattern ∧
      Matcher.ofHeader limit pattern ['/'] = .error e ∧ ∀ p, e ≠ .invalidPattern p := by
  constructor
  · intro h
    unfold read at h
    split at h
    · cases h
    · split at h
      next pattern hp =>
        split at h
        · cases h
        · cases h
        next e' hn he =>
          cases h
          exact ⟨pattern, header_of_pattern? hp, he, hn⟩
      next => split at h <;> cases h
  · intro h
    obtain ⟨pattern, hh, he, hn⟩ := h
    rw [read_of_header hh, he]
    cases e with
    | invalidPattern p => exact absurd rfl (hn p)
    | _ => rfl

end EditorConfig.Statement
