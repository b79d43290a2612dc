import EditorConfig.Proofs.Source.Assignments
import EditorConfig.Proofs.Source.Header
import EditorConfig.Proofs.Text.Line

/-! Sources as text. Main statement: what is written, one statement a line, is read back as it
was. -/
namespace EditorConfig
variable {limit : Nat}

namespace Statement

def written : Statement → Text
  | .skipped => []
  | .header pattern _ => '[' :: quoteMarks pattern ++ [']']
  | .option key value => key ++ " = ".toList ++ value
  | .malformed line => line

@[mk_iff] structure WritableHeader (limit : Nat) (pattern : Text) : Prop where
  ne_nil : pattern ≠ []
  isLine : Text.IsLine pattern
  accepted : ∃ m, Matcher.ofHeader limit pattern ['/'] = .ok m

@[mk_iff] structure WritableKey (key : Text) : Prop where
  ne_nil : key ≠ []
  isTrimmed : Text.IsTrimmed key
  lower : Text.lower key = key
  isLine : Text.IsLine key
  unseparated : ':' ∉ key ∧ '=' ∉ key
  start : key.head?.any ("#;[\uFEFF".toList.contains ·) = false

@[mk_iff] structure WritableValue (value : Text) : Prop where
  isTrimmed : Text.IsTrimmed value
  isLine : Text.IsLine value
  uncommented : ¬ [' ', ';'] <:+: value ∧ ¬ [' ', '#'] <:+: value
  unquoted : value ≠ ['"', '"']

instance (pattern : Text) : Decidable (WritableHeader limit pattern) :=
  decidable_of_iff' _ (writableHeader_iff limit pattern)

instance (key : Text) : Decidable (WritableKey key) := decidable_of_iff' _ (writableKey_iff key)

instance (value : Text) : Decidable (WritableValue value) :=
  decidable_of_iff' _ (writableValue_iff value)

theorem isLine_quoteMarks {pattern : Text} (h : Text.IsLine pattern) :
    Text.IsLine (quoteMarks pattern) := by
  induction pattern with
  | nil => exact h
  | cons c pattern ih =>
    obtain ⟨hc, hp⟩ := Text.isLine_cons.1 h
    rw [quoteMarks_cons, Text.isLine_append]
    refine ⟨?_, ih hp⟩
    split
    · exact Text.isLine_cons.2 ⟨by decide, Text.isLine_cons.2 ⟨hc, by decide⟩⟩
    · exact Text.isLine_cons.2 ⟨hc, by decide⟩

theorem quoteMarks_ne_nil {pattern : Text} (h : pattern ≠ []) : quoteMarks pattern ≠ [] := by
  intro hq
  have hu := unescapeMarks_quoteMarks pattern
  rw [hq] at hu
  exact h hu.symm

/-- What is written in brackets is the longest body of the line. -/
theorem header_written {pattern : Text} (hn : pattern ≠ []) (line : Text) :
    Header (written (.header pattern line)) pattern := by
  refine ⟨⟨⟨[], rfl⟩, quoteMarks_ne_nil hn, ?_⟩, ?_⟩
  · exact marksQuoted_false_iff.1 (marksQuoted_quoteMarks pattern false)
  · intro body hb
    obtain ⟨rest, hl⟩ := hb.bracketed
    have he := congrArg List.length hl
    simp only [written, List.length_append, List.length_cons, List.length_nil] at he
    omega

theorem bareLine_header {pattern : Text} (line : Text) :
    Text.bareLine (written (.header pattern line)) = written (.header pattern line) := by
  have ht : Text.IsTrimmed (written (.header pattern line)) := by
    refine ⟨rfl, ?_⟩
    rw [written, List.getLast?_concat]
    rfl
  have hb := Text.bareLine_append_blanks ht (List.cons_ne_nil _ _) (by simp [written])
    (v := []) nofun
  rwa [List.append_nil] at hb

theorem read_header {pattern : Text} (h : WritableHeader limit pattern) (line : Text) :
    read limit (written (.header pattern line)) =
      .ok (.header pattern (written (.header pattern line))) := by
  obtain ⟨m, hm⟩ := h.accepted
  rw [read_of_header (header_written h.ne_nil line), hm]

/-- Spaces around the separator belong neither to the key nor to the value. -/
theorem option?_spaced {key value rest : Text} (hk : WritableKey key)
    (hv : Text.trimStart rest = value) (hq : value ≠ ['"', '"']) :
    option? (key ++ ' ' :: '=' :: rest) = some (key, value) := by
  have hs : ∀ c ∈ key, (!isSeparator c) = true := by
    intro c hc
    have hcolon : c ≠ ':' := fun he => hk.unseparated.1 (he ▸ hc)
    have hequals : c ≠ '=' := fun he => hk.unseparated.2 (he ▸ hc)
    simp [isSeparator, hcolon, hequals]
  have hd : (key ++ ' ' :: '=' :: rest).dropWhile (!isSeparator ·) = '=' :: rest := by
    rw [List.dropWhile_append_of_pos hs]
    rfl
  have hb : Text.trim (key ++ [' ']) = key :=
    Text.trim_append_blanks hk.isTrimmed hk.ne_nil (List.forall_mem_singleton.2 rfl)
  obtain ⟨c, more, rfl⟩ := List.exists_cons_of_ne_nil hk.ne_nil
  have ht : (c :: more ++ ' ' :: '=' :: rest).takeWhile (!isSeparator ·) =
      c :: (more ++ [' ']) := by
    rw [List.takeWhile_append_of_pos hs]
    rfl
  rw [List.cons_append] at hb
  rw [option?, ht, hd]
  simp only [hb, hk.lower, hv]
  rw [if_neg hq]

/-- A line with a key in front is neither a comment nor a header. -/
theorem read_spaced {key value rest : Text} (hk : WritableKey key)
    (hv : Text.trimStart rest = value) (hq : value ≠ ['"', '"']) :
    read limit (key ++ ' ' :: '=' :: rest) = .ok (.option key value) := by
  have ho := option?_spaced hk hv hq
  obtain ⟨c, more, rfl⟩ := List.exists_cons_of_ne_nil hk.ne_nil
  have hs : "#;[\uFEFF".toList.contains c = false := hk.start
  have hc : isCommentMark c = false := by
    cases hm : isCommentMark c with
    | false => rfl
    | true =>
      rcases isCommentMark_iff.1 hm with rfl | rfl <;> exact absurd hs (by decide)
  have hp : pattern? (c :: more ++ ' ' :: '=' :: rest) = none := by
    unfold pattern?
    split
    next rest' he =>
      cases he
      exact absurd hs (by decide)
    · rfl
  rw [read, hp, ho]
  simp [hc]

theorem bareLine_option {key value : Text} (hk : WritableKey key) (hv : WritableValue value) :
    ∃ rest, Text.bareLine (written (.option key value)) = key ++ ' ' :: '=' :: rest ∧
      Text.trimStart rest = value := by
  have hh : ∀ rest, (key ++ ' ' :: '=' :: rest).head? = key.head? :=
    fun rest => List.head?_append_of_ne_nil key hk.ne_nil
  have hm : ∀ rest, (key ++ ' ' :: '=' :: rest).head? ≠ some '\uFEFF' := by
    intro rest he
    have hs := hk.start
    rw [← hh rest, he] at hs
    exact absurd hs (by decide)
  have hn : ∀ rest, key ++ ' ' :: '=' :: rest ≠ [] := fun rest => by simp
  cases value with
  | nil =>
    -- the space behind the separator ends the line and is dropped with it
    have ht : Text.IsTrimmed (key ++ ' ' :: '=' :: []) := by
      refine ⟨(congrArg (Option.any _) (hh [])).trans hk.isTrimmed.head, ?_⟩
      have hl : (key ++ ' ' :: '=' :: []).getLast? = some '=' := by simp
      rw [hl]
      rfl
    have hb := Text.bareLine_append_blanks ht (hn []) (hm []) (v := [' '])
      (List.forall_mem_singleton.2 rfl)
    refine ⟨[], ?_, rfl⟩
    rw [← hb, written]
    simp
  | cons d value =>
    have ht : Text.IsTrimmed (key ++ ' ' :: '=' :: ' ' :: d :: value) := by
      refine ⟨(congrArg (Option.any _) (hh _)).trans hk.isTrimmed.head, ?_⟩
      rw [List.getLast?_append_of_ne_nil _ (List.cons_ne_nil _ _)]
      exact hv.isTrimmed.last
    have hb := Text.bareLine_append_blanks ht (hn _) (hm _) (v := []) nofun
    refine ⟨' ' :: d :: value, ?_, ?_⟩
    · rw [List.append_nil] at hb
      rw [← hb, written]
      simp
    · exact Text.trimStart_eq_self hv.isTrimmed.head

/-- A statement that fits on a line and is read from it. -/
structure Legible (statement : Statement) (limit : Nat) : Prop where
  isLine : Text.IsLine statement.written
  read : Statement.read limit (Text.bareLine statement.written) = .ok statement

theorem legible_header {pattern : Text} (h : WritableHeader limit pattern) (line : Text) :
    Legible (.header pattern (written (.header pattern line))) limit := by
  have hl := Text.isLine_append.2 ⟨isLine_quoteMarks h.isLine, (by decide : Text.IsLine [']'])⟩
  refine ⟨Text.isLine_cons.2 ⟨by decide, hl⟩, ?_⟩
  rw [bareLine_header]
  exact read_header h _

theorem legible_option {key value : Text} (hk : WritableKey key) (hv : WritableValue value) :
    Legible (.option key value) limit := by
  have hl := Text.isLine_append.2 ⟨hk.isLine, (by decide : Text.IsLine " = ".toList)⟩
  refine ⟨Text.isLine_append.2 ⟨hl, hv.isLine⟩, ?_⟩
  obtain ⟨rest, hb, ht⟩ := bareLine_option hk hv
  rw [hb]
  exact read_spaced hk ht hv.unquoted

theorem mapM_read_written {ss : List Statement} (h : ∀ s ∈ ss, s.Legible limit) :
    ((ss.map written).map Text.bareLine).mapM (read limit) = .ok ss := by
  induction ss with
  | nil => rfl
  | cons s ss ih =>
    have hr := ih fun t ht => h t (List.mem_cons_of_mem s ht)
    rw [List.map_cons, List.map_cons, List.mapM_cons, (h s List.mem_cons_self).read, hr]
    rfl

theorem withoutComment_of_writable {value : Text} (h : WritableValue value) :
    withoutComment value = value := by
  have hn : ∀ mark, ¬ mark <:+: value → Text.before? mark value = none := by
    intro mark hm
    cases hb : Text.before? mark value with
    | none => rfl
    | some start =>
      obtain ⟨rest, hr⟩ := Text.before?_eq_append hb
      exact absurd ⟨start, rest, hr.symm⟩ hm
  have hs := hn _ h.uncommented.1
  have ht := hn _ h.uncommented.2
  rw [withoutComment, hs, ht]
  rfl

end Statement

@[mk_iff] structure Section.Writable (s : Section) (limit : Nat) : Prop where
  header : Statement.WritableHeader limit s.header
  options : ∀ e ∈ s.options.entries, Statement.WritableKey e.1 ∧ Statement.WritableValue e.2

instance (s : Section) : Decidable (s.Writable limit) :=
  decidable_of_iff' _ (Section.writable_iff s limit)

def Section.asWritten (s : Section) : Section :=
  { s with line := Statement.written (.header s.header s.line) }

def Section.listing (s : Section) : List Statement :=
  .header s.header s.asWritten.line :: s.options.entries.map fun e => .option e.1 e.2

namespace Source

def listing (source : Source) : List Statement :=
  (if source.isRoot then [.option "root".toList "true".toList] else []) ++
    source.sections.flatMap Section.listing

def written (source : Source) : Text := ['\n'].intercalate (source.listing.map Statement.written)

theorem split_options (options : List (Text × Text)) (rest : List Statement) :
    split (options.map (fun e => .option e.1 e.2) ++ rest) =
      (options ++ (split rest).1, (split rest).2) := by
  induction options with
  | nil => rfl
  | cons option options ih =>
    rw [List.map_cons, List.cons_append, split, ih]
    rfl

theorem split_sections {sections : List Section} (h : ∀ s ∈ sections, s.Writable limit) :
    split (sections.flatMap Section.listing) = ([], sections.map Section.asWritten) := by
  induction sections with
  | nil => rfl
  | cons s sections ih =>
    have ih' := ih fun k hk => h k (List.mem_cons_of_mem s hk)
    have ho : s.options.entries.map (fun e => (e.1, withoutComment e.2)) = s.options.entries := by
      refine (List.map_congr_left fun e he => ?_).trans (List.map_id _)
      have hv := ((h s List.mem_cons_self).options e he).2
      rw [Statement.withoutComment_of_writable hv]
      rfl
    rw [List.flatMap_cons, Section.listing, List.cons_append, split, split_options, ih']
    simp only [List.append_nil, ho, OrderedMap.ofList_entries]
    rfl

theorem ofStatements_listing {source : Source} (h : ∀ s ∈ source.sections, s.Writable limit) :
    ofStatements source.listing = ⟨source.isRoot, source.sections.map Section.asWritten⟩ := by
  have hs := split_sections h
  rw [listing, ofStatements]
  cases source.isRoot with
  | true =>
    simp only [if_true, List.singleton_append, split, hs]
    rfl
  | false =>
    simp only [Bool.false_eq_true, if_false, List.nil_append, hs]
    rfl

theorem legible_listing {source : Source} (h : ∀ s ∈ source.sections, s.Writable limit)
    {statement : Statement} (hm : statement ∈ source.listing) :
    statement.Legible limit ∧ statement.malformed? = none := by
  rcases List.mem_append.1 hm with hr | hs
  · split at hr
    · cases List.mem_singleton.1 hr
      exact ⟨Statement.legible_option (by decide +kernel) (by decide +kernel), rfl⟩
    · cases hr
  · obtain ⟨s, hs, hm⟩ := List.mem_flatMap.1 hs
    have hw := h s hs
    cases hm with
    | head => exact ⟨Statement.legible_header hw.header s.line, rfl⟩
    | tail _ hm =>
      obtain ⟨e, he, rfl⟩ := List.mem_map.1 hm
      obtain ⟨hk, hv⟩ := hw.options e he
      exact ⟨Statement.legible_option hk hv, rfl⟩

theorem statements_written {source : Source} (h : ∀ s ∈ source.sections, s.Writable limit)
    (hn : source.listing ≠ []) : statements limit source.written = .ok source.listing := by
  have hw : source.listing.map Statement.written ≠ [] := by simpa using hn
  have hl : ∀ line ∈ source.listing.map Statement.written, Text.IsLine line := by
    intro line hm
    obtain ⟨statement, hs, rfl⟩ := List.mem_map.1 hm
    exact (legible_listing h hs).1.isLine
  have hr := Statement.mapM_read_written fun statement hs => (legible_listing h hs).1
  have hm : source.listing.filterMap Statement.malformed? = [] :=
    List.filterMap_eq_nil_iff.2 fun statement hs => (legible_listing h hs).2
  rw [statements, written, Text.lines_intercalate hw hl, hr]
  simp only [bind, Except.bind, hm]
  rfl

/-- What is written is read back, each section with the line of its header. -/
theorem ofText_written (source : Source) (h : ∀ s ∈ source.sections, s.Writable limit) :
    (ofText limit .silent source.written).result =
      .ok ⟨source.isRoot, source.sections.map Section.asWritten⟩ := by
  rw [result_ofText, ← ofStatements_listing h]
  by_cases hn : source.listing = []
  · rw [written, hn]
    rfl
  · rw [statements_written h hn]
    rfl

def marked : Source :=
  ⟨true, [⟨"[!\\]#]\\*.\\;[c".toList, .ofList [("a b".toList, "#1;".toList), ("c".toList, [])], []⟩,
    ⟨"*".toList, .empty, []⟩]⟩

example : marked.written =
    "root = true\n[[!\\]\\#]\\*.\\\\;[c]\na b = #1;\nc = \n[*]".toList := by decide

theorem ofText_written_marked :
    (∀ s ∈ marked.sections, s.Writable 100) ∧ (ofText 100 .silent marked.written).result =
      .ok ⟨true, marked.sections.map Section.asWritten⟩ := by
  have h : ∀ s ∈ marked.sections, s.Writable 100 := by decide +kernel
  exact ⟨h, ofText_written marked h⟩

end Source
end EditorConfig
