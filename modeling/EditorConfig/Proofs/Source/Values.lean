import EditorConfig.Proofs.Source.Accepted
import EditorConfig.Proofs.Source.Grammar

/-! Values of options as they are stored. Main statement: each is the right side of a line of the
text, without white space around it, up to the first semicolon behind a space, or up to the first
number sign behind one if there is no such semicolon; but two quotes alone are an empty value. -/
namespace EditorConfig
variable {limit : Nat}

namespace Text
variable {mark text start : Text}

theorem before?_eq_none_iff : before? mark text = none ↔ ¬ mark <:+: text := by
  induction text with
  | nil =>
    rw [before?, List.infix_nil]
    cases mark <;> simp
  | cons c text ih =>
    rw [before?, List.infix_cons_iff, ← List.isPrefixOf_iff_prefix]
    cases mark.isPrefixOf (c :: text) <;> simp [ih]

/-- The cut is made at the first mark. -/
theorem not_infix_before? (hm : mark ≠ []) (h : before? mark text = some start) :
    ¬ mark <:+: start := by
  induction text generalizing start with
  | nil =>
    rw [before?] at h
    split at h
    · cases h
      rwa [List.infix_nil]
    · cases h
  | cons c text ih =>
    rw [before?] at h
    split at h
    · cases h
      rwa [List.infix_nil]
    next hp =>
      obtain ⟨start, hs, rfl⟩ := Option.map_eq_some_iff.1 h
      obtain ⟨rest, hr⟩ := before?_eq_append hs
      rw [List.infix_cons_iff, not_or]
      refine ⟨fun hc => hp (List.isPrefixOf_iff_prefix.2 ?_), ih hs⟩
      rw [hr, List.append_assoc, ← List.cons_append]
      exact hc.trans (List.prefix_append _ _)

theorem prefix_of_before? (h : before? mark text = some start) : start <+: text := by
  obtain ⟨rest, rfl⟩ := before?_eq_append h
  rw [List.append_assoc]
  exact List.prefix_append start _

theorem infix_of_before? (h : before? mark text = some start) : mark <:+: text := by
  obtain ⟨rest, rfl⟩ := before?_eq_append h
  exact List.infix_append start mark rest

theorem head_trimStart (text : Text) : (trimStart text).head?.any isBlank = false := by
  induction text with
  | nil => rfl
  | cons c text ih =>
    rw [trimStart, List.dropWhile_cons]
    cases hc : isBlank c with
    | true => exact ih
    | false => simpa using hc

theorem last_of_suffix {u v : Text} (hs : u <:+ v) (hv : v.getLast?.any isBlank = false) :
    u.getLast?.any isBlank = false := by
  cases u with
  | nil => rfl
  | cons c u =>
    obtain ⟨t, rfl⟩ := hs
    rwa [List.getLast?_append_of_ne_nil t (List.cons_ne_nil c u)] at hv

theorem head_of_prefix {u v : Text} (hp : u <+: v) (hv : v.head?.any isBlank = false) :
    u.head?.any isBlank = false := by
  cases u with
  | nil => rfl
  | cons c u =>
    obtain ⟨t, rfl⟩ := hp
    exact hv

theorem isTrimmed_trim (text : Text) : IsTrimmed (trim text) := by
  constructor
  · exact head_of_prefix (dropEndWhile_isPrefix isBlank _) (head_trimStart text)
  · have hr := head_trimStart (trimStart text).reverse
    rwa [← List.getLast?_reverse] at hr

theorem isTrimmed_trimStart (h : text.getLast?.any isBlank = false) :
    IsTrimmed (trimStart text) :=
  ⟨head_trimStart text, last_of_suffix (List.dropWhile_suffix isBlank) h⟩

theorem isTrimmed_bareLine (line : Text) : IsTrimmed (bareLine line) := by
  have ht := isTrimmed_trim line
  unfold bareLine
  split
  next rest hr =>
    rw [hr] at ht
    exact isTrimmed_trimStart (last_of_suffix (List.suffix_cons _ rest) ht.last)
  · exact ht

end Text

def EndsBefore (written value mark : Text) : Prop :=
  ∃ blanks : Text, blanks.all Text.isBlank = true ∧ value ++ blanks ++ mark <+: written

/-- What is left of the right side of an option when the comment behind it is cut off. The mark of
a comment is a semicolon behind a space or, only without one, a number sign. -/
structure Uncommented (written value : Text) : Prop where
  head : value.head?.any Text.isBlank = false
  semicolon : ¬ [' ', ';'] <:+: value
  numberSign : [' ', '#'] <:+: value → [' ', ';'] <:+: written
  atSemicolon : [' ', ';'] <:+: written → EndsBefore written value [' ', ';']
  atNumberSign : ¬ [' ', ';'] <:+: written → [' ', '#'] <:+: written →
    EndsBefore written value [' ', '#']
  whole : ¬ [' ', ';'] <:+: written → ¬ [' ', '#'] <:+: written → value = written

theorem endsBefore_of_before? {written value mark : Text}
    (h : Text.before? mark written = some value) : EndsBefore written value mark := by
  obtain ⟨rest, rfl⟩ := Text.before?_eq_append h
  exact ⟨[], rfl, by rw [List.append_nil]; exact List.prefix_append _ rest⟩

/-- A value is cut at one kind of mark only, so the other may be left in it. -/
theorem uncommented_withoutComment {written : Text} (h : written.head?.any Text.isBlank = false) :
    Uncommented written (withoutComment written) := by
  unfold withoutComment
  cases hs : Text.before? [' ', ';'] written with
  | some value =>
    have hp := Text.prefix_of_before? hs
    have hi := Text.infix_of_before? hs
    exact ⟨Text.head_of_prefix hp h, Text.not_infix_before? (by simp) hs, fun _ => hi,
      fun _ => endsBefore_of_before? hs, fun hn => absurd hi hn, fun hn => absurd hi hn⟩
  | none =>
    have hn := Text.before?_eq_none_iff.1 hs
    cases hc : Text.before? [' ', '#'] written with
    | some value =>
      have hp := Text.prefix_of_before? hc
      have hi := Text.infix_of_before? hc
      have hm := Text.not_infix_before? (by simp) hc
      exact ⟨Text.head_of_prefix hp h, fun hw => hn (hw.trans hp.isInfix),
        fun hw => absurd hw hm, fun hw => absurd hw hn, fun _ _ => endsBefore_of_before? hc,
        fun _ hw => absurd hi hw⟩
    | none =>
      have hm := Text.before?_eq_none_iff.1 hc
      exact ⟨h, hn, fun hw => absurd hw hm, fun hw => absurd hw hn, fun _ hw => absurd hw hm,
        fun _ _ => rfl⟩

namespace Statement

/-- The line sets the key to its right side: what stands behind the first separator, without white
space around it. -/
structure Sets (line key right : Text) : Prop where
  parts : ∃ left mark rest, line = left ++ mark :: rest ∧ isSeparator mark = true ∧
    (∀ c ∈ left, isSeparator c = false) ∧ left ≠ [] ∧ key = Text.lower (Text.trim left) ∧
      right = Text.trim rest

def unquoted (right : Text) : Text := if right = ['"', '"'] then [] else right

theorem sets_of_option? {line key written : Text} (hl : line.getLast?.any Text.isBlank = false)
    (h : option? line = some (key, written)) :
    ∃ right, Sets line key right ∧ written = unquoted right := by
  have hp := List.takeWhile_append_dropWhile (p := (!isSeparator ·)) (l := line)
  have hm := List.head?_dropWhile_not (!isSeparator ·) line
  have hn : ∀ d ∈ line.takeWhile (!isSeparator ·), (!isSeparator d) = true :=
    List.all_eq_true.1 List.all_takeWhile
  unfold option? at h
  split at h
  next c left mark rest ht hd =>
    rw [ht, hd] at hp
    rw [hd] at hm
    rw [ht] at hn
    cases h
    have hr : Text.trim rest = Text.trimStart rest := by
      apply Text.trimEnd_eq_self
      have hs : Text.trimStart rest <:+ line := by
        rw [← hp]
        exact (List.dropWhile_suffix Text.isBlank).trans
          ((List.suffix_cons mark rest).trans (List.suffix_append _ _))
      exact Text.last_of_suffix hs hl
    refine ⟨Text.trim rest, ⟨c :: left, mark, rest, hp.symm, ?_, ?_, ?_, rfl, rfl⟩, ?_⟩
    · simpa using hm
    · intro d hd
      simpa using hn d hd
    · exact List.cons_ne_nil c left
    · rw [hr, unquoted]
  next => cases h

theorem option?_of_read {line key written : Text}
    (h : read limit line = .ok (.option key written)) : option? line = some (key, written) := by
  unfold read at h
  split at h
  · cases h
  · split at h
    · split at h <;> cases h
    · split at h
      next ho =>
        cases h
        exact ho
      · cases h

end Statement

namespace Source

theorem mem_split_preamble {statements : List Statement} {key written : Text}
    (h : (key, written) ∈ (split statements).1) : .option key written ∈ statements := by
  induction statements with
  | nil => cases h
  | cons statement rest ih =>
    cases statement with
    | header pattern line => cases h
    | skipped | malformed => exact List.mem_cons_of_mem _ (ih h)
    | option key' written' =>
      cases List.mem_cons.1 h with
      | inl he =>
        cases he
        exact List.mem_cons_self
      | inr hr => exact List.mem_cons_of_mem _ (ih hr)

/-- Each option of a section stands in a line of its own. -/
theorem mem_split_options {statements : List Statement} {s : Section} {key value : Text}
    (hs : s ∈ (split statements).2) (h : (key, value) ∈ s.options.entries) :
    ∃ written, .option key written ∈ statements ∧ value = withoutComment written := by
  induction statements with
  | nil => cases hs
  | cons statement rest ih =>
    have hr : s ∈ (split rest).2 →
        ∃ written, .option key written ∈ statement :: rest ∧ value = withoutComment written := by
      intro hm
      obtain ⟨written, hw, hv⟩ := ih hm
      exact ⟨written, List.mem_cons_of_mem _ hw, hv⟩
    cases statement with
    | skipped | malformed | option => exact hr hs
    | header pattern line =>
      cases List.mem_cons.1 hs with
      | inr hm => exact hr hm
      | inl he =>
        subst he
        obtain ⟨e, he, hv⟩ := List.mem_map.1 (OrderedMap.mem_of_mem_ofList h)
        cases hv
        exact ⟨e.2, List.mem_cons_of_mem _ (mem_split_preamble he), rfl⟩

/-- Every value of a source is what an option of the text sets its key to, without a comment. -/
theorem uncommented_of_mem_options {observer : Observer} {text : Text} {source : Source}
    (h : (ofText limit observer text).result = .ok source) {s : Section}
    (hs : s ∈ source.sections) {key value : Text} (hv : (key, value) ∈ s.options.entries) :
    ∃ line ∈ bareLines text, ∃ right, Statement.Sets line key right ∧
      Statement.read limit line = .ok (.option key (Statement.unquoted right)) ∧
      (right = ['"', '"'] → value = []) ∧ (right ≠ ['"', '"'] → Uncommented right value) := by
  obtain ⟨ss, rfl, hr⟩ := exists_statements h
  obtain ⟨written, hm, rfl⟩ := mem_split_options hs hv
  obtain ⟨line, hl, hw⟩ := mem_of_mapM hr hm
  split at hw
  next =>
    obtain ⟨raw, -, rfl⟩ := List.mem_map.1 hl
    obtain ⟨right, hr, rfl⟩ := Statement.sets_of_option? (Text.isTrimmed_bareLine raw).last
      (Statement.option?_of_read hw)
    refine ⟨_, hl, right, hr, hw, ?_, ?_⟩
    · intro hq
      rw [Statement.unquoted, if_pos hq]
      rfl
    · intro hq
      obtain ⟨left, mark, rest, -, -, -, -, -, rfl⟩ := hr.parts
      rw [Statement.unquoted, if_neg hq]
      exact uncommented_withoutComment (Text.isTrimmed_trim rest).head
  next => cases hw

/-- What a text stores that is read as a single section. -/
theorem stored_of_result {text : Text} {options : List (Text × Text)}
    (h : (ofText limit .silent text).result.map (fun source =>
      source.sections.map fun s => s.options.entries) = .ok [options]) :
    ∃ source s, (ofText limit .silent text).result = .ok source ∧ s ∈ source.sections ∧
      s.options.entries = options := by
  cases hr : (ofText limit .silent text).result with
  | error e =>
    rw [hr] at h
    cases h
  | ok source =>
    rw [hr] at h
    have he : source.sections.map (fun s => s.options.entries) = [options] := Except.ok.inj h
    obtain ⟨s, hs, ho⟩ := List.map_eq_singleton_iff.1 he
    exact ⟨source, s, rfl, by rw [hs]; exact List.mem_cons_self, ho⟩

def cutAndEmptied : Text := "[*]\nK = a#b # c ; d\nq: \"\" ".toList

theorem uncommented_cutAndEmptied :
    ∃ source s, (ofText 100 .silent cutAndEmptied).result = .ok source ∧ s ∈ source.sections ∧
      s.options.entries = [("k".toList, "a#b # c".toList), ("q".toList, [])] ∧
      ∀ e ∈ s.options.entries, ∃ line ∈ bareLines cutAndEmptied, ∃ right,
        Statement.Sets line e.1 right ∧
        Statement.read 100 line = .ok (.option e.1 (Statement.unquoted right)) ∧
        (right = ['"', '"'] → e.2 = []) ∧ (right ≠ ['"', '"'] → Uncommented right e.2) := by
  have hr : (ofText 100 .silent cutAndEmptied).result.map (fun source =>
      source.sections.map fun s => s.options.entries) =
        .ok [[("k".toList, "a#b # c".toList), ("q".toList, [])]] := by decide +kernel
  obtain ⟨source, s, ho, hs, he⟩ := stored_of_result hr
  exact ⟨source, s, ho, hs, he, fun e hm => uncommented_of_mem_options ho hs hm⟩

theorem not_every_value_markless :
    ¬ ∀ limit text source, (ofText limit .silent text).result = .ok source →
      ∀ s ∈ source.sections, ∀ e ∈ s.options.entries,
        e.2.IsTrimmed ∧ ¬ [' ', ';'] <:+: e.2 ∧ ¬ [' ', '#'] <:+: e.2 := by
  intro h
  have hr : (ofText 100 .silent "[*]\nk=a # b ; c".toList).result.map (fun source =>
      source.sections.map fun s => s.options.entries) =
        .ok [[("k".toList, "a # b".toList)]] := by decide +kernel
  obtain ⟨source, s, ho, hs, he⟩ := stored_of_result hr
  have hm : ("k".toList, "a # b".toList) ∈ s.options.entries := by
    rw [he]
    exact List.mem_cons_self
  exact (h 100 _ source ho s hs _ hm).2.2 ⟨['a'], [' ', 'b'], rfl⟩

end Source
end EditorConfig
