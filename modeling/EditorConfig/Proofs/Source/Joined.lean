import EditorConfig.Proofs.Source.Reports
import EditorConfig.Proofs.Source.Vetoes
import EditorConfig.Proofs.Source.Grammar

/-! Files that are written one under the other. Main statement: if the lower one begins with a
header, the joint file is read as the sections of the upper one and behind them those of the
lower one, or as the malformed lines of both. -/
namespace EditorConfig
variable {limit : Nat}

namespace Text

/-- The lines of two texts, one behind the other. An empty line at the end of the first text is
missing if the carriage return in front of it meets a line feed. -/
inductive Meet (vs : List Text) : List Text → List Text → Prop where
  | whole (us : List Text) : Meet vs us (us ++ vs)
  | merged (l : Text) (ls : List Text) : Meet vs (l :: (ls ++ [[]])) (l :: (ls ++ vs))

namespace Meet
variable {us vs js : List Text}

theorem cons (l : Text) (h : Meet vs us js) : Meet vs (l :: us) (l :: js) := by
  cases h with
  | whole => exact .whole (l :: us)
  | merged k ls => exact .merged l (k :: ls)

theorem modifyHead (h : Meet vs us js) (hu : us ≠ []) (f : Text → Text) :
    Meet vs (us.modifyHead f) (js.modifyHead f) := by
  cases h with
  | merged k ls => exact .merged (f k) ls
  | whole =>
    cases us with
    | nil => exact absurd rfl hu
    | cons u us => exact .whole (f u :: us)

theorem filter (h : Meet vs us js) :
    js.filter (· ≠ []) = us.filter (· ≠ []) ++ vs.filter (· ≠ []) := by
  cases h with
  | whole => exact List.filter_append us vs
  | merged l ls =>
    have he : ([[]] : List Text).filter (· ≠ []) = [] := rfl
    rw [← List.cons_append, ← List.cons_append, List.filter_append, List.filter_append, he,
      List.append_nil]

end Meet

/-- A line feed between two texts ends a line of the first one. -/
theorem meet_lines (u v : Text) : Meet (lines v) (lines u) (lines (u ++ '\n' :: v)) := by
  fun_induction lines u with
  | case1 =>
    rw [List.nil_append, lines]
    exact .whole [[]]
  | case2 rest ih =>
    rw [List.cons_append, List.cons_append, lines]
    exact ih.cons []
  | case3 rest hn ih =>
    cases rest with
    | nil =>
      rw [List.singleton_append, lines]
      exact .merged [] []
    | cons d rest =>
      have hl : lines ('\r' :: d :: (rest ++ '\n' :: v)) =
          [] :: lines (d :: rest ++ '\n' :: v) := by
        refine lines.eq_3 _ fun more he => ?_
        cases he
        exact hn rest rfl
      rw [List.cons_append, List.cons_append, hl]
      exact ih.cons []
  | case4 rest ih =>
    rw [List.cons_append, lines]
    exact ih.cons []
  | case5 c rest _ hr hc ih =>
    rw [List.cons_append, lines_cons hr hc]
    exact ih.modifyHead (lines_ne_nil rest) _

end Text

namespace Source

def counted (limit : Nat) (text : Text) : Except Error (List Statement) :=
  (((Text.lines text).filter (· ≠ [])).mapM (readWatched limit .silent)).map
    (·.filter Statement.counts)

theorem result_ofText_counted (text : Text) :
    (ofText limit .silent text).result = (counted limit text).bind finish := by
  rw [result_ofText_filter, filter_readWatched]
  rfl

theorem counted_append_break (upper lower : Text) :
    counted limit (upper ++ '\n' :: lower) =
      (counted limit upper).bind fun ss => (counted limit lower).map (ss ++ ·) := by
  unfold counted
  rw [(Text.meet_lines upper lower).filter, List.mapM_append]
  cases ((Text.lines upper).filter (· ≠ [])).mapM (readWatched limit .silent) with
  | error e => rfl
  | ok ss =>
    cases ((Text.lines lower).filter (· ≠ [])).mapM (readWatched limit .silent) with
    | error e => rfl
    | ok ss' => exact congrArg Except.ok (List.filter_append ss ss')

theorem split_append {upper lower : List Statement} (h : (split lower).1 = []) :
    split (upper ++ lower) = ((split upper).1, (split upper).2 ++ (split lower).2) := by
  induction upper with
  | nil => exact Prod.ext h rfl
  | cons statement upper ih =>
    cases statement with
    | skipped | malformed => exact ih
    | header | option => simp only [List.cons_append, split, ih]

/-- What two files are read as that are written one under the other. An error other than
malformed lines ends the reading. -/
def joined : Except Error Source → Except Error Source → Except Error Source
  | .ok upper, .ok lower => .ok ⟨upper.isRoot, upper.sections ++ lower.sections⟩
  | .ok _, .error e => .error e
  | .error (.malformed lines _), .error (.malformed more _) =>
    .error (.malformed (lines ++ more) none)
  | .error (.malformed _ _), .error e => .error e
  | .error e, _ => .error e

theorem finish_append {upper lower : List Statement}
    (h : (split lower).1 = [] ∨ lower.filterMap Statement.malformed? ≠ []) :
    finish (upper ++ lower) = joined (finish upper) (finish lower) := by
  unfold finish
  rw [List.filterMap_append]
  cases hu : upper.filterMap Statement.malformed? with
  | nil =>
    cases hl : lower.filterMap Statement.malformed? with
    | nil =>
      have hs := @split_append upper lower (h.resolve_right (absurd hl))
      simp only [List.append_nil, ofStatements, hs]
      rfl
    | cons line lines => rfl
  | cons line lines =>
    cases hl : lower.filterMap Statement.malformed? with
    | nil => simp [joined]
    | cons line' lines' => rfl

def isWritten (line : Text) : Bool := !(line.isEmpty || line.head?.any Statement.isCommentMark)

def OpensWithHeader (text : Text) : Prop :=
  ∀ line ∈ (bareLines text).find? isWritten, ∃ pattern, Statement.Header line pattern

instance (text : Text) : Decidable (OpensWithHeader text) :=
  decidable_of_iff (∀ line ∈ (bareLines text).find? isWritten,
    ∃ pattern ∈ Statement.pattern? line, True)
    (by simp only [Option.mem_def, Statement.pattern?_eq_some_iff, and_true]; rfl)

end Source

namespace Statement

theorem counts_of_read {line : Text} {s : Statement} (h : read limit line = .ok s) :
    s.counts = Source.isWritten line := by
  unfold read at h
  unfold Source.isWritten
  split at h
  next hc =>
    cases h
    rw [hc]
    rfl
  next hc =>
    rw [Bool.eq_false_iff.2 hc]
    split at h
    · split at h <;> cases h <;> rfl
    · split at h <;> cases h <;> rfl

theorem header_or_malformed {line pattern : Text} (hh : Header line pattern) {s : Statement}
    (h : read limit line = .ok s) : s = .header pattern line ∨ s = .malformed line := by
  rw [read_of_header hh] at h
  split at h
  · exact .inl (Except.ok.inj h).symm
  · exact .inr (Except.ok.inj h).symm
  · cases h

end Statement

namespace Source

/-- The first result with a property comes from the first step with it. -/
theorem find?_of_mapM {α β ε : Type} {f : α → Except ε β} {p : α → Bool} {q : β → Bool}
    (hp : ∀ x y, f x = .ok y → q y = p x) {xs : List α} {ys : List β} (h : xs.mapM f = .ok ys)
    {y : β} (hy : ys.find? q = some y) : ∃ x, xs.find? p = some x ∧ f x = .ok y := by
  induction xs generalizing ys with
  | nil =>
    cases h
    cases hy
  | cons x xs ih =>
    obtain ⟨z, zs, hz, hr, rfl⟩ := mapM_cons_ok h
    have hq := hp x z hz
    cases hx : p x with
    | true =>
      rw [List.find?_cons_of_pos (hq.trans hx)] at hy
      cases hy
      exact ⟨x, List.find?_cons_of_pos hx, hz⟩
    | false =>
      rw [List.find?_cons_of_neg (by simp [hq, hx])] at hy
      obtain ⟨x', hf, he⟩ := ih hr hy
      exact ⟨x', by rw [List.find?_cons_of_neg (by simp [hx]), hf], he⟩

theorem exists_of_counted {text : Text} {ss : List Statement} (h : counted limit text = .ok ss) :
    ∃ all, (bareLines text).mapM (Statement.read limit) = .ok all ∧
      ss = all.filter Statement.counts := by
  have hr : (((Text.lines text).mapM (readWatched limit .silent)).map (·.filter Statement.counts)) =
      .ok ss := by
    rw [filter_readWatched]
    exact h
  rw [bareLines, List.mapM_map]
  change ∃ all, (Text.lines text).mapM (readWatched limit .silent) = .ok all ∧ _
  cases hm : (Text.lines text).mapM (readWatched limit .silent) with
  | error e =>
    rw [hm] at hr
    cases hr
  | ok all =>
    rw [hm] at hr
    exact ⟨all, rfl, (Except.ok.inj hr).symm⟩

/-- Nothing stands before the first header of a text that opens with one, or it is malformed. -/
theorem opens_of_counted {text : Text} (ho : OpensWithHeader text) {ss : List Statement}
    (h : counted limit text = .ok ss) :
    (split ss).1 = [] ∨ ss.filterMap Statement.malformed? ≠ [] := by
  obtain ⟨all, hr, hs⟩ := exists_of_counted h
  cases ss with
  | nil => exact .inl rfl
  | cons s ss =>
    have hf : all.find? Statement.counts = some s := by
      rw [← List.head?_filter, ← hs]
      rfl
    obtain ⟨line, hl, he⟩ := find?_of_mapM (fun _ _ => Statement.counts_of_read) hr hf
    obtain ⟨pattern, hp⟩ := ho line hl
    obtain rfl | rfl := Statement.header_or_malformed hp he
    · exact .inl rfl
    · exact .inr (List.cons_ne_nil line _)

theorem counted_ne_malformed (text : Text) (lines : List Text) (path : Option Text) :
    counted limit text ≠ .error (.malformed lines path) := by
  intro h
  unfold counted at h
  cases hm : ((Text.lines text).filter (· ≠ [])).mapM (readWatched limit .silent) with
  | ok ss =>
    rw [hm] at h
    cases h
  | error e =>
    rw [hm] at h
    cases h
    have hr := @readLines_ne_malformed limit .silent
      (((Text.lines text).filter (· ≠ [])).map Text.bareLine) lines path
    rw [result_readLines, List.mapM_map] at hr
    exact hr hm

/-- Malformed lines do not keep another error from being found. -/
theorem joined_error {e : Error} (he : ∀ lines path, e ≠ .malformed lines path) :
    (∀ r, joined (.error e) r = .error e) ∧ ∀ ss, joined (finish ss) (.error e) = .error e := by
  constructor
  · intro r
    cases e with
    | malformed lines path => exact absurd rfl (he lines path)
    | _ => rfl
  · intro ss
    unfold finish
    cases ss.filterMap Statement.malformed? with
    | nil => rfl
    | cons line lines =>
      cases e with
      | malformed lines path => exact absurd rfl (he lines path)
      | _ => rfl

/-- A text over another one that opens with a header is read like each of them alone. -/
theorem ofText_joined (upper : Text) {lower : Text} (h : OpensWithHeader lower) :
    (ofText limit .silent (upper ++ '\n' :: lower)).result =
      joined (ofText limit .silent upper).result (ofText limit .silent lower).result := by
  rw [result_ofText_counted, result_ofText_counted, result_ofText_counted, counted_append_break]
  cases hu : counted limit upper with
  | error e =>
    have he : ∀ lines path, e ≠ .malformed lines path := by
      rintro lines path rfl
      exact counted_ne_malformed upper lines path hu
    exact ((joined_error he).1 _).symm
  | ok ss =>
    cases hl : counted limit lower with
    | error e =>
      have he : ∀ lines path, e ≠ .malformed lines path := by
        rintro lines path rfl
        exact counted_ne_malformed lower lines path hl
      exact ((joined_error he).2 ss).symm
    | ok ss' => exact finish_append (opens_of_counted h hl)

/-- The first text ends in a carriage return, and the second one begins with a comment. -/
theorem ofText_joined_mixed :
    (ofText 100 .silent
        ("root = true\n[a]\nx = 1\r".toList ++ '\n' :: "; c\n[b]\ny = 2".toList)).result.map
        (fun source => (source.isRoot, source.sections.map Section.header)) =
      .ok (true, ["a".toList, "b".toList]) ∧
    (ofText 100 .silent ("[a]\nx".toList ++ '\n' :: "[b]\n=".toList)).result.map
        (fun source => (source.isRoot, source.sections.map Section.header)) =
      .error (.malformed ["x".toList, "=".toList] none) := by
  have ho : OpensWithHeader "; c\n[b]\ny = 2".toList := by decide +kernel
  have hm : OpensWithHeader "[b]\n=".toList := by decide +kernel
  constructor
  · rw [ofText_joined "root = true\n[a]\nx = 1\r".toList ho]
    decide +kernel
  · rw [ofText_joined "[a]\nx".toList hm]
    decide +kernel

/-- A header that is nested too deep hides the malformed lines of the text above it. -/
theorem joined_unreported :
    ¬ ∃ limit, limit < 1000 ∧ ∀ upper lower,
      ShortBounds upper → ShortBounds lower → OpensWithHeader lower →
      ∀ lines, (ofText limit .silent upper).result = .error (.malformed lines none) →
        ∃ more, (ofText limit .silent (upper ++ '\n' :: lower)).result =
          .error (.malformed (lines ++ more) none) := by
  intro h
  obtain ⟨limit, hlimit, h⟩ := h
  have hx : ShortBounds ['x'] := by decide +kernel
  have ho : OpensWithHeader overnested := by
    intro line hl
    have hm := List.mem_of_find?_eq_some hl
    rw [bareLines_overnested, List.mem_singleton] at hm
    exact ⟨_, hm ▸ header_overnested⟩
  have hu : (ofText limit .silent ['x']).result = .error (.malformed [['x']] none) := by
    have hr : Statement.read limit ['x'] = .ok (.malformed ['x']) := rfl
    have hl : (Text.lines ['x']).map Text.bareLine = [['x']] := by decide +kernel
    rw [result_ofText, statements, hl, List.mapM_cons, hr]
    rfl
  have hj : bareLines (['x'] ++ '\n' :: overnested) = [['x'], overnested] := by
    rw [bareLines, Text.lines_append_line (by decide), List.map_cons, ← bareLines,
      bareLines_overnested]
    rfl
  have hb : ShortBounds (['x'] ++ '\n' :: overnested) := by
    intro line hl pattern hp
    rw [hj, List.mem_cons, List.mem_singleton] at hl
    cases hl with
    | inl he =>
      subst he
      exact hx _ (by decide) pattern hp
    | inr he =>
      subst he
      exact shortBounds_overnested _ (by simp [bareLines_overnested]) pattern hp
  have hd : HasTooDeep limit (['x'] ++ '\n' :: overnested) := by
    refine ⟨overnested, ?_, _, header_overnested, Glob.tooDeep_nested (by omega)⟩
    rw [hj]
    exact List.mem_cons_of_mem _ List.mem_cons_self
  obtain ⟨more, hm⟩ := h _ _ hx shortBounds_overnested ho _ hu
  rw [result_of_tooDeep hb hd] at hm
  cases hm

end Source
end EditorConfig
