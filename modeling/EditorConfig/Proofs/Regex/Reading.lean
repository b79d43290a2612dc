import EditorConfig.Regex.Written
import EditorConfig.Proofs.Regex.Language

/-! How written expressions are read, mark by mark and item by item. Main statement: what is put
in front of an expression stands in front of its first branch only. -/
namespace EditorConfig.Regex
variable {limit : Nat}

def Unrepeated (marks : List Mark) : Prop :=
  ∀ rest, marks ≠ .bare '*' :: rest ∧ marks ≠ .bare '+' :: rest

def Mark.Literal : Mark → Prop
  | .quoted _ => True
  | .bare c => c ∉ "()[.*+?|".toList

theorem unrepeated_nil : Unrepeated [] := fun _ => ⟨by simp, by simp⟩

theorem unrepeated_cons {m : Mark} (marks : List Mark) (hs : m ≠ .bare '*') (hp : m ≠ .bare '+') :
    Unrepeated (m :: marks) := fun _ => ⟨by simp [hs], by simp [hp]⟩

theorem repeated_of_unrepeated (set : CharSet) {marks : List Mark} (h : Unrepeated marks) :
    repeated set marks = ([.one set], marks) :=
  repeated.eq_3 set marks (fun rest => (h rest).1) fun rest => (h rest).2

theorem items_of_charSet? {m : Mark} {marks rest : List Mark} {set : CharSet}
    (hc : charSet? (m :: marks) = some (set, rest))
    (hm : m ≠ .bare '(' ∧ m ≠ .bare '|' ∧ m ≠ .bare ')') :
    items (m :: marks) = (repeated set rest).1 ++ items (repeated set rest).2 := by
  rw [items.eq_6 _ _ (fun _ h => absurd h hm.1) hm.1 hm.2.1 hm.2.2]
  split
  · next h => simp [h] at hc
  · next h =>
    rw [h, Option.some.injEq, Prod.mk.injEq] at hc
    obtain ⟨rfl, rfl⟩ := hc
    rfl

theorem items_one {m : Mark} {marks rest : List Mark} {set : CharSet}
    (hc : charSet? (m :: marks) = some (set, rest))
    (hm : m ≠ .bare '(' ∧ m ≠ .bare '|' ∧ m ≠ .bare ')') (hr : Unrepeated rest) :
    items (m :: marks) = .one set :: items rest := by
  rw [items_of_charSet? hc hm, repeated_of_unrepeated set hr]
  rfl

theorem items_many {m : Mark} {marks rest : List Mark} {set : CharSet}
    (hc : charSet? (m :: marks) = some (set, .bare '*' :: rest))
    (hm : m ≠ .bare '(' ∧ m ≠ .bare '|' ∧ m ≠ .bare ')') :
    items (m :: marks) = .many set :: items rest :=
  items_of_charSet? hc hm

theorem charSet?_literal {m : Mark} (marks : List Mark) (hm : m.Literal) :
    charSet? (m :: marks) = some (.exactly m.char, marks) := by
  unfold charSet?
  split <;> simp_all [Mark.Literal]

theorem items_literal {m : Mark} {marks : List Mark} (hm : m.Literal) (hr : Unrepeated marks) :
    items (m :: marks) = .one (.exactly m.char) :: items marks := by
  refine items_one (charSet?_literal marks hm) ⟨?_, ?_, ?_⟩ hr <;> rintro rfl <;>
    simp [Mark.Literal] at hm

theorem unrepeated_literal {m : Mark} (marks : List Mark) (hm : m.Literal) :
    Unrepeated (m :: marks) := by
  refine unrepeated_cons marks ?_ ?_ <;> rintro rfl <;> simp [Mark.Literal] at hm

theorem items_literals {literals marks : List Mark} (hl : ∀ m ∈ literals, m.Literal)
    (hr : Unrepeated marks) :
    items (literals ++ marks) = literals.map (fun m => .one (.exactly m.char)) ++ items marks := by
  induction literals with
  | nil => rfl
  | cons m literals ih =>
    have hm := hl m List.mem_cons_self
    have hl' : ∀ m ∈ literals, m.Literal := fun m h => hl m (List.mem_cons_of_mem _ h)
    have hr' : Unrepeated (literals ++ marks) := by
      cases literals with
      | nil => exact hr
      | cons n literals => exact unrepeated_literal _ (hl' n List.mem_cons_self)
    rw [List.cons_append, items_literal hm hr', ih hl', List.map_cons, List.cons_append]

theorem items_anyText (marks : List Mark) :
    items (.bare '.' :: .bare '*' :: marks) = .many .notNewline :: items marks :=
  items_many rfl (by simp)

theorem items_anyName (marks : List Mark) :
    items (.bare '[' :: .bare '^' :: .bare '/' :: .bare ']' :: .bare '*' :: marks) =
      .many (.noneOf [.one '/']) :: items marks := by
  refine items_many ?_ (by simp)
  simp [charSet?, members?, Mark.char]

theorem items_separator {marks : List Mark} (hr : Unrepeated marks) :
    items (.bare '/' :: marks) = .one (.exactly '/') :: items marks :=
  items_literal (by simp [Mark.Literal]) hr

def directories : List Item :=
  [.opening false, .one (.exactly '/'), .bar, .one (.exactly '/'), .many .notNewline,
    .one (.exactly '/'), .closing]

theorem items_directories (marks : List Mark) :
    items (.bare '(' :: .bare '?' :: .bare ':' :: .bare '/' :: .bare '|' :: .bare '/' ::
      .bare '.' :: .bare '*' :: .bare '/' :: .bare ')' :: marks) = directories ++ items marks := by
  rw [items.eq_2, items_separator (unrepeated_cons _ (by simp) (by simp)), items.eq_4,
    items_separator (unrepeated_cons _ (by simp) (by simp)), items_anyText,
    items_separator (unrepeated_cons _ (by simp) (by simp)), items.eq_5]
  rfl

def apart : Regex :=
  .either (.seq .empty (.one (.exactly '/')))
    (.seq (.seq (.seq .empty (.one (.exactly '/'))) (.many .notNewline)) (.one (.exactly '/')))

theorem tree_directories (outer : List Level) (current : Level) (next : Nat)
    (items : List Item) :
    tree limit outer current next (directories ++ items) =
      if limit < 2 * outer.length + 3 then .error .tooDeep
      else tree limit outer (current.push apart) next items := by
  have hm : 2 * (current :: outer).length + 1 = 2 * outer.length + 3 := by
    rw [List.length_cons]
    omega
  rw [directories, List.cons_append, tree]
  by_cases ho : limit < 2 * outer.length + 2
  · rw [if_pos ho, if_pos (by omega)]
  · rw [if_neg ho, if_neg Bool.false_ne_true, ← hm]
    rfl

def after (start : Regex) : Regex → Regex
  | .empty => start
  | .seq a b => .seq (after start a) b
  | r => .seq start r

def leading (start : Regex) : Regex → Regex
  | .either a b => .either (leading start a) b
  | r => after start r

def first : Regex → Regex
  | .either a _ => first a
  | r => r

def later? : Regex → Option Regex
  | .either a b => some (match later? a with | none => b | some r => .either r b)
  | _ => none

def IsSequence : Regex → Prop
  | .empty | .seq _ _ => True
  | _ => False

theorem leading_of_isSequence (start : Regex) {r : Regex} (h : r.IsSequence) :
    leading start r = after start r := by
  cases r <;> simp_all [IsSequence, leading]

theorem groups_after (start r : Regex) : (after start r).groups = start.groups + r.groups := by
  induction r with
  | seq a b iha _ => simp only [after, groups, iha, Nat.add_assoc]
  | _ => simp [after, groups]

theorem groups_leading (start r : Regex) : (leading start r).groups = start.groups + r.groups := by
  induction r with
  | either a b iha _ => simp only [leading, groups, iha, Nat.add_assoc]
  | _ => exact groups_after start _

theorem search_after {α : Type} (start r : Regex) (text : Text) (caps : Captures)
    (next : Text → Captures → Option α) :
    (after start r).search text caps next =
      start.search text caps fun rest caps => r.search rest caps next := by
  induction r generalizing next with
  | empty => rfl
  | seq a b iha _ => simp only [after, search, iha]
  | _ => rfl

/-- The first branch is tried behind the start, the others without it. -/
theorem search_leading {α : Type} (start r : Regex) (text : Text) (caps : Captures)
    (next : Text → Captures → Option α) :
    (leading start r).search text caps next =
      (start.search text caps fun rest caps => r.first.search rest caps next).or
        (r.later?.bind fun later => later.search text caps next) := by
  induction r with
  | either a b iha _ =>
    rw [leading, search, iha, Option.orElse_eq_orElse, Option.orElse_eq_or, Option.or_assoc,
      first, later?]
    cases a.later? with
    | none => rfl
    | some later => simp [search]
  | _ => simp [leading, search_after, first, later?]

namespace Level

def leading (level : Level) (start : Regex) : Level :=
  match level.branches with
  | none => { level with sequence := after start level.sequence }
  | some r => { level with branches := some (Regex.leading start r) }

structure IsBase (level : Level) : Prop where
  capture : level.capture = none
  sequence : level.sequence.IsSequence

theorem IsBase.start : (start none).IsBase := ⟨rfl, trivial⟩

theorem IsBase.push {level : Level} (h : level.IsBase) (r : Regex) : (level.push r).IsBase :=
  ⟨h.capture, trivial⟩

theorem IsBase.bar {level : Level} (h : level.IsBase) : level.bar.IsBase := ⟨h.capture, trivial⟩

theorem leading_push (start r : Regex) (level : Level) :
    (level.leading start).push r = (level.push r).leading start := by
  cases level with
  | mk capture branches sequence => cases branches <;> rfl

theorem choice_leading (start : Regex) {level : Level} (h : level.IsBase) :
    (level.leading start).choice = Regex.leading start level.choice := by
  obtain ⟨capture, branches, sequence⟩ := level
  cases branches with
  | none => exact (leading_of_isSequence start h.sequence).symm
  | some r => rfl

theorem leading_bar (start : Regex) {level : Level} (h : level.IsBase) :
    (level.leading start).bar = level.bar.leading start := by
  have hc := choice_leading start h
  obtain ⟨capture, branches, sequence⟩ := level
  cases branches <;> simpa [bar, leading] using hc

theorem close_leading (start : Regex) {level : Level} (h : level.IsBase) :
    (level.leading start).close = Regex.leading start level.close := by
  have hl : (level.leading start).capture = none := by
    rw [← h.capture, leading]
    split <;> rfl
  rw [close, close, hl, h.capture, choice_leading start h]

end Level

/-- Whatever stands in front of the items ends up in front of the first branch. The second part
is the same below open groups, where the whole expression is the outermost level. -/
theorem tree_leading_aux (start : Regex) (items : List Item) :
    (∀ base next, base.IsBase →
      tree limit [] (base.leading start) next items =
        (tree limit [] base next items).map (leading start)) ∧
    ∀ inner base current next, base.IsBase →
      tree limit (inner ++ [base.leading start]) current next items =
        (tree limit (inner ++ [base]) current next items).map (leading start) := by
  induction items with
  | nil =>
    constructor
    · intro base next h
      simp [tree, Except.map, Level.close_leading start h]
    · intro inner base current next _
      simp [tree, Except.map]
  | cons item items ih =>
    obtain ⟨ih₁, ih₂⟩ := ih
    constructor
    · intro base next h
      cases item with
      | one set => simp only [tree, Level.leading_push, ih₁ _ _ (h.push _)]
      | many set =>
        simp only [tree, Level.leading_push, ih₁ _ _ (h.push _)]
        split <;> rfl
      | bar => simp only [tree, Level.leading_bar start h, ih₁ _ _ h.bar]
      | opening capturing =>
        have hi := fun current next => ih₂ [] base current next h
        simp only [List.nil_append] at hi
        simp only [tree, List.length_nil, hi]
        split
        · rfl
        · cases capturing <;> rfl
      | closing => rfl
      | unreadable => rfl
    · intro inner base current next h
      cases item with
      | one set => simp only [tree, ih₂ _ _ _ _ h]
      | many set =>
        simp only [tree, List.length_append, List.length_singleton, ih₂ _ _ _ _ h]
        split <;> rfl
      | bar => simp only [tree, ih₂ _ _ _ _ h]
      | opening capturing =>
        have hi := fun current' next => ih₂ (current :: inner) base current' next h
        simp only [List.cons_append] at hi
        simp only [tree, List.length_append, List.length_singleton, hi]
        split
        · rfl
        · cases capturing <;> rfl
      | closing =>
        cases inner with
        | nil => simp only [tree, List.nil_append, Level.leading_push, ih₁ _ _ (h.push _)]
        | cons level inner => simp only [tree, List.cons_append, ih₂ _ _ _ _ h]
      | unreadable => rfl

theorem tree_leading (start : Regex) (items : List Item) {base : Level} (h : base.IsBase)
    (next : Nat) :
    tree limit [] (base.leading start) next items =
      (tree limit [] base next items).map (leading start) :=
  (tree_leading_aux start items).1 base next h

section Room
variable {outer : List Level} {current : Level} {next : Nat} {items : List Item} {r : Regex}

/-- Where an expression is read there is room for its repetitions. -/
theorem tree_of_many {set : CharSet}
    (h : tree limit outer current next (.many set :: items) = .ok r) :
    tree limit outer (current.push (.many set)) next items = .ok r := by
  rw [tree] at h
  split at h
  · cases h
  · exact h

/-- Where an expression is read there is room for its groups. -/
theorem tree_of_opening {capturing : Bool}
    (h : tree limit outer current next (.opening capturing :: items) = .ok r) :
    ∃ capture next', tree limit (current :: outer) (Level.start capture) next' items = .ok r := by
  rw [tree] at h
  split at h
  · cases h
  · split at h
    · exact ⟨_, _, h⟩
    · exact ⟨_, _, h⟩

/-- With other room an expression is read to the same, or there is not enough of it. -/
theorem tree_ok_or_tooDeep (h : tree limit outer current next items = .ok r) (limit' : Nat) :
    tree limit' outer current next items = .ok r ∨
      tree limit' outer current next items = .error .tooDeep := by
  induction items generalizing outer current next with
  | nil => exact .inl h
  | cons item items ih =>
    cases item with
    | one set | bar => exact ih h
    | many set =>
      have ht := ih (tree_of_many h)
      rw [tree]
      split
      · exact .inr rfl
      · exact ht
    | opening capturing =>
      rw [tree] at h ⊢
      split at h
      · cases h
      · split
        · exact .inr rfl
        · split at h
          next hc =>
            rw [if_pos hc]
            exact ih h
          next hc =>
            rw [if_neg hc]
            exact ih h
    | closing =>
      cases outer with
      | nil => cases h
      | cons level outer => exact ih h
    | unreadable => cases h

theorem ofText_ok_or_tooDeep {text : Text} (h : ofText limit text = .ok r) (limit' : Nat) :
    ofText limit' text = .ok r ∨ ofText limit' text = .error .tooDeep := by
  unfold ofText at h ⊢
  split at h
  · exact tree_ok_or_tooDeep h limit'
  · cases h

end Room

end EditorConfig.Regex
