import EditorConfig.Proofs.Glob.Pieces

/-! The expression of a term. Main statement: the pieces of a term are read back as one sequence
of expressions, a choice as one of them, unless choices are nested deeper than groups may be. -/
namespace EditorConfig.Glob
open Regex (Mark Item Level Unrepeated members? charSet? items tree)
variable {limit : Nat}

def Member.item : Member → ClassItem
  | .single c => .one c
  | .span first last _ => .span first last

def Atom.items : Atom → List Item
  | .literal c => [.one (.exactly c)]
  | .anyChar => [.one .notNewline]
  | .anyName => [.many (.noneOf [.one '/'])]
  | .anyText => [.many .notNewline]
  | .separator => [.one (.exactly '/')]
  | .anyDirectories => Regex.directories
  | .oneOf negated first others =>
    let members := (first :: others).map Member.item
    [.one (if negated then .noneOf members else .oneOf members)]

def Atom.regex : Atom → Regex
  | .literal c => .one (.exactly c)
  | .anyChar => .one .notNewline
  | .anyName => .many (.noneOf [.one '/'])
  | .anyText => .many .notNewline
  | .separator => .one (.exactly '/')
  | .anyDirectories => .apart
  | .oneOf negated first others =>
    let members := (first :: others).map Member.item
    .one (if negated then .noneOf members else .oneOf members)

namespace Term

def items : Term → List Item
  | .empty => []
  | .atom a rest => a.items ++ rest.items
  | .choice _ alternative rest =>
    .opening false :: [.bar].intercalate (List.ofFn fun i => (alternative i).items) ++
      .closing :: rest.items

def onto : Term → Regex → Regex
  | .empty, r => r
  | .atom a rest, r => rest.onto (.seq r a.regex)
  | .choice _ alternative rest, r =>
    rest.onto (.seq r ((List.ofFn fun i => (alternative i.succ).onto .empty).foldl .either
      ((alternative 0).onto .empty)))

end Term

theorem quotedMark_ne_bare {c d : Char} (hd : isSpecial d = true) : quotedMark c ≠ .bare d := by
  intro h
  rw [quotedMark] at h
  cases hc : isSpecial c with
  | true => simp [hc] at h
  | false =>
    simp only [hc, Bool.false_eq_true, if_false] at h
    exact ne_of_not_isSpecial hc hd (Mark.bare.inj h)

/-- The marks of members and of the bracket behind them never begin with a hyphen. -/
theorem members_ne_hyphen (members : List Member) (marks rest : List Mark) :
    (members.flatMap Member.pieces).flatMap Piece.marks ++ .bare ']' :: marks ≠
      .bare '-' :: rest := by
  have hq : ∀ c, quotedMark c ≠ .bare '-' := fun _ => quotedMark_ne_bare (by decide)
  cases members with
  | nil => simp
  | cons member members => cases member <;> simp [Member.pieces, Piece.marks, hq]

theorem members?_cons (start : Bool) (member : Member) (marks : List Mark)
    (hm : ∀ rest, marks ≠ .bare '-' :: rest) :
    members? start (member.pieces.flatMap Piece.marks ++ marks) =
      (members? false marks).map fun read => (member.item :: read.1, read.2) := by
  have hb : ∀ c, quotedMark c ≠ .bare ']' := fun _ => quotedMark_ne_bare (by decide)
  cases member with
  | single c =>
    have he := Regex.members?.eq_5 start (quotedMark c) marks (fun _ => hm _) (fun _ _ => hm _)
      fun _ => hb c
    rw [char_quotedMark] at he
    exact he
  | span first last ordered =>
    have he := Regex.members?.eq_4 start (quotedMark first) (quotedMark last) marks (hb last)
      fun _ => hb first
    rw [char_quotedMark, char_quotedMark, if_pos ordered] at he
    exact he

theorem members?_members (members : List Member) (marks : List Mark) :
    members? false ((members.flatMap Member.pieces).flatMap Piece.marks ++ .bare ']' :: marks) =
      some (members.map Member.item, marks) := by
  induction members with
  | nil => rfl
  | cons member members ih =>
    rw [List.flatMap_cons, List.flatMap_append, List.append_assoc,
      members?_cons _ _ _ (members_ne_hyphen members marks), ih]
    rfl

theorem marks_oneOf (negated : Bool) (first : Member) (others : List Member)
    (marks : List Mark) :
    (Atom.oneOf negated first others).pieces.flatMap Piece.marks ++ marks =
      (Piece.openClass negated).marks ++
        (((first :: others).flatMap Member.pieces).flatMap Piece.marks ++ .bare ']' :: marks) := by
  rw [Atom.pieces, List.flatMap_append, List.flatMap_cons, List.append_assoc, List.append_assoc]
  rfl

theorem items_oneOf (negated : Bool) (first : Member) (others : List Member)
    {marks : List Mark} (hr : Unrepeated marks) :
    Regex.items ((Atom.oneOf negated first others).pieces.flatMap Piece.marks ++ marks) =
      (Atom.oneOf negated first others).items ++ Regex.items marks := by
  have hm : members? true (((first :: others).flatMap Member.pieces).flatMap Piece.marks ++
      .bare ']' :: marks) = some ((first :: others).map Member.item, marks) := by
    rw [List.flatMap_cons, List.flatMap_append, List.append_assoc,
      members?_cons _ _ _ (members_ne_hyphen others marks), members?_members]
    rfl
  rw [marks_oneOf]
  cases negated with
  | true =>
    have hc := congrArg (Option.map fun read => (CharSet.noneOf read.1, read.2)) hm
    exact Regex.items_one hc (by simp) hr
  | false =>
    have hc := congrArg (Option.map fun read => (CharSet.oneOf read.1, read.2)) hm
    refine Regex.items_one ((Regex.charSet?.eq_2 _ fun rest h => ?_).trans hc) (by simp) hr
    cases first <;> exact quotedMark_ne_bare (by decide) (List.cons.inj h).1

theorem items_atom (a : Atom) {marks : List Mark} (hr : Unrepeated marks) :
    Regex.items (a.pieces.flatMap Piece.marks ++ marks) = a.items ++ Regex.items marks := by
  cases a with
  | literal c =>
    have hi := Regex.items_literal (literal_quotedMark c) hr
    rw [char_quotedMark] at hi
    exact hi
  | anyChar => exact Regex.items_one rfl (by simp) hr
  | anyName => exact Regex.items_anyName marks
  | anyText => exact Regex.items_anyText marks
  | separator => exact Regex.items_separator hr
  | anyDirectories => exact Regex.items_directories marks
  | oneOf negated first others => exact items_oneOf negated first others hr

namespace Term

theorem readable_pieces {g : Term} (hg : g.Separated) : ∀ p ∈ g.pieces, p.Readable := by
  rw [← pieces_text hg]
  exact readable_piecesFrom _ 0 _

theorem items_alternatives (g : Term) (gs : List Term)
    (h : ∀ k ∈ g :: gs, ∀ marks, Unrepeated marks →
      Regex.items (k.pieces.flatMap Piece.marks ++ marks) = k.items ++ Regex.items marks)
    (marks : List Mark) :
    Regex.items (([.nextChoice].intercalate ((g :: gs).map pieces)).flatMap Piece.marks ++
        .bare ')' :: marks) =
      [.bar].intercalate ((g :: gs).map items) ++ .closing :: Regex.items marks := by
  induction gs generalizing g with
  | nil =>
    rw [List.map_singleton, List.map_singleton, List.intercalate_singleton,
      List.intercalate_singleton, h g List.mem_cons_self _
        (Regex.unrepeated_cons marks (by simp) (by simp)), Regex.items.eq_5]
  | cons g' gs ih =>
    have hg := h g List.mem_cons_self
      (.bare '|' :: (([.nextChoice].intercalate ((g' :: gs).map pieces)).flatMap Piece.marks ++
        .bare ')' :: marks)) (Regex.unrepeated_cons _ (by simp) (by simp))
    rw [Regex.items.eq_4, ih g' fun k hk => h k (List.mem_cons_of_mem g hk)] at hg
    simp only [List.map_cons, List.intercalate_cons_cons, List.flatMap_append, List.append_assoc,
      List.singleton_append] at hg ⊢
    exact hg

theorem items_pieces {g : Term} (hg : g.Separated) {marks : List Mark} (hr : Unrepeated marks) :
    Regex.items (g.pieces.flatMap Piece.marks ++ marks) = g.items ++ Regex.items marks := by
  induction g generalizing marks with
  | empty => rfl
  | atom a g ih =>
    rw [pieces, List.flatMap_append, List.append_assoc,
      items_atom a (unrepeated_flatMap_marks (readable_pieces hg.2) hr), ih hg.2 hr, items,
      List.append_assoc]
  | choice n alternative g iha ihg =>
    have hi : ∀ k ∈ List.ofFn alternative, ∀ marks, Unrepeated marks →
        Regex.items (k.pieces.flatMap Piece.marks ++ marks) = k.items ++ Regex.items marks := by
      intro k hk marks hr
      obtain ⟨i, rfl⟩ := List.mem_ofFn.1 hk
      exact iha i (hg.1 i) hr
    rw [List.ofFn_succ] at hi
    have ha := items_alternatives _ _ hi (g.pieces.flatMap Piece.marks ++ marks)
    rw [← List.ofFn_succ, List.map_ofFn, List.map_ofFn, ihg hg.2 hr] at ha
    have ho := Regex.items.eq_2 (([.nextChoice].intercalate
      (List.ofFn fun i => (alternative i).pieces)).flatMap Piece.marks ++
        .bare ')' :: (g.pieces.flatMap Piece.marks ++ marks))
    simp only [Function.comp_def] at ha
    rw [ha] at ho
    simp only [pieces, items, List.flatMap_cons, List.flatMap_append, List.cons_append,
      List.append_assoc] at ho ⊢
    exact ho

end Term

theorem tree_atom (a : Atom) {outer : List Level} (ho : 2 * outer.length ≤ limit)
    (current : Level) (next : Nat) (more : List Item) :
    tree limit outer current next (a.items ++ more) =
      if 2 * outer.length + a.calls ≤ limit then
        tree limit outer (current.push a.regex) next more
      else .error .tooDeep := by
  cases a with
  | anyDirectories =>
    rw [Atom.items, Atom.calls, Regex.tree_directories]
    by_cases hd : limit < 2 * outer.length + 3
    · rw [if_pos hd, if_neg (by omega)]
    · rw [if_neg hd, if_pos (by omega)]
      rfl
  | anyName | anyText =>
    rw [Atom.items, Atom.calls, List.singleton_append, tree]
    by_cases hd : limit < 2 * outer.length + 1
    · rw [if_pos hd, if_neg (by omega)]
    · rw [if_neg hd, if_pos (by omega)]
      rfl
  | literal | anyChar | separator | oneOf =>
    rw [Atom.calls, Nat.add_zero, if_pos ho]
    rfl

namespace Term

/-- The alternatives of a choice, from one of them on to the end of their group, behind the
branches that stand before them. -/
theorem tree_alternatives {level : Level} {outer : List Level} (g : Term) (gs : List Term)
    (h : ∀ k ∈ g :: gs, ∀ current next more,
      tree limit (level :: outer) current next (k.items ++ more) =
        if 2 * outer.length + 2 + k.calls ≤ limit then
          tree limit (level :: outer) { current with sequence := k.onto current.sequence } next more
        else .error .tooDeep)
    (branches : Option Regex) (next : Nat) (more : List Item) :
    tree limit (level :: outer) ⟨none, branches, .empty⟩ next
        ([.bar].intercalate ((g :: gs).map items) ++ .closing :: more) =
      if ∀ k ∈ g :: gs, 2 * outer.length + 2 + k.calls ≤ limit then
        tree limit outer (level.push ((gs.map fun k => k.onto .empty).foldl .either
          (Level.choice ⟨none, branches, g.onto .empty⟩))) next more
      else .error .tooDeep := by
  induction gs generalizing g branches with
  | nil =>
    simp only [List.map_cons, List.map_nil, List.intercalate_singleton,
      h g List.mem_cons_self, List.mem_singleton, forall_eq]
    split <;> rfl
  | cons g' gs ih =>
    have ih' := ih g' (fun k hk => h k (List.mem_cons_of_mem g hk))
      (some (Level.choice ⟨none, branches, g.onto .empty⟩))
    rw [List.map_cons] at ih'
    simp only [List.map_cons, List.intercalate_cons_cons, List.append_assoc,
      List.singleton_append, h g List.mem_cons_self, List.forall_mem_cons (a := g)]
    by_cases hd : 2 * outer.length + 2 + g.calls ≤ limit
    · simp only [hd, if_true, true_and]
      exact ih'
    · simp only [hd, if_false, false_and]

theorem foldr_max_le_iff (bound : Nat) (ns : List Nat) :
    ns.foldr max 0 ≤ bound ↔ ∀ n ∈ ns, n ≤ bound := by
  induction ns with
  | nil => simp
  | cons n ns ih =>
    rw [List.foldr_cons, List.forall_mem_cons, ← ih]
    omega

theorem calls_le_iff {n : Nat} (alternative : Fin (n + 2) → Term) (g : Term) (taken : Nat) :
    taken + (choice n alternative g).calls ≤ limit ↔
      ¬ limit < taken + 2 ∧ (∀ k ∈ List.ofFn alternative, taken + 2 + k.calls ≤ limit) ∧
        taken + g.calls ≤ limit := by
  have hs : ∀ bound, (List.ofFn fun i => (alternative i).calls).foldr max 0 ≤ bound ↔
      ∀ k ∈ List.ofFn alternative, k.calls ≤ bound := by
    intro bound
    rw [foldr_max_le_iff]
    simp
  have hb := hs (limit - taken - 2)
  rw [calls]
  constructor
  · intro h
    have ha := hb.1 (by omega)
    exact ⟨by omega, fun k hk => by have := ha k hk; omega, by omega⟩
  · rintro ⟨ho, ha, hg⟩
    have hk := hb.2 fun k hk => by have := ha k hk; omega
    omega

/-- A term is read onto the sequence that is there, inside of any groups. -/
theorem tree_items (g : Term) {outer : List Level} (ho : 2 * outer.length ≤ limit)
    (current : Level) (next : Nat) (more : List Item) :
    tree limit outer current next (g.items ++ more) =
      if 2 * outer.length + g.calls ≤ limit then
        tree limit outer { current with sequence := g.onto current.sequence } next more
      else .error .tooDeep := by
  induction g generalizing outer current next more with
  | empty =>
    rw [calls, Nat.add_zero, if_pos ho]
    rfl
  | atom a g ih =>
    rw [items, List.append_assoc, tree_atom a ho, ih ho]
    by_cases ha : 2 * outer.length + a.calls ≤ limit
    · by_cases hg : 2 * outer.length + g.calls ≤ limit
      · rw [if_pos ha, if_pos hg, if_pos (by rw [calls]; omega)]
        rfl
      · rw [if_pos ha, if_neg hg, if_neg (by rw [calls]; omega)]
    · rw [if_neg ha, if_neg (by rw [calls]; omega)]
  | choice n alternative g iha ihg =>
    rw [items, List.cons_append, List.cons_append, List.append_assoc, List.cons_append, tree]
    by_cases hd : limit < 2 * outer.length + 2
    · rw [if_pos hd, if_neg fun h => ((calls_le_iff alternative g _).1 h).1 hd]
    · have hl : 2 * (current :: outer).length = 2 * outer.length + 2 := by
        rw [List.length_cons, Nat.mul_add]
      have hi : ∀ k ∈ List.ofFn alternative, ∀ current' next more,
          tree limit (current :: outer) current' next (k.items ++ more) =
            if 2 * outer.length + 2 + k.calls ≤ limit then
              tree limit (current :: outer)
                { current' with sequence := k.onto current'.sequence } next more
            else .error .tooDeep := by
        intro k hk current' next more
        obtain ⟨i, rfl⟩ := List.mem_ofFn.1 hk
        rw [← hl]
        exact iha i (by omega) current' next more
      rw [List.ofFn_succ] at hi
      have ha := tree_alternatives _ _ hi none next (g.items ++ more)
      rw [← List.ofFn_succ (f := alternative), List.map_ofFn, List.map_ofFn] at ha
      rw [if_neg hd, if_neg (by simp)]
      simp only [Function.comp_def] at ha
      rw [Level.start, ha, ihg ho]
      by_cases hk : ∀ k ∈ List.ofFn alternative, 2 * outer.length + 2 + k.calls ≤ limit
      · by_cases hg : 2 * outer.length + g.calls ≤ limit
        · rw [if_pos hk, if_pos hg, if_pos ((calls_le_iff alternative g _).2 ⟨hd, hk, hg⟩)]
          rfl
        · rw [if_pos hk, if_neg hg, if_neg fun h => hg ((calls_le_iff alternative g _).1 h).2.2]
      · rw [if_neg hk, if_neg fun h => hk ((calls_le_iff alternative g _).1 h).2.1]

end Term
end EditorConfig.Glob
