import EditorConfig.Proofs.Glob.Anchor
import EditorConfig.Proofs.Glob.Term

/-! How a written glob is cut into pieces. Main statement: every part of a term gives the pieces
that are named for it, however deep choices are nested. -/
namespace EditorConfig.Glob

theorem clear_member {stops : Text} (hd : '-' ∉ stops) (member : Member) :
    Clear stops member.text := by
  cases member with
  | single c => exact .quoted c .nil
  | span first last _ => exact .quoted first (.bare hd (by decide) (.quoted last .nil))

/-- Braces and commas stand without a backslash only around the alternatives of a choice. -/
theorem clear_atom (a : Atom) : Clear "\x7b\x7d,".toList a.text := by
  have hb : ∀ {c : Char} {text : Text}, c ∈ "[!]*?/".toList → Clear "\x7b\x7d,".toList text →
      Clear "\x7b\x7d,".toList (c :: text) := by
    intro c text hc h
    refine .bare ?_ ?_ h
    · intro hm
      simp at hc hm
      grind
    · rintro rfl
      simp at hc
  cases a with
  | literal c => exact .quoted c .nil
  | anyChar | anyName | separator => exact hb (by simp) .nil
  | anyText => exact hb (by simp) (hb (by simp) .nil)
  | anyDirectories =>
    exact hb (by simp) (hb (by simp) (hb (by simp) (hb (by simp) .nil)))
  | oneOf negated first others =>
    rw [Atom.text]
    refine clear_append (clear_append (hb (by simp) ?_)
      (clear_flatMap fun member => clear_member (by simp) member)) (hb (by simp) .nil)
    cases negated with
    | true => exact hb (by simp) .nil
    | false => exact .nil

namespace Term

theorem intercalate_ofFn {n : Nat} (f : Fin (n + 2) → Text) :
    [','].intercalate (List.ofFn f) =
      f 0 ++ ',' :: [','].intercalate (List.ofFn fun i : Fin (n + 1) => f i.succ) := by
  rw [List.ofFn_succ, List.ofFn_succ, List.intercalate_cons_cons, List.append_assoc]
  rfl

/-- In front of a comma no brace closes a pair that has none. -/
theorem cut?_text (g : Term) (rest : Text) :
    cut? '\x7d' ',' false (g.text ++ ',' :: rest) = none := by
  induction g generalizing rest with
  | empty => rfl
  | atom a g ih =>
    rw [text, List.append_assoc, cut?_append (by simp) (by simp) (by simp) (clear_atom a), ih]
    rfl
  | choice n alternative g iha _ =>
    rw [text, intercalate_ofFn]
    simp [cut?, iha 0]

theorem cut?_alternatives {n : Nat} (alternative : Fin (n + 2) → Term) (rest : Text) :
    cut? '\x7d' ',' false ([','].intercalate (List.ofFn fun i => (alternative i).text) ++ rest) =
      none := by
  rw [intercalate_ofFn, List.append_assoc]
  exact cut?_text (alternative 0) _

def Balanced (text : Text) : Prop :=
  ∀ rest, countUnescaped '\x7b' false (text ++ rest) + countUnescaped '\x7d' false rest =
    countUnescaped '\x7d' false (text ++ rest) + countUnescaped '\x7b' false rest

theorem balanced_append {u v : Text} (hu : Balanced u) (hv : Balanced v) : Balanced (u ++ v) := by
  intro rest
  have h₁ := hu (v ++ rest)
  have h₂ := hv rest
  rw [List.append_assoc]
  omega

theorem balanced_of_clear {text : Text} (h : Clear "\x7b\x7d,".toList text) : Balanced text := by
  intro rest
  rw [countUnescaped_append (by simp) (by simp) h, countUnescaped_append (by simp) (by simp) h,
    Nat.add_comm]

theorem balanced_comma : Balanced [','] := fun rest => by
  simp [countUnescaped, Nat.add_comm]

theorem balanced_intercalate {texts : List Text} (h : ∀ t ∈ texts, Balanced t) :
    Balanced ([','].intercalate texts) := by
  induction texts with
  | nil => exact balanced_of_clear .nil
  | cons t texts ih =>
    have ht := h t List.mem_cons_self
    have hr := ih fun u hu => h u (List.mem_cons_of_mem t hu)
    cases texts with
    | nil =>
      rw [List.intercalate_singleton]
      exact ht
    | cons u texts =>
      rw [List.intercalate_cons_cons]
      exact balanced_append (balanced_append ht balanced_comma) hr

theorem balanced_text (g : Term) : Balanced g.text := by
  induction g with
  | empty => exact balanced_of_clear .nil
  | atom a g ih => exact balanced_append (balanced_of_clear (clear_atom a)) ih
  | choice n alternative g iha ihg =>
    have hi : Balanced ([','].intercalate (List.ofFn fun i => (alternative i).text)) := by
      refine balanced_intercalate fun t ht => ?_
      obtain ⟨i, rfl⟩ := List.mem_ofFn.1 ht
      exact iha i
    intro rest
    have h₁ := hi ('\x7d' :: (g.text ++ rest))
    have h₂ := ihg rest
    simp only [text, List.cons_append, List.append_assoc]
    simp [countUnescaped] at h₁ ⊢
    omega

end Term

def Closed (tail : Text) : Prop := ∀ c rest, tail = c :: rest → c = ',' ∨ c = '\x7d'

theorem closed_nil : Closed [] := fun _ _ h => nomatch h

theorem closed_cons {c : Char} (hc : c = ',' ∨ c = '\x7d') (rest : Text) : Closed (c :: rest) := by
  rintro _ _ ⟨⟩
  exact hc

def Member.pieces : Member → List Piece
  | .single c => [.quoted c]
  | .span first last _ => [.quoted first, .plain '-', .quoted last]

def Atom.pieces : Atom → List Piece
  | .literal c => [.quoted c]
  | .anyChar => [.anyChar]
  | .anyName => [.anyName]
  | .anyText => [.anyText]
  | .separator => [.bare '/']
  | .anyDirectories => [.anyDirectories]
  | .oneOf negated first others =>
    .openClass negated :: (first :: others).flatMap Member.pieces ++ [.bare ']']

def Term.pieces : Term → List Piece
  | .empty => []
  | .atom a rest => a.pieces ++ rest.pieces
  | .choice _ alternative rest =>
    .openChoice :: [.nextChoice].intercalate (List.ofFn fun i => (alternative i).pieces) ++
      .closeChoice :: rest.pieces

section
variable (depth : Nat)

theorem piecesFrom_member (member : Member) (more : Text) :
    piecesFrom true depth (member.text ++ more) =
      member.pieces ++ piecesFrom true depth more := by
  cases member with
  | single c => exact piecesFrom_quoted true depth c more
  | span first last _ =>
    simp only [Member.text, Member.pieces, List.cons_append, List.nil_append, piecesFrom_quoted,
      piecesFrom_plain (c := '-') (by decide) (by decide)]

theorem piecesFrom_members (members : List Member) (more : Text) :
    piecesFrom true depth (members.flatMap Member.text ++ more) =
      members.flatMap Member.pieces ++ piecesFrom true depth more := by
  induction members with
  | nil => rfl
  | cons member members ih =>
    rw [List.flatMap_cons, List.flatMap_cons, List.append_assoc, List.append_assoc,
      piecesFrom_member, ih]

theorem opensClass_members {lead : Text} (hl : Clear "]/".toList lead) (members : List Member)
    (more : Text) : opensClass (lead ++ (members.flatMap Member.text ++ ']' :: more)) = true := by
  rw [opensClass, ← List.append_assoc, cut?_append (by simp) (by simp) (by simp)
    (clear_append hl (clear_flatMap fun member => clear_member (by simp) member))]
  rfl

theorem piecesFrom_openClass (negated : Bool) (first : Member) (others : List Member)
    (more : Text) :
    piecesFrom true depth
        ('[' :: (if negated then ['!'] else []) ++
          ((first :: others).flatMap Member.text ++ ']' :: more)) =
      .openClass negated ::
        piecesFrom true depth ((first :: others).flatMap Member.text ++ ']' :: more) := by
  cases negated with
  | true =>
    have hl : Clear "]/".toList ['!'] := .bare (by simp) (by decide) .nil
    have ho := opensClass_members hl (first :: others) more
    rw [List.singleton_append] at ho
    rw [if_pos rfl, List.cons_append, List.singleton_append, piecesFrom]
    simp only [piecesAt, ho]
    rfl
  | false =>
    have ho := opensClass_members .nil (first :: others) more
    obtain ⟨c, text, ht⟩ : ∃ c text,
        (first :: others).flatMap Member.text ++ ']' :: more = '\\' :: c :: text := by
      cases first <;> exact ⟨_, _, rfl⟩
    rw [List.nil_append, ht] at ho
    rw [ht]
    simp only [Bool.false_eq_true, if_false, List.cons_append, List.nil_append]
    rw [piecesFrom]
    simp only [piecesAt, ho]
    rfl

theorem piecesFrom_anyName {more : Text} (hm : ∀ rest, more ≠ '*' :: rest) :
    piecesFrom true depth ('*' :: more) = .anyName :: piecesFrom true depth more := by
  rw [piecesFrom]
  simp [piecesAt]

theorem piecesFrom_openChoice {rest : Text} (h : cut? '\x7d' ',' false rest = none) :
    piecesFrom true depth ('\x7b' :: rest) =
      .openChoice :: piecesFrom true (depth + 1) rest := by
  rw [piecesFrom]
  split
  · split
    · next hc => simp [h] at hc
    · rfl
  · contradiction

theorem piecesFrom_nextChoice (rest : Text) :
    piecesFrom true (depth + 1) (',' :: rest) =
      .nextChoice :: piecesFrom true (depth + 1) (rest.dropWhile (· == ' ')) := by
  rw [piecesFrom]
  simp

theorem piecesFrom_closeChoice (rest : Text) :
    piecesFrom true (depth + 1) ('\x7d' :: rest) = .closeChoice :: piecesFrom true depth rest := by
  rw [piecesFrom]
  simp

end

namespace Term

/-- What a term begins with belongs to its first part, unless it is a brace or a comma. -/
theorem exists_atom {g : Term} {c : Char} {tail rest : Text} (ht : Closed tail)
    (hc : c ∉ ['\x7b', ',', '\x7d']) (h : g.text ++ tail = c :: rest) :
    ∃ a g', g = .atom a g' ∧ a.text.head? = some c := by
  cases g with
  | empty =>
    rcases ht c rest h with rfl | rfl
    · exact absurd hc (by decide)
    · exact absurd hc (by decide)
  | atom a g' =>
    have hh := congrArg List.head? h
    refine ⟨a, g', rfl, ?_⟩
    cases a <;> simpa [text, Atom.text] using hh
  | choice n alternative g' =>
    have hb : c = '\x7b' := (List.cons.inj h).1.symm
    exact absurd hc (by simp [hb])

theorem piecesFrom_atom (depth : Nat) {a : Atom} {g : Term} (hm : ¬ Merges a g)
    (hg : g.Separated) {tail : Text} (ht : Closed tail) :
    piecesFrom true depth (a.text ++ (g.text ++ tail)) =
      a.pieces ++ piecesFrom true depth (g.text ++ tail) := by
  cases a with
  | literal c => exact piecesFrom_quoted true depth c _
  | anyChar =>
    rw [Atom.text, List.cons_append, piecesFrom]
    simp [piecesAt, Atom.pieces]
  | anyName =>
    refine piecesFrom_anyName depth fun rest h => hm ?_
    obtain ⟨a, g', rfl, ha⟩ := exists_atom ht (by decide) h
    cases a <;> simp_all [Atom.text, Merges]
  | anyText =>
    rw [Atom.text, List.cons_append, piecesFrom]
    simp [piecesAt, Atom.pieces]
  | separator =>
    refine piecesFrom_separator true depth fun more h => hm ?_
    obtain ⟨a, g', rfl, ha⟩ := exists_atom ht (by decide) h
    cases a with
    | anyName =>
      obtain ⟨a', g'', rfl, ha'⟩ := exists_atom ht (by decide) (List.cons.inj h).2
      refine absurd ?_ hg.1
      cases a' <;> simp_all [Atom.text, Merges]
    | anyText =>
      obtain ⟨a', g'', rfl, ha'⟩ := exists_atom ht (by decide) (List.cons.inj (List.cons.inj h).2).2
      cases a' <;> simp_all [Atom.text, Merges]
    | _ => simp [Atom.text] at ha
  | anyDirectories =>
    rw [Atom.text, List.cons_append, piecesFrom]
    simp [piecesAt, Atom.pieces]
  | oneOf negated first others =>
    have hc : piecesFrom true depth (']' :: (g.text ++ tail)) =
        .bare ']' :: piecesFrom true depth (g.text ++ tail) := by
      rw [piecesFrom]
      simp [piecesAt]
    rw [Atom.text, List.append_assoc, List.append_assoc, List.singleton_append,
      piecesFrom_openClass, piecesFrom_members, hc, Atom.pieces]
    simp

/-- No alternative begins with a space, so none loses anything behind its comma. -/
theorem dropWhile_alternatives (g : Term) (gs : List Term) (more : Text) :
    (([','].intercalate ((g :: gs).map text)) ++ '\x7d' :: more).dropWhile (· == ' ') =
      [','].intercalate ((g :: gs).map text) ++ '\x7d' :: more := by
  obtain ⟨tail, ht, he⟩ : ∃ tail, Closed tail ∧
      [','].intercalate ((g :: gs).map text) ++ '\x7d' :: more = g.text ++ tail := by
    cases gs with
    | nil => exact ⟨_, closed_cons (.inr rfl) more, by simp⟩
    | cons g' gs => exact ⟨_, closed_cons (.inl rfl) _, by simp [List.intercalate_cons_cons]; rfl⟩
  rw [he]
  cases hg : g.text ++ tail with
  | nil => rfl
  | cons c rest =>
    refine List.dropWhile_cons_of_neg fun hc => ?_
    rw [beq_iff_eq.1 hc] at hg
    -- A space is quoted like every literal character.
    obtain ⟨a, g', -, ha⟩ := exists_atom ht (by decide) hg
    cases a <;> simp [Atom.text] at ha

/-- The alternatives of a choice, from one of them on to the brace that closes it. -/
theorem piecesFrom_alternatives (depth : Nat) (g : Term) (gs : List Term)
    (h : ∀ k ∈ g :: gs, ∀ tail, Closed tail → piecesFrom true (depth + 1) (k.text ++ tail) =
      k.pieces ++ piecesFrom true (depth + 1) tail) (more : Text) :
    piecesFrom true (depth + 1) ([','].intercalate ((g :: gs).map text) ++ '\x7d' :: more) =
      [.nextChoice].intercalate ((g :: gs).map pieces) ++
        .closeChoice :: piecesFrom true depth more := by
  induction gs generalizing g with
  | nil =>
    rw [List.map_singleton, List.map_singleton, List.intercalate_singleton,
      List.intercalate_singleton, h g List.mem_cons_self _ (closed_cons (.inr rfl) more),
      piecesFrom_closeChoice]
  | cons g' gs ih =>
    have hg := h g List.mem_cons_self _
      (closed_cons (.inl rfl) ([','].intercalate ((g' :: gs).map text) ++ '\x7d' :: more))
    rw [piecesFrom_nextChoice, dropWhile_alternatives,
      ih g' fun k hk => h k (List.mem_cons_of_mem g hk)] at hg
    simp only [List.map_cons, List.intercalate_cons_cons, List.append_assoc,
      List.singleton_append] at hg ⊢
    exact hg

/-- Every part of a term gives its own pieces, inside of any number of choices. -/
theorem piecesFrom_text {g : Term} (hg : g.Separated) (depth : Nat) {tail : Text}
    (ht : Closed tail) :
    piecesFrom true depth (g.text ++ tail) = g.pieces ++ piecesFrom true depth tail := by
  induction g generalizing depth tail with
  | empty => rfl
  | atom a g ih =>
    rw [text, List.append_assoc, piecesFrom_atom depth hg.1 hg.2 ht, ih hg.2 depth ht, pieces,
      List.append_assoc]
  | choice n alternative g iha ihg =>
    have hi : ∀ k ∈ List.ofFn alternative, ∀ tail, Closed tail →
        piecesFrom true (depth + 1) (k.text ++ tail) =
          k.pieces ++ piecesFrom true (depth + 1) tail := by
      intro k hk tail ht
      obtain ⟨i, rfl⟩ := List.mem_ofFn.1 hk
      exact iha i (hg.1 i) (depth + 1) ht
    rw [List.ofFn_succ] at hi
    have ha := piecesFrom_alternatives depth _ _ hi (g.text ++ tail)
    rw [← List.ofFn_succ, List.map_ofFn, List.map_ofFn] at ha
    have hc := cut?_alternatives alternative ('\x7d' :: (g.text ++ tail))
    simp only [Function.comp_def] at ha
    simp only [text, pieces, List.cons_append, List.append_assoc]
    rw [piecesFrom_openChoice depth hc, ha, ihg hg.2 depth ht]

theorem pieces_text {g : Term} (hg : g.Separated) : Glob.pieces g.text = g.pieces := by
  have hb := balanced_text g []
  have hp := piecesFrom_text hg 0 closed_nil
  rw [List.append_nil] at hb hp
  have he : countUnescaped '\x7b' false g.text = countUnescaped '\x7d' false g.text := by
    simpa [countUnescaped] using hb
  rw [Glob.pieces, he, beq_self_eq_true, hp, piecesFrom, List.append_nil]

end Term
end EditorConfig.Glob
