import EditorConfig.Proofs.Glob.Tree

/-! Which paths a term accepts. Main statement: the expression of a term matches a path without
newlines exactly if the path is a word of the term's language. -/
namespace EditorConfig.Glob
variable {limit : Nat}

def Agree (a b : Language Char) : Prop := ∀ p, '\n' ∉ p → (p ∈ a ↔ p ∈ b)

namespace Agree
variable {a b c d : Language Char}

theorem refl (a : Language Char) : Agree a a := fun _ _ => Iff.rfl

theorem trans (h₁ : Agree a b) (h₂ : Agree b c) : Agree a c :=
  fun p hp => (h₁ p hp).trans (h₂ p hp)

theorem mul (h₁ : Agree a b) (h₂ : Agree c d) : Agree (a * c) (b * d) := by
  intro p hp
  rw [Language.mem_mul, Language.mem_mul]
  constructor
  · rintro ⟨u, hu, v, hv, rfl⟩
    rw [List.mem_append, not_or] at hp
    exact ⟨u, (h₁ u hp.1).1 hu, v, (h₂ v hp.2).1 hv, rfl⟩
  · rintro ⟨u, hu, v, hv, rfl⟩
    rw [List.mem_append, not_or] at hp
    exact ⟨u, (h₁ u hp.1).2 hu, v, (h₂ v hp.2).2 hv, rfl⟩

theorem anyOf {ι : Type} {f g : ι → Language Char} (h : ∀ i, Agree (f i) (g i)) :
    Agree (Term.anyOf f) (Term.anyOf g) :=
  fun p hp => exists_congr fun i => h i p hp

end Agree

theorem Member.has_item (member : Member) (c : Char) :
    member.item.has c = true ↔ member.Has c := by
  cases member with
  | single d => simp [Member.item, ClassItem.has, Member.Has]
  | span first last _ => simp [Member.item, ClassItem.has, Member.Has]

theorem Member.any_item (members : List Member) (c : Char) :
    (members.map Member.item).any (·.has c) = true ↔ ∃ member ∈ members, member.Has c := by
  simp only [List.any_map, List.any_eq_true, Function.comp_apply, Member.has_item]

theorem mem_words_notNewline {p : Text} (hp : '\n' ∉ p) :
    p ∈ (CharSet.notNewline).words ↔ ∃ c, p = [c] := by
  rw [CharSet.mem_words]
  constructor
  · rintro ⟨c, rfl, -⟩
    exact ⟨c, rfl⟩
  · rintro ⟨c, rfl⟩
    have hc : c ≠ '\n' := fun h => hp (by simp [h])
    exact ⟨c, rfl, by simpa [CharSet.has] using hc⟩

theorem mem_many_notNewline {p : Text} (hp : '\n' ∉ p) :
    p ∈ (Regex.many .notNewline).language := by
  intro c hc
  have hn : c ≠ '\n' := fun h => hp (h ▸ hc)
  simpa [CharSet.has] using hn

theorem mem_words_exactly {c : Char} {p : Text} : p ∈ (CharSet.exactly c).words ↔ p = [c] := by
  rw [CharSet.mem_words]
  constructor
  · rintro ⟨d, rfl, hd⟩
    simpa [CharSet.has] using hd
  · rintro rfl
    exact ⟨c, rfl, by simp [CharSet.has]⟩

theorem mem_language_directories {p : Text} (hp : '\n' ∉ p) :
    p ∈ Atom.anyDirectories.regex.language ↔ p ∈ Atom.anyDirectories.language := by
  have hs : ∀ q : Text, q ∈ (Regex.one (.exactly '/')).language ↔ q = ['/'] :=
    fun q => mem_words_exactly
  have hl : p ∈ Atom.anyDirectories.language ↔ p = ['/'] ∨ ∃ s, p = '/' :: s ++ ['/'] := Iff.rfl
  simp only [Atom.regex, Regex.apart, Regex.language, Language.mem_add, one_mul,
    Language.mem_mul] at hs ⊢
  rw [hl, hs]
  refine or_congr_right ⟨?_, ?_⟩
  · intro h
    obtain ⟨_, ⟨u, hu, s, -, rfl⟩, v, hv, rfl⟩ := h
    rw [(hs u).1 hu, (hs v).1 hv]
    exact ⟨s, rfl⟩
  · intro h
    obtain ⟨s, rfl⟩ := h
    have hn : '\n' ∉ s := fun h => hp (by simp [h])
    exact ⟨'/' :: s, ⟨['/'], (hs _).2 rfl, s, mem_many_notNewline hn, rfl⟩, ['/'],
      (hs _).2 rfl, rfl⟩

theorem mem_words_oneOf (negated : Bool) (first : Member) (others : List Member) {p : Text} :
    p ∈ (Atom.oneOf negated first others).regex.language ↔
      p ∈ (Atom.oneOf negated first others).language := by
  have hi := Member.any_item (first :: others)
  have hl : p ∈ (Atom.oneOf negated first others).language ↔
    ∃ c, p = [c] ∧ (negated = true ↔ ¬ ∃ member ∈ first :: others, member.Has c) := Iff.rfl
  rw [Atom.regex, Regex.language, CharSet.mem_words, hl]
  refine exists_congr fun c => and_congr_right fun _ => ?_
  rw [← hi]
  generalize hb : ((first :: others).map Member.item).any (·.has c) = b
  cases negated with
  | true => simp only [if_true, CharSet.has, hb, true_iff, Bool.not_eq_true', Bool.not_eq_true]
  | false => simp only [Bool.false_eq_true, if_false, CharSet.has, hb, false_iff, not_not]

theorem mem_many_noneOf {p : Text} :
    p ∈ (Regex.many (.noneOf [.one '/'])).language ↔ '/' ∉ p := by
  rw [Regex.mem_language_many]
  constructor
  · intro h hc
    simpa [CharSet.has, ClassItem.has] using h '/' hc
  · intro h c hc
    have hn : c ≠ '/' := fun he => h (he ▸ hc)
    simpa [CharSet.has, ClassItem.has] using hn

theorem agree_atom (a : Atom) : Agree a.regex.language a.language := by
  intro p hp
  cases a with
  | literal c => exact mem_words_exactly
  | anyChar => exact mem_words_notNewline hp
  | anyName => exact mem_many_noneOf
  | anyText => exact iff_of_true (mem_many_notNewline hp) trivial
  | separator => exact mem_words_exactly
  | anyDirectories => exact mem_language_directories hp
  | oneOf negated first others => exact mem_words_oneOf negated first others

namespace Term

theorem mem_language_either (rs : List Regex) (r : Regex) (p : Text) :
    p ∈ (rs.foldl .either r).language ↔ ∃ s ∈ r :: rs, p ∈ s.language := by
  induction rs generalizing r with
  | nil => simp
  | cons s rs ih =>
    rw [List.foldl_cons, ih]
    simp only [List.exists_mem_cons_iff, Regex.language, Language.mem_add, or_assoc]

theorem language_alternatives {n : Nat} (f : Fin (n + 2) → Regex) :
    ((List.ofFn fun i => f i.succ).foldl .either (f 0)).language =
      anyOf fun i => (f i).language := by
  ext p
  have he := List.ofFn_succ (f := f)
  rw [mem_language_either, ← he]
  simp only [List.mem_ofFn, exists_exists_eq_and]
  exact Iff.rfl

/-- Reading a term onto a sequence multiplies the language of the sequence by the term's. -/
theorem agree_onto (g : Term) (r : Regex) :
    Agree (g.onto r).language (r.language * g.language) := by
  induction g generalizing r with
  | empty =>
    rw [onto, language, mul_one]
    exact Agree.refl _
  | atom a g ih =>
    have ha := ((Agree.refl r.language).mul (agree_atom a)).mul (Agree.refl g.language)
    rw [onto, language, ← mul_assoc]
    exact (ih _).trans ha
  | choice n alternative g iha ihg =>
    have hc : Agree
        ((List.ofFn fun i => (alternative i.succ).onto .empty).foldl .either
          ((alternative 0).onto .empty)).language
        (anyOf fun i => (alternative i).language) := by
      rw [language_alternatives fun i => (alternative i).onto .empty]
      refine Agree.anyOf fun i => ?_
      have hi := iha i .empty
      rwa [Regex.language, one_mul] at hi
    have hm := ((Agree.refl r.language).mul hc).mul (Agree.refl g.language)
    rw [onto, language, ← mul_assoc]
    exact (ihg _).trans hm

theorem bounds?_atom (a : Atom) : a.pieces.filterMap Piece.bounds? = [] := by
  have hm : ∀ members : List Member,
      (members.flatMap Member.pieces).filterMap Piece.bounds? = [] := by
    intro members
    induction members with
    | nil => rfl
    | cons member members ih =>
      rw [List.flatMap_cons, List.filterMap_append, ih]
      cases member <;> rfl
  cases a with
  | oneOf negated first others =>
    rw [Atom.pieces, List.filterMap_append, List.filterMap_cons_none rfl, hm]
    rfl
  | _ => rfl

theorem bounds?_intercalate {pieces : List (List Piece)}
    (h : ∀ ps ∈ pieces, ps.filterMap Piece.bounds? = []) :
    ([.nextChoice].intercalate pieces).filterMap Piece.bounds? = [] := by
  induction pieces with
  | nil => rfl
  | cons ps pieces ih =>
    have hp := h ps List.mem_cons_self
    have hr := ih fun qs hq => h qs (List.mem_cons_of_mem ps hq)
    cases pieces with
    | nil => rwa [List.intercalate_singleton]
    | cons qs pieces =>
      rw [List.intercalate_cons_cons, List.filterMap_append, List.filterMap_append, hp, hr]
      rfl

/-- No part of a term is a numeric range, so no brace that stands bare opens one. -/
theorem bounds?_pieces (g : Term) : g.pieces.filterMap Piece.bounds? = [] := by
  induction g with
  | empty => rfl
  | atom a g ih => rw [pieces, List.filterMap_append, bounds?_atom, ih, List.append_nil]
  | choice n alternative g iha ihg =>
    have hi : ∀ ps ∈ List.ofFn fun i => (alternative i).pieces,
        ps.filterMap Piece.bounds? = [] := by
      intro ps hp
      obtain ⟨i, rfl⟩ := List.mem_ofFn.1 hp
      exact iha i
    rw [pieces, List.filterMap_append, List.filterMap_cons_none rfl,
      List.filterMap_cons_none rfl, bounds?_intercalate hi, ihg]
    rfl

theorem expression_eq {g : Term} (hg : g.Separated) :
    Glob.expression g.text = .ok ⟨g.pieces.flatMap Piece.text, []⟩ := by
  rw [Glob.expression, pieces_text hg, bounds?_pieces]
  rfl

theorem ofText_pieces {g : Term} (hg : g.Separated) :
    Regex.ofText limit (g.pieces.flatMap Piece.text) =
      if g.calls ≤ limit then .ok (g.onto .empty) else .error .tooDeep := by
  have hi := items_pieces hg Regex.unrepeated_nil
  rw [List.append_nil, Regex.items, List.append_nil] at hi
  have ht := @tree_items limit g [] (Nat.zero_le _) (Regex.Level.start none) 0 []
  rw [List.append_nil, List.length_nil, Nat.zero_add] at ht
  rw [ofText_flatMap_text (readable_pieces hg), hi, ht]
  rfl

/-- The expression of a term has no ranges. It can be read if there is room for the groups and
repetitions in it, and then it matches the words of the term's language. -/
theorem matches_iff_mem_language {g : Term} (hg : g.Separated) :
    ∃ text, Glob.expression g.text = .ok ⟨text, []⟩ ∧
      (limit < g.calls → Regex.ofText limit text = .error .tooDeep) ∧
      (g.calls ≤ limit → ∃ r, Regex.ofText limit text = .ok r ∧
        ∀ p, '\n' ∉ p → ((r.fullMatch? p).isSome ↔ p ∈ g.language)) := by
  refine ⟨_, expression_eq hg, ?_, ?_⟩
  · intro hd
    rw [ofText_pieces hg, if_neg (by omega)]
  · intro hd
    refine ⟨g.onto .empty, ?_, ?_⟩
    · rw [ofText_pieces hg, if_pos hd]
    · intro p hp
      have ha := agree_onto g .empty p hp
      rw [Regex.language, one_mul] at ha
      rw [Regex.fullMatch?_isSome, ha]

def nested : Nat → Term
  | 0 => .empty
  | n + 1 => .choice 0 (fun i => if i = 0 then nested n else .empty) .empty

theorem separated_nested (n : Nat) : (nested n).Separated := by
  induction n with
  | zero => trivial
  | succ n ih =>
    refine ⟨fun i => ?_, trivial⟩
    by_cases hi : i = 0
    · simpa only [if_pos hi] using ih
    · simp only [if_neg hi, Separated]

theorem calls_nested (n : Nat) : (nested n).calls = 2 * n := by
  induction n with
  | zero => rfl
  | succ n ih =>
    rw [nested, calls]
    simp [ih, calls]
    omega

theorem text_nested (n : Nat) :
    (nested (n + 1)).text = '\x7b' :: (nested n).text ++ [',', '\x7d'] := by
  rw [nested, text, intercalate_ofFn]
  simp [text]

theorem mem_text_nested {n : Nat} {c : Char} (h : c ∈ (nested n).text) :
    c ∈ "\x7b,\x7d".toList := by
  induction n with
  | zero => cases h
  | succ n ih =>
    rw [text_nested] at h
    simp only [List.cons_append, List.mem_cons, List.mem_append, List.not_mem_nil, or_false] at h
    rcases h with rfl | h | rfl | rfl
    · decide
    · exact ih h
    · decide
    · decide

theorem matches_two_nested :
    (nested 2).Separated ∧ ∃ text, Glob.expression (nested 2).text = .ok ⟨text, []⟩ ∧
      Regex.ofText 3 text = .error .tooDeep ∧ ∃ r, Regex.ofText 4 text = .ok r ∧
        ∀ p, '\n' ∉ p → ((r.fullMatch? p).isSome ↔ p ∈ (nested 2).language) := by
  have hs := separated_nested 2
  have hd := calls_nested 2
  obtain ⟨text, he, hf, -⟩ := @matches_iff_mem_language 3 _ hs
  obtain ⟨text', he', -, hr⟩ := @matches_iff_mem_language 4 _ hs
  rw [he] at he'
  cases he'
  exact ⟨hs, text, he, hf (by omega), hr (by omega)⟩

/-- For a thousand choices inside of one another there is no expression, if there is not room for
as many calls. -/
theorem not_every_term_compiles :
    (nested 1000).Separated ∧ ¬ ∃ limit, limit < 1000 ∧ ∃ text r,
      Glob.expression (nested 1000).text = .ok ⟨text, []⟩ ∧ Regex.ofText limit text = .ok r := by
  have hs := separated_nested 1000
  refine ⟨hs, ?_⟩
  intro h
  obtain ⟨limit, hl, text, r, he, hr⟩ := h
  rw [expression_eq hs] at he
  cases he
  rw [ofText_pieces hs, calls_nested, if_neg (by omega)] at hr
  cases hr

end Term
end EditorConfig.Glob
