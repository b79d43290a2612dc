import EditorConfig.Proofs.Glob.Relocated

/-! Headers that name a file at any depth. Main statement: directories between the directory of
the header and the file make no difference, because nothing in such a header takes a separator,
so it can only be matched behind the last one. -/
namespace EditorConfig
variable {limit : Nat}

namespace Regex
variable {α : Type} {c : Char}

def Avoids (c : Char) : Regex → Prop
  | .empty => True
  | .one set | .many set => set.has c = false
  | .seq a b | .either a b => a.Avoids c ∧ b.Avoids c
  | .group _ body => body.Avoids c

theorem notMem_of_avoids {r : Regex} (h : r.Avoids c) {text : Text} (ht : text ∈ r.language) :
    c ∉ text := by
  induction r generalizing text with
  | empty =>
    rw [language, Language.mem_one] at ht
    subst ht
    exact List.not_mem_nil
  | one set =>
    obtain ⟨d, rfl, hd⟩ := ht
    have hn : set.has c = false := h
    intro hc
    rw [List.mem_singleton.1 hc, hd] at hn
    cases hn
  | many set =>
    have hn : set.has c = false := h
    intro hc
    rw [ht c hc] at hn
    cases hn
  | seq a b iha ihb =>
    obtain ⟨u, hu, v, hv, rfl⟩ := Language.mem_mul.1 ht
    rw [List.mem_append, not_or]
    exact ⟨iha h.1 hu, ihb h.2 hv⟩
  | either a b iha ihb =>
    cases (Language.mem_add _ _ _).1 ht with
    | inl ht => exact iha h.1 ht
    | inr ht => exact ihb h.2 ht
  | group index body ih => exact ih h ht

/-- An expression that avoids a character matches no text that has it, whatever the groups hold. -/
theorem search_end_eq_none {r : Regex} (h : r.Avoids c) {text : Text} (hc : c ∈ text)
    (caps : Captures) :
    (r.search text caps fun rest caps => if rest.isEmpty then some caps else none) = none := by
  rw [search_eq, List.findSome?_eq_none_iff]
  intro way hw
  obtain ⟨rest, caps'⟩ := way
  cases rest with
  | nil =>
    obtain ⟨taken, ht, he⟩ := exists_mem_ways.1 ⟨caps', hw⟩
    rw [List.append_nil] at he
    exact absurd (he ▸ hc) (notMem_of_avoids h ht)
  | cons d rest => rfl

def Item.Avoids (c : Char) : Item → Prop
  | .one set | .many set => set.has c = false
  | _ => True

structure Level.Avoids (c : Char) (level : Level) : Prop where
  branches : ∀ r ∈ level.branches, r.Avoids c
  sequence : level.sequence.Avoids c

namespace Level
variable {level : Level}

theorem Avoids.start (capture : Option Nat) : (start capture).Avoids c :=
  ⟨nofun, trivial⟩

theorem Avoids.push (h : level.Avoids c) {r : Regex} (hr : r.Avoids c) : (level.push r).Avoids c :=
  ⟨h.branches, h.sequence, hr⟩

theorem Avoids.choice (h : level.Avoids c) : level.choice.Avoids c := by
  obtain ⟨capture, branches, sequence⟩ := level
  cases branches with
  | none => exact h.sequence
  | some r => exact ⟨h.branches r rfl, h.sequence⟩

theorem Avoids.bar (h : level.Avoids c) : level.bar.Avoids c := by
  refine ⟨fun r hr => ?_, trivial⟩
  cases hr
  exact h.choice

theorem Avoids.close (h : level.Avoids c) : level.close.Avoids c := by
  rw [Level.close]
  split
  · exact h.choice
  · exact h.choice

end Level

theorem avoids_of_tree {outer : List Level} {current : Level} {next : Nat} {items : List Item}
    {r : Regex} (h : tree limit outer current next items = .ok r)
    (ho : ∀ level ∈ outer, level.Avoids c)
    (hc : current.Avoids c) (hi : ∀ item ∈ items, item.Avoids c) : r.Avoids c := by
  induction items generalizing outer current next with
  | nil =>
    cases outer with
    | nil =>
      cases h
      exact hc.close
    | cons level outer => cases h
  | cons item items ih =>
    rw [List.forall_mem_cons] at hi
    cases item with
    | one set => exact ih h ho (hc.push hi.1) hi.2
    | many set => exact ih (tree_of_many h) ho (hc.push hi.1) hi.2
    | bar => exact ih h ho hc.bar hi.2
    | opening capturing =>
      have hb : ∀ level ∈ current :: outer, level.Avoids c := List.forall_mem_cons.2 ⟨hc, ho⟩
      obtain ⟨capture, next', h⟩ := tree_of_opening h
      exact ih h hb (.start _) hi.2
    | closing =>
      cases outer with
      | nil => cases h
      | cons level outer =>
        rw [List.forall_mem_cons] at ho
        exact ih h ho.2 (ho.1.push hc.close) hi.2
    | unreadable => cases h

theorem searchMany_eq_none {set : CharSet} {next : Text → Option α} {text : Text}
    (h : ∀ rest, rest <:+ text → next rest = none) : searchMany set next text = none := by
  rw [searchMany_eq, List.findSome?_eq_none_iff]
  intro rest hr
  obtain ⟨taken, -, he⟩ := mem_rests.1 hr
  exact h rest ⟨taken, he⟩

def separated : Regex := .seq .empty apart

/-- What stands behind any directories is read by itself. -/
theorem tree_separated {items : List Item} {r : Regex}
    (h : tree limit [] (Level.start none) 0 (directories ++ items) = .ok r) :
    ∃ r', tree limit [] (Level.start none) 0 items = .ok r' ∧ r = leading separated r' := by
  have hl : (Level.start none).push apart = (Level.start none).leading separated := rfl
  rw [tree_directories, hl, tree_leading _ _ Level.IsBase.start] at h
  split at h
  · cases h
  · cases ht : tree limit [] (Level.start none) 0 items with
    | error flaw =>
      rw [ht] at h
      cases h
    | ok r' =>
      rw [ht] at h
      cases h
      exact ⟨r', rfl, rfl⟩

theorem search_separated (text : Text) (caps : Captures) (next : Text → Captures → Option α) :
    separated.search ('/' :: text) caps next =
      (next text caps).or
        (searchMany .notNewline ((one (.exactly '/')).search · caps next) text) := by
  simp [separated, apart, search, CharSet.has]

/-- In a name there is no separator behind which to go on. -/
theorem searchMany_separator_name {name : Text} (hs : '/' ∉ name) (caps : Captures)
    (next : Text → Captures → Option α) :
    searchMany .notNewline ((one (.exactly '/')).search · caps next) name = none := by
  refine searchMany_eq_none fun rest hr => ?_
  cases rest with
  | nil => rfl
  | cons c rest =>
    have hc : c ≠ '/' := fun he => hs (he ▸ hr.mem List.mem_cons_self)
    rw [search_exactly_cons, if_neg hc]

theorem search_separated_name {name : Text} (hs : '/' ∉ name) (caps : Captures)
    (next : Text → Captures → Option α) :
    separated.search ('/' :: name) caps next = next name caps := by
  rw [search_separated, searchMany_separator_name hs, Option.or_none]

section
variable {next : Text → Captures → Option α}
  (hn : ∀ rest caps, '/' ∈ rest → next rest caps = none)
  {between name : Text} (hb : '\n' ∉ between) (hs : '/' ∉ name)
include hn hb hs

/-- What takes no separator is reached behind the last one. -/
theorem searchMany_separator (caps : Captures) :
    searchMany .notNewline ((one (.exactly '/')).search · caps next) (between ++ '/' :: name) =
      next name caps := by
  induction between with
  | nil =>
    rw [List.nil_append, searchMany, if_pos (by decide), searchMany_separator_name hs,
      search_exactly_cons, if_pos rfl]
    rfl
  | cons c between ih =>
    rw [List.mem_cons, not_or] at hb
    have hc : CharSet.notNewline.has c = true := by simpa [CharSet.has] using Ne.symm hb.1
    have hl : (one (.exactly '/')).search (c :: (between ++ '/' :: name)) caps next = none := by
      rw [search_exactly_cons]
      split
      · exact hn _ caps (by simp)
      · rfl
    rw [List.cons_append, searchMany, if_pos hc, ih hb.2, hl]
    cases next name caps <;> rfl

theorem search_separated_path (caps : Captures) :
    separated.search ('/' :: (between ++ '/' :: name)) caps next = next name caps := by
  rw [search_separated, hn _ caps (by simp), searchMany_separator hn hb hs, Option.none_or]

end

end Regex

namespace Glob
open Regex (Item)

/-- A header for a single name: it has no separator and nothing that could take one. -/
structure IsName (pattern : Text) : Prop where
  separator : '/' ∉ pattern
  anyChar : '?' ∉ pattern
  bracket : '[' ∉ pattern
  anyText : ¬ "**".toList <:+: pattern

theorem IsName.of_part {text part : Text} (h : IsName text) (hp : part <:+: text) : IsName part :=
  ⟨fun hc => h.separator (hp.mem hc), fun hc => h.anyChar (hp.mem hc),
    fun hc => h.bracket (hp.mem hc), fun hi => h.anyText (hi.trans hp)⟩

theorem IsName.of_suffix {text rest : Text} (h : IsName text) (hr : rest <:+ text) : IsName rest :=
  h.of_part hr.isInfix

def Piece.StaysInName (p : Piece) : Prop := ∀ item ∈ p.items, item.Avoids '/'

theorem staysInName_character {c : Char} (hc : c ≠ '/') :
    (Piece.plain c).StaysInName ∧ (Piece.quoted c).StaysInName ∧ (Piece.bare c).StaysInName := by
  have hs : (CharSet.exactly c).has '/' = false := beq_false_of_ne hc.symm
  simp [Piece.StaysInName, Piece.items, Item.Avoids, hs]

theorem staysInName_anyName : Piece.anyName.StaysInName := by
  simp [Piece.StaysInName, Piece.items, Item.Avoids, CharSet.has, ClassItem.has]

theorem staysInName_number (bounds : Bounds) : (Piece.number bounds).StaysInName := by
  have hd : Regex.digit.has '/' = false := by decide
  simp [Piece.StaysInName, Piece.items, Item.Avoids, hd]

theorem staysInName_piecesAt {c : Char} {rest : Text} (h : IsName (c :: rest)) :
    ∀ p ∈ (piecesAt c rest).1, p.StaysInName := by
  have hc : ∀ d ∈ c :: rest, d ≠ '/' := fun d hd he => h.separator (he ▸ hd)
  rw [List.forall_mem_cons] at hc
  fun_cases piecesAt c rest
  case case1 => exact List.forall_mem_nil _
  case case2 d rest => simpa using (staysInName_character (hc.2 d List.mem_cons_self)).2.1
  case case3 rest => exact absurd (List.prefix_append "**".toList rest).isInfix h.anyText
  case case4 => simpa using staysInName_anyName
  case case5 => exact absurd List.mem_cons_self h.anyChar
  case case6 | case7 | case8 | case9 => exact absurd List.mem_cons_self h.bracket
  case case13 | case14 => exact absurd rfl hc.1
  case case10 | case12 | case15 => simpa using (staysInName_character hc.1).2.2
  case case11 => simpa using (staysInName_character hc.1).2.1
  case case16 => simpa using (staysInName_character hc.1).1

theorem isSuffix_piecesAt (c : Char) (rest : Text) : (piecesAt c rest).2 <:+ rest := by
  by_cases hc : c = '\\'
  · subst hc
    cases rest with
    | nil => exact List.suffix_refl []
    | cons d rest => exact List.suffix_cons d rest
  · obtain ⟨taken, ht, -⟩ := piecesAt_taken hc rest
    exact ⟨taken, ht.symm⟩

theorem staysInName_literalBraces {text : Text} (h : IsName text) :
    ∀ p ∈ literalBraces text, p.StaysInName := by
  fun_induction literalBraces text with
  | case1 => exact List.forall_mem_nil _
  | case2 c rest _ ih =>
    rw [List.forall_mem_append]
    exact ⟨staysInName_piecesAt h,
      ih (h.of_suffix ((isSuffix_piecesAt c rest).trans (List.suffix_cons c rest)))⟩

theorem staysInName_braced {body : Text} (h : IsName body) :
    ∀ p ∈ braced body, p.StaysInName := by
  unfold braced
  split
  · simpa using staysInName_number _
  · rw [List.forall_mem_cons, List.forall_mem_append]
    refine ⟨(staysInName_character (by decide)).2.1, staysInName_literalBraces h, ?_⟩
    simpa using (staysInName_character (c := '\x7d') (by decide)).2.1

theorem staysInName_piecesFrom (balanced : Bool) (depth : Nat) {text : Text} (h : IsName text) :
    ∀ p ∈ piecesFrom balanced depth text, p.StaysInName := by
  have hs : ∀ {c : Char} {rest rest' : Text}, IsName (c :: rest) → rest' <:+ rest → IsName rest' :=
    fun {c rest rest'} h hr => h.of_suffix (hr.trans (List.suffix_cons c rest))
  fun_induction piecesFrom balanced depth text with
  | case1 => exact List.forall_mem_nil _
  | case2 depth rest body rest' hc _ ih =>
    have hr := cut?_eq_append hc
    have hb : body <:+: '\x7b' :: rest := ⟨['\x7b'], '\x7d' :: rest', by rw [hr]; simp⟩
    rw [List.forall_mem_append]
    exact ⟨staysInName_braced (h.of_part hb), ih (hs h ⟨body ++ ['\x7d'], by rw [hr]; simp⟩)⟩
  | case3 depth rest _ _ ih =>
    rw [List.forall_mem_cons]
    exact ⟨by simp [Piece.StaysInName, Piece.items, Item.Avoids], ih (hs h (List.suffix_refl rest))⟩
  | case4 depth rest _ _ ih =>
    rw [List.forall_mem_cons]
    exact ⟨(staysInName_character (by decide)).2.1, ih (hs h (List.suffix_refl rest))⟩
  | case5 depth c rest _ _ _ ih =>
    rw [List.forall_mem_cons]
    exact ⟨by simp [Piece.StaysInName, Piece.items, Item.Avoids],
      ih (hs h (List.dropWhile_suffix (· == ' ')))⟩
  | case6 depth c rest _ _ _ ih =>
    rw [List.forall_mem_cons]
    exact ⟨by simp [Piece.StaysInName, Piece.items, Item.Avoids], ih (hs h (List.suffix_refl rest))⟩
  | case7 depth c rest _ _ _ _ ih =>
    rw [List.forall_mem_append]
    exact ⟨staysInName_piecesAt h, ih (hs h (isSuffix_piecesAt c rest))⟩

section
variable {pattern : Text} (h : IsName pattern)
include h

theorem anchor_name : anchor pattern ['/'] = '/' :: '*' :: '*' :: '/' :: pattern := by
  rw [anchor_top, relative]
  · rw [if_neg (by simpa using h.separator)]
    rfl
  · rintro rest rfl
    exact h.separator List.mem_cons_self

/-- The pieces of a header for a name: any directories, and then nothing that takes a
separator. -/
theorem pieces_name : ∃ ps left, pieces (anchor pattern ['/']) = .anyDirectories :: ps ∧
    Nested 0 ps left ∧ ∀ p ∈ ps, p.StaysInName := by
  have hd : ∀ balanced, piecesFrom balanced 0 ('/' :: '*' :: '*' :: '/' :: pattern) =
      .anyDirectories :: piecesFrom balanced 0 pattern := by
    intro balanced
    rw [piecesFrom]
    simp [piecesAt]
  rw [pieces, anchor_name h, hd]
  obtain ⟨left, hn, -⟩ := nested_piecesFrom (countUnescaped_eq_zero h.bracket false)
  exact ⟨_, left, rfl, hn, staysInName_piecesFrom _ 0 h⟩

/-- The expression of a header for a name: what takes no separator, behind a separator or any
directories between two. -/
theorem regex_name {r : Regex}
    (hr : Regex.ofText limit ((pieces (anchor pattern ['/'])).flatMap Piece.text) = .ok r) :
    ∃ r', r = Regex.leading .separated r' ∧ r'.IsSequence ∧ r'.Avoids '/' := by
  obtain ⟨ps, left, hp, hn, hs⟩ := pieces_name h
  have hi := items_anchor_top (countUnescaped_eq_zero h.bracket false)
  have hd : Piece.anyDirectories.items = Regex.directories := rfl
  rw [hp, List.flatMap_cons, List.flatMap_cons, hd] at hi
  rw [ofText_flatMap_text (readable_anchor pattern ['/']), hp, List.flatMap_cons, hi] at hr
  obtain ⟨r', ht, rfl⟩ := Regex.tree_separated hr
  refine ⟨r', rfl, Regex.isSequence_of_tree ht (barsInside_of_nested hn) .start, ?_⟩
  refine Regex.avoids_of_tree ht (by simp) (.start none) fun item hm => ?_
  obtain ⟨p, hp, hm⟩ := List.mem_flatMap.1 hm
  exact hs p hp item hm

end

end Glob

namespace Matcher

/-- The header of a name gives for a path what it gives for the last name of the path. -/
theorem matches?_name {pattern : Text} (h : Glob.IsName pattern) {m : Matcher}
    (hm : ofHeader limit pattern ['/'] = .ok m) {between name : Text} (hb : '\n' ∉ between)
    (hs : '/' ∉ name) :
    m.matches? ('/' :: (between ++ '/' :: name)) = m.matches? ('/' :: name) := by
  obtain ⟨r, hr, hq, ha⟩ := Glob.regex_name h (ofText_of_ofHeader hm)
  have hn : ∀ rest caps, '/' ∈ rest → (r.search rest caps fun rest caps =>
      if rest.isEmpty then some caps else none) = none :=
    fun rest caps hc => Regex.search_end_eq_none ha hc caps
  rw [matches?, matches?, hr, Regex.fullMatch?, Regex.fullMatch?,
    Regex.search_leading_of_isSequence hq, Regex.search_leading_of_isSequence hq,
    Regex.search_separated_path hn hb hs, Regex.search_separated_name hs]

end Matcher

/-- A header for a name matches a file at any depth as it does directly in the directory. -/
theorem headerMatches_any_depth {pattern : Text} (h : Glob.IsName pattern) (directory : Text)
    {between name : Text} (hb : '\n' ∉ between) (hs : '/' ∉ name) :
    headerMatches limit directory pattern (withSlash directory ++ name) =
      headerMatches limit directory pattern (withSlash directory ++ between ++ '/' :: name) := by
  have hc := Glob.countUnescaped_eq_zero h.bracket false
  rw [List.append_assoc, headerMatches_withSlash (.inl hc), headerMatches_withSlash (.inl hc)]
  cases hm : Matcher.ofHeader limit pattern ['/'] with
  | error e => rfl
  | ok m => exact (Matcher.matches?_name h hm hb hs).symm

/-- A choice with a numeric range: the number is checked in the last name only. -/
theorem headerMatches_any_depth_range :
    headerMatches 100 "/p".toList "*\x7b.x,-\x7b1..20\x7d\x7d".toList
        (withSlash "/p".toList ++ "a-90/b".toList ++ '/' :: "c-15".toList) = .ok true ∧
      headerMatches 100 "/p".toList "*\x7b.x,-\x7b1..20\x7d\x7d".toList
        (withSlash "/p".toList ++ "a-15/b".toList ++ '/' :: "c-90".toList) = .ok false := by
  have h : Glob.IsName "*\x7b.x,-\x7b1..20\x7d\x7d".toList :=
    ⟨by decide, by decide, by decide, by decide⟩
  have hb : ∀ d ∈ ["a-90/b".toList, "a-15/b".toList], '\n' ∉ d := by decide
  have hs : ∀ name ∈ ["c-15".toList, "c-90".toList], '/' ∉ name := by decide
  constructor
  · rw [← headerMatches_any_depth h _ (hb _ (by simp)) (hs _ (by simp))]
    decide +kernel
  · rw [← headerMatches_any_depth h _ (hb _ (by simp)) (hs _ (by simp))]
    decide +kernel

end EditorConfig
