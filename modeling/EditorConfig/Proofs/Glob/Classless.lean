import EditorConfig.Proofs.Glob.Anchor
import EditorConfig.Proofs.Regex.Digits
import EditorConfig.Proofs.Regex.Nesting

/-! Globs in which no bracket opens a class. Main statement: every piece of such a glob is read by
itself, and a bar stands only inside of a choice. -/
namespace EditorConfig.Glob
open Regex (Mark Item Unrepeated BarsInside digit)

def Piece.items : Piece → List Item
  | .plain c | .quoted c | .bare c => [.one (.exactly c)]
  | .anyText => [.many .notNewline]
  | .anyName => [.many (.noneOf [.one '/'])]
  | .anyChar => [.one .notNewline]
  | .openClass _ => []
  | .openChoice => [.opening false]
  | .nextChoice => [.bar]
  | .closeChoice => [.closing]
  | .anyDirectories => Regex.directories
  | .number _ => [.opening true, .one digit, .many digit, .closing]

theorem items_marks {p : Piece} (hp : p.Readable) (hc : ∀ negated, p ≠ .openClass negated)
    {marks : List Mark} (hr : Unrepeated marks) :
    Regex.items (p.marks ++ marks) = p.items ++ Regex.items marks := by
  cases p with
  | plain c =>
    have hi := Regex.items_literal (literal_plainMark c) hr
    rwa [char_plainMark] at hi
  | quoted c =>
    have hi := Regex.items_literal (literal_quotedMark c) hr
    rwa [char_quotedMark] at hi
  | bare c =>
    have hl : ∀ c ∈ "],/\x7d".toList, c ∉ "()[.*+?|".toList := by simp
    exact Regex.items_literal (hl c hp) hr
  | anyText => exact Regex.items_anyText marks
  | anyName => exact Regex.items_anyName marks
  | anyChar => exact Regex.items_one rfl (by simp) hr
  | openClass negated => exact absurd rfl (hc negated)
  | openChoice => exact Regex.items.eq_2 marks
  | nextChoice => exact Regex.items.eq_4 marks
  | closeChoice => exact Regex.items.eq_5 marks
  | anyDirectories => exact Regex.items_directories marks
  | number bounds => exact Regex.items_digits marks

theorem items_flatMap {ps : List Piece} (hp : ∀ p ∈ ps, p.Readable)
    (hc : ∀ negated, .openClass negated ∉ ps) :
    Regex.items (ps.flatMap Piece.marks) = ps.flatMap Piece.items := by
  induction ps with
  | nil => simp [Regex.items]
  | cons p ps ih =>
    rw [List.forall_mem_cons] at hp
    have hn : ∀ negated, p ≠ .openClass negated := by
      intro negated he
      exact hc negated (he ▸ List.mem_cons_self)
    have hr := unrepeated_flatMap_marks hp.2 Regex.unrepeated_nil
    rw [List.append_nil] at hr
    rw [List.flatMap_cons, List.flatMap_cons, items_marks hp.1 hn hr,
      ih hp.2 fun negated h => hc negated (List.mem_cons_of_mem p h)]

theorem piecesAt_taken {c : Char} (hc : c ≠ '\\') (rest : Text) :
    ∃ taken, rest = taken ++ (piecesAt c rest).2 ∧ ∀ d ∈ taken, d ∈ "*!^/".toList := by
  fun_cases piecesAt c rest
  case case1 | case2 => exact absurd rfl hc
  case case3 => exact ⟨['*'], rfl, by simp⟩
  case case6 => exact ⟨['!'], rfl, by simp⟩
  case case7 => exact ⟨['^'], rfl, by simp⟩
  case case13 => exact ⟨['*', '*', '/'], rfl, by simp⟩
  all_goals exact ⟨[], rfl, nofun⟩

/-- Behind a character that is no stop, what is read together with it holds no stop either. -/
theorem clear_piecesAt {stops : Text} (hs : ∀ s ∈ stops, s ∈ "[\x7b\x7d".toList) {c : Char}
    {rest : Text} (hc : c ∉ stops) (hn : c ≠ '\\' ∨ rest ≠ []) :
    ∃ taken, c :: rest = taken ++ (piecesAt c rest).2 ∧ Clear stops taken := by
  by_cases hb : c = '\\'
  · subst hb
    cases rest with
    | nil => simp at hn
    | cons d rest => exact ⟨['\\', d], rfl, .quoted d .nil⟩
  · obtain ⟨taken, ht, hm⟩ := piecesAt_taken hb rest
    have hd : ∀ d ∈ "*!^/".toList, d ∉ "[\x7b\x7d".toList ∧ d ≠ '\\' := by simp
    have hk : Clear stops taken :=
      clear_of_forall fun d h => ⟨fun hi => (hd d (hm d h)).1 (hs d hi), (hd d (hm d h)).2⟩
    exact ⟨c :: taken, congrArg (c :: ·) ht, .bare hc hb hk⟩

theorem countUnescaped_bare {x c : Char} (hc : c ≠ '\\') (rest : Text) :
    countUnescaped x false (c :: rest) =
      (if c = x then 1 else 0) + countUnescaped x false rest := by
  have hb : (c == '\\') = false := beq_false_of_ne hc
  rw [countUnescaped, hb]

theorem countUnescaped_piecesAt {x c : Char} (hx : x ∈ "[\x7b\x7d".toList) (hc : c ≠ x)
    (rest : Text) :
    countUnescaped x false (piecesAt c rest).2 = countUnescaped x false (c :: rest) := by
  by_cases hn : c ≠ '\\' ∨ rest ≠ []
  · have hs : ∀ s ∈ [x], s ∈ "[\x7b\x7d".toList := by simpa using hx
    obtain ⟨taken, ht, hk⟩ := clear_piecesAt hs (by simpa using hc) hn
    have hq : '\\' ∉ [x] := fun h => absurd (hs _ h) (by decide)
    rw [ht, countUnescaped_append List.mem_cons_self hq hk]
  · obtain ⟨rfl, rfl⟩ : c = '\\' ∧ rest = [] := by simpa using hn
    simp [piecesAt, countUnescaped, hc]

theorem clear_spaces {stops : Text} (hs : ' ' ∉ stops) (text : Text) :
    Clear stops (text.takeWhile (· == ' ')) := by
  refine clear_of_forall fun c h => ?_
  have hc : c = ' ' := by simpa using List.all_eq_true.1 List.all_takeWhile c h
  subst hc
  exact ⟨hs, by decide⟩

theorem countUnescaped_dropSpaces {x : Char} (hx : x ∈ "[\x7b\x7d".toList) (text : Text) :
    countUnescaped x false (text.dropWhile (· == ' ')) = countUnescaped x false text := by
  have hs : ∀ s ∈ [x], s ∈ "[\x7b\x7d".toList := by simpa using hx
  have hq : '\\' ∉ [x] := fun h => absurd (hs _ h) (by decide)
  have hn : ' ' ∉ [x] := fun h => absurd (hs _ h) (by decide)
  have hk := countUnescaped_append List.mem_cons_self hq (clear_spaces hn text)
    (text.dropWhile (· == ' '))
  rw [← hk, List.takeWhile_append_dropWhile]

theorem countUnescaped_of_cut? {x stop avoid : Char} (hs : stop ≠ '\\') {escaped : Bool}
    {text u v : Text} (h : cut? stop avoid escaped text = some (u, v)) :
    countUnescaped x escaped text =
      countUnescaped x escaped u + (if stop = x then 1 else 0) + countUnescaped x false v := by
  fun_induction cut? stop avoid escaped text generalizing u with
  | case1 => cases h
  | case2 c rest ih =>
    obtain ⟨⟨u', v'⟩, hc, he⟩ := Option.map_eq_some_iff.1 h
    cases he
    simpa [countUnescaped] using ih hc
  | case3 rest =>
    cases h
    have hb : (stop == '\\') = false := beq_false_of_ne hs
    simp [countUnescaped, hb]
  | case4 => cases h
  | case5 c rest hc ha ih =>
    obtain ⟨⟨u', v'⟩, hu, he⟩ := Option.map_eq_some_iff.1 h
    cases he
    have hi := ih hu
    simp only [countUnescaped]
    omega

def Piece.IsPart : Piece → Prop
  | .openClass _ | .openChoice | .nextChoice | .closeChoice => False
  | _ => True

/-- The pieces bring choices from `depth` open ones to `left`, and say where an alternative ends
only inside of one. -/
def Nested : Nat → List Piece → Nat → Prop
  | depth, [], left => depth = left
  | depth, .openChoice :: ps, left => Nested (depth + 1) ps left
  | depth, .nextChoice :: ps, left => 0 < depth ∧ Nested depth ps left
  | depth, .closeChoice :: ps, left => 0 < depth ∧ Nested (depth - 1) ps left
  | depth, p :: ps, left => p.IsPart ∧ Nested depth ps left

theorem nested_part {p : Piece} (hp : p.IsPart) {depth left : Nat} {ps : List Piece} :
    Nested depth (p :: ps) left ↔ Nested depth ps left := by
  cases p <;> simp_all [Nested, Piece.IsPart]

theorem nested_parts {ps : List Piece} (hp : ∀ p ∈ ps, p.IsPart) {depth left : Nat}
    {more : List Piece} : Nested depth (ps ++ more) left ↔ Nested depth more left := by
  induction ps with
  | nil => rfl
  | cons p ps ih =>
    rw [List.forall_mem_cons] at hp
    rw [List.cons_append, nested_part hp.1, ih hp.2]

theorem isPart_piecesAt {c : Char} (hc : c ≠ '[') (rest : Text) :
    ∀ p ∈ (piecesAt c rest).1, p.IsPart := by
  fun_cases piecesAt c rest
  case case6 | case7 | case8 => exact absurd rfl hc
  all_goals simp [Piece.IsPart]

theorem isPart_literalPiece (c : Char) : (literalPiece c).IsPart := by
  unfold literalPiece
  split
  · trivial
  · split <;> trivial

/-- A bracket that could open a class counts. -/
theorem ne_bracket {c : Char} {rest : Text} (h : countUnescaped '[' false (c :: rest) = 0) :
    c ≠ '[' := by
  rintro rfl
  simp [countUnescaped] at h

theorem isPart_literalBraces {text : Text} (h : countUnescaped '[' false text = 0) :
    ∀ p ∈ literalBraces text, p.IsPart := by
  fun_induction literalBraces text with
  | case1 => exact List.forall_mem_nil _
  | case2 c rest _ ih =>
    have hr := countUnescaped_piecesAt (by decide) (ne_bracket h) rest
    rw [List.forall_mem_append]
    exact ⟨isPart_piecesAt (ne_bracket h) rest, ih (hr.trans h)⟩

theorem isPart_braced {body : Text} (h : countUnescaped '[' false body = 0) :
    ∀ p ∈ braced body, p.IsPart := by
  unfold braced
  split
  · simp [Piece.IsPart]
  · rw [List.forall_mem_cons, List.forall_mem_append]
    exact ⟨trivial, isPart_literalBraces h, by simp [Piece.IsPart]⟩

def closes : Nat → Bool → Text → Bool
  | opened, _, [] => opened == 0
  | opened, true, _ :: rest => closes opened false rest
  | opened, false, c :: rest =>
    if c = '\x7b' then closes (opened + 1) false rest
    else if c = '\x7d' then opened != 0 && closes (opened - 1) false rest
    else closes opened (c == '\\') rest

theorem closes_append {text : Text} (h : Clear "\x7b\x7d".toList text) (opened : Nat)
    (rest : Text) : closes opened false (text ++ rest) = closes opened false rest := by
  induction h with
  | nil => rfl
  | quoted c _ ih => simpa [closes] using ih
  | @bare c text hc hb _ ih =>
    have hn : c ≠ '\x7b' ∧ c ≠ '\x7d' := by simpa using hc
    have hq : (c == '\\') = false := beq_false_of_ne hb
    simpa [closes, hn, hq] using ih

/-- A body without closing braces leaves open what was open before it, and maybe more. -/
theorem closes_of_cut? {opened : Nat} {escaped : Bool} {text u v : Text}
    (h : cut? '\x7d' ',' escaped text = some (u, v)) (hk : closes opened escaped text = true) :
    ∃ opened', opened ≤ opened' + 1 ∧ closes opened' false v = true := by
  fun_induction cut? '\x7d' ',' escaped text generalizing opened u with
  | case1 => cases h
  | case2 c rest ih =>
    obtain ⟨⟨u', v'⟩, hc, he⟩ := Option.map_eq_some_iff.1 h
    cases he
    exact ih hc hk
  | case3 rest =>
    cases h
    obtain ⟨ho, hr⟩ : opened ≠ 0 ∧ closes (opened - 1) false v = true := by simpa [closes] using hk
    exact ⟨opened - 1, by omega, hr⟩
  | case4 => cases h
  | case5 c rest hc _ ih =>
    obtain ⟨⟨u', v'⟩, hu, he⟩ := Option.map_eq_some_iff.1 h
    cases he
    by_cases hb : c = '\x7b'
    · subst hb
      obtain ⟨opened', ho, hr⟩ := ih hu (by simpa [closes] using hk)
      exact ⟨opened', by omega, hr⟩
    · exact ih hu (by simpa [closes, hb, hc] using hk)

/-- Inside of `depth` choices, a text that closes them all: where braces are balanced its braces
close at least as many, and elsewhere no choice is open. -/
def Closable (balanced : Bool) (depth : Nat) (text : Text) : Prop :=
  if balanced then ∃ opened, depth ≤ opened ∧ closes opened false text = true else depth = 0

namespace Closable
variable {balanced : Bool} {depth : Nat} {rest : Text}

theorem nil (h : Closable balanced depth []) : depth = 0 := by
  cases balanced with
  | true =>
    obtain ⟨opened, ho, hc⟩ := h
    have hz : opened = 0 := by simpa [closes] using hc
    omega
  | false => exact h

theorem behindBody {body rest' : Text} (h : Closable balanced depth ('\x7b' :: rest))
    (hc : cut? '\x7d' ',' false rest = some (body, rest')) : Closable balanced depth rest' := by
  cases balanced with
  | true =>
    obtain ⟨opened, ho, hk⟩ := h
    obtain ⟨opened', ho', hk'⟩ := closes_of_cut? hc (by simpa [closes] using hk)
    exact ⟨opened', by omega, hk'⟩
  | false => exact h

theorem opening (h : Closable true depth ('\x7b' :: rest)) : Closable true (depth + 1) rest := by
  obtain ⟨opened, ho, hk⟩ := h
  exact ⟨opened + 1, by omega, by simpa [closes] using hk⟩

/-- A closing brace may close a choice, or stand for itself where none is open. -/
theorem closing (h : Closable balanced depth ('\x7d' :: rest)) :
    Closable balanced (depth - 1) rest := by
  cases balanced with
  | true =>
    obtain ⟨opened, ho, hk⟩ := h
    obtain ⟨-, hr⟩ : opened ≠ 0 ∧ closes (opened - 1) false rest = true := by
      simpa [closes] using hk
    exact ⟨opened - 1, by omega, hr⟩
  | false =>
    have hd : depth = 0 := h
    show depth - 1 = 0
    omega

theorem behind {taken : Text} (ht : Clear "\x7b\x7d".toList taken)
    (h : Closable balanced depth (taken ++ rest)) : Closable balanced depth rest := by
  cases balanced with
  | true =>
    obtain ⟨opened, ho, hk⟩ := h
    exact ⟨opened, ho, by rwa [closes_append ht] at hk⟩
  | false => exact h

theorem behindSpaces (h : Closable balanced depth rest) :
    Closable balanced depth (rest.dropWhile (· == ' ')) := by
  rw [← List.takeWhile_append_dropWhile (p := (· == ' ')) (l := rest)] at h
  exact h.behind (clear_spaces (by decide) rest)

theorem behindPiece {c : Char} (hc : c ≠ '\x7b' ∧ c ≠ '\x7d')
    (h : Closable balanced depth (c :: rest)) : Closable balanced depth (piecesAt c rest).2 := by
  by_cases hn : c ≠ '\\' ∨ rest ≠ []
  · have hs : ∀ s ∈ "\x7b\x7d".toList, s ∈ "[\x7b\x7d".toList := by simp
    obtain ⟨taken, ht, hk⟩ := clear_piecesAt hs (by simpa using hc) hn
    rw [ht] at h
    exact h.behind hk
  · obtain ⟨rfl, rfl⟩ : c = '\\' ∧ rest = [] := by simpa using hn
    cases balanced <;> exact h

end Closable

/-- The choices of a glob are nested, and where its braces close each other they do too. -/
theorem nested_piecesFrom {balanced : Bool} {depth : Nat} {text : Text}
    (h : countUnescaped '[' false text = 0) :
    ∃ left, Nested depth (piecesFrom balanced depth text) left ∧
      (Closable balanced depth text → left = 0) := by
  fun_induction piecesFrom balanced depth text with
  | case1 depth => exact ⟨depth, rfl, Closable.nil⟩
  | case2 depth rest body rest' hc _ ih =>
    have hk := countUnescaped_of_cut? (by decide) hc (x := '[')
    rw [countUnescaped_bare (by decide)] at h
    obtain ⟨left, hn, hl⟩ := ih (by omega)
    exact ⟨left, (nested_parts (isPart_braced (by omega))).2 hn, fun ho => hl (ho.behindBody hc)⟩
  | case3 depth rest _ hb ih =>
    rw [countUnescaped_bare (by decide)] at h
    obtain ⟨left, hn, hl⟩ := ih (by omega)
    subst hb
    exact ⟨left, hn, fun ho => hl ho.opening⟩
  | case4 depth rest _ hb ih =>
    rw [countUnescaped_bare (by decide)] at h
    obtain ⟨left, hn, hl⟩ := ih (by omega)
    have hf : balanced = false := by simpa using hb
    subst hf
    exact ⟨left, (nested_part (p := .quoted '\x7b') trivial).2 hn, hl⟩
  | case5 depth c rest _ hd _ ih =>
    obtain ⟨rfl, hz⟩ : c = ',' ∧ depth ≠ 0 := by simpa using hd
    rw [countUnescaped_bare (by decide)] at h
    rw [countUnescaped_dropSpaces (by decide)] at ih
    obtain ⟨left, hn, hl⟩ := ih (by omega)
    have hk : Clear "\x7b\x7d".toList [','] := .bare (by decide) (by decide) .nil
    exact ⟨left, ⟨by omega, hn⟩, fun ho => hl (ho.behind hk).behindSpaces⟩
  | case6 depth c rest _ _ hd ih =>
    obtain ⟨rfl, hz⟩ : c = '\x7d' ∧ depth ≠ 0 := by simpa using hd
    rw [countUnescaped_bare (by decide)] at h
    obtain ⟨left, hn, hl⟩ := ih (by omega)
    exact ⟨left, ⟨by omega, hn⟩, fun ho => hl ho.closing⟩
  | case7 depth c rest ho _ hd _ ih =>
    have hr := countUnescaped_piecesAt (by decide) (ne_bracket h) rest
    obtain ⟨left, hn, hl⟩ := ih (hr.trans h)
    refine ⟨left, (nested_parts (isPart_piecesAt (ne_bracket h) rest)).2 hn, fun hk => hl ?_⟩
    by_cases hc : c = '\x7d'
    · subst hc
      have hz : depth = 0 := by simpa using hd
      subst hz
      exact hk.closing
    · exact hk.behindPiece ⟨ho, hc⟩

theorem isPart_ne_openClass {p : Piece} (hp : p.IsPart) (negated : Bool) :
    p ≠ .openClass negated := by
  rintro rfl
  exact hp

theorem openClass_notMem {depth left : Nat} {ps : List Piece} (h : Nested depth ps left)
    (negated : Bool) : .openClass negated ∉ ps := by
  fun_induction Nested depth ps left with
  | case1 => exact nofun
  | case2 depth ps left ih => simpa using ih h
  | case3 depth ps left ih | case4 depth ps left ih => simpa using ih h.2
  | case5 depth p ps left _ _ _ ih =>
    rw [List.mem_cons, not_or]
    exact ⟨(isPart_ne_openClass h.1 negated).symm, ih h.2⟩

theorem barsInside_part {p : Piece} (hp : p.IsPart) (depth : Nat) (items : List Item) :
    BarsInside depth (p.items ++ items) ↔ BarsInside depth items := by
  cases p <;> simp_all [Piece.items, Piece.IsPart, BarsInside, Regex.directories]

theorem barsInside_of_nested {depth left : Nat} {ps : List Piece} (h : Nested depth ps left) :
    BarsInside depth (ps.flatMap Piece.items) := by
  fun_induction Nested depth ps left with
  | case1 => trivial
  | case2 depth ps left ih => exact ih h
  | case3 depth ps left ih => exact ⟨h.1, ih h.2⟩
  | case4 depth ps left ih => exact ih h.2
  | case5 depth p ps left _ _ _ ih =>
    rw [List.flatMap_cons, barsInside_part h.1]
    exact ih h.2

/-- What is put in front of a pattern at the top has no braces and brackets. -/
theorem anchor_top_eq_append (pattern : Text) :
    ∃ lead, anchor pattern ['/'] = lead ++ pattern ∧ Clear "[\x7b\x7d".toList lead := by
  rw [anchor_top]
  unfold relative
  split
  · exact ⟨[], rfl, .nil⟩
  · split
    · exact ⟨['/'], rfl, .bare (by decide) (by decide) .nil⟩
    · refine ⟨"/**/".toList, rfl, clear_of_forall ?_⟩
      simp

theorem countUnescaped_anchor_top {x : Char} (hx : x ∈ "[\x7b\x7d".toList) (pattern : Text) :
    countUnescaped x false (anchor pattern ['/']) = countUnescaped x false pattern := by
  obtain ⟨lead, he, hl⟩ := anchor_top_eq_append pattern
  rw [he, countUnescaped_append hx (by decide) hl]

section
variable {pattern : Text} (h : countUnescaped '[' false pattern = 0)
include h

theorem nested_anchor_top : ∃ left, Nested 0 (pieces (anchor pattern ['/'])) left := by
  have hc := (countUnescaped_anchor_top (by decide) pattern).trans h
  obtain ⟨left, hn, -⟩ := nested_piecesFrom hc
  exact ⟨left, hn⟩

theorem items_anchor_top :
    Regex.items ((pieces (anchor pattern ['/'])).flatMap Piece.marks) =
      (pieces (anchor pattern ['/'])).flatMap Piece.items := by
  obtain ⟨left, hn⟩ := nested_anchor_top h
  exact items_flatMap (readable_anchor pattern ['/']) (openClass_notMem hn)

theorem barsInside_anchor_top :
    BarsInside 0 (Regex.items ((pieces (anchor pattern ['/'])).flatMap Piece.marks)) := by
  obtain ⟨left, hn⟩ := nested_anchor_top h
  rw [items_anchor_top h]
  exact barsInside_of_nested hn

end

end EditorConfig.Glob
