import EditorConfig.Proofs.Glob.Classless
import EditorConfig.Proofs.Glob.Ranges

/-! Headers that are spelled out: letters and numeric ranges, without choices. Main statement:
what such a header says about a path is settled by the first way to read the path, which gives
digits for each range. -/
namespace EditorConfig
open Text (IsDigits ShortRuns)
variable {limit : Nat}

namespace Glob
open Regex (Item Level tree digit digits rests)

structure WrittenRange where
  text : Text
  bounds : Bounds
  reads : Bounds.ofText? text = some bounds

inductive Token where
  | letter (c : Char)
  | range (r : WrittenRange)

namespace Token

/-- A letter that could mean something else is written behind a backslash, and so is a space. -/
def text : Token → Text
  | .letter c => if isWildcard c || c == ' ' then ['\\', c] else [c]
  | .range r => '\x7b' :: (r.text ++ ['\x7d'])

def piece : Token → Piece
  | .letter c => if c = ' ' then .quoted ' ' else literalPiece c
  | .range r => .number r.bounds

def bounds? : Token → Option Bounds
  | .letter _ => none
  | .range r => some r.bounds

def items : Token → List Item
  | .letter c => [.one (.exactly c)]
  | .range _ => [.opening true, .one digit, .many digit, .closing]

theorem items_piece (t : Token) : t.piece.items = t.items := by
  cases t with
  | letter c =>
    rw [piece, literalPiece]
    split
    · next h => rw [h]; rfl
    · split
      · rfl
      · split
        · next h => rw [h]; rfl
        · rfl
  | range r => rfl

theorem bounds?_piece (t : Token) : t.piece.bounds? = t.bounds? := by
  cases t with
  | letter c =>
    rw [piece]
    split
    · rfl
    · exact bounds?_literalPiece c
  | range r => rfl

end Token

abbrev Spelling := List Token

namespace Spelling

def text (s : Spelling) : Text := s.flatMap Token.text

def bounds (s : Spelling) : List Bounds := s.filterMap Token.bounds?

def ranges (s : Spelling) : List NumericRange := s.bounds.map Bounds.range

def letters (text : Text) : Spelling := text.map .letter

theorem bounds_letters (text : Text) : (letters text).bounds = [] := by
  rw [bounds, letters, List.filterMap_map, List.filterMap_eq_nil_iff]
  exact fun c _ => rfl

theorem bounds_append (s s' : Spelling) : bounds (s ++ s') = s.bounds ++ s'.bounds :=
  List.filterMap_append

def regex (r : Regex) (next : Nat) : Spelling → Regex
  | [] => r
  | .letter c :: s => regex (.seq r (.one (.exactly c))) next s
  | .range _ :: s => regex (.seq r (.group next digits)) (next + 1) s

/-- Only a range needs room for a group. -/
theorem tree_items (s : Spelling) {outer : List Level}
    (ho : s.bounds ≠ [] → 2 * outer.length + 3 ≤ limit) (current : Level) (next : Nat)
    (more : List Item) :
    tree limit outer current next (s.flatMap Token.items ++ more) =
      tree limit outer { current with sequence := s.regex current.sequence next }
        (next + s.bounds.length) more := by
  induction s generalizing current next with
  | nil => rfl
  | cons t s ih =>
    cases t with
    | letter c => exact ih ho (current.push (.one (.exactly c))) next
    | range r =>
      have hl : 2 * outer.length + 3 ≤ limit := ho (List.cons_ne_nil _ _)
      have hi := ih (fun _ => hl) (current.push (.group next digits)) (next + 1)
      rw [Nat.add_right_comm] at hi
      rw [List.flatMap_cons, List.append_assoc, Token.items]
      apply (Regex.tree_digits outer current next _).trans
      rw [if_neg (Nat.not_lt.2 hl)]
      exact hi

def runs : Text → List (Text × Text)
  | [] => []
  | c :: text =>
    if c.isDigit then
      (rests digit text).map fun rest =>
        (rest, (c :: text).take ((c :: text).length - rest.length))
    else []

/-- All ways to read a spelling at the start of a text, in the order of the search: what is left,
and the digits for each range. -/
def readings : Spelling → Text → List (Text × List Text)
  | [], text => [(text, [])]
  | .letter _ :: _, [] => []
  | .letter c :: s, d :: text => if d = c then readings s text else []
  | .range _ :: s, text =>
    (runs text).flatMap fun run => (readings s run.1).map fun way => (way.1, run.2 :: way.2)

open EditorConfig.Glob.Field (fill)

theorem ways_group (index : Nat) (text : Text) (caps : Captures) :
    (Regex.group index digits).ways text caps =
      (runs text).map fun run => (run.1, caps.set index (some run.2)) := by
  cases text with
  | nil => rfl
  | cons c text =>
    have hc := Regex.has_digit c
    cases hd : c.isDigit <;> simp [Regex.ways, digits, runs, hd, hc, Function.comp_def]

theorem ways_regex (s : Spelling) (r : Regex) (next : Nat) (text : Text) (caps : Captures) :
    (s.regex r next).ways text caps =
      (r.ways text caps).flatMap fun way =>
        (s.readings way.1).map fun reading => (reading.1, fill way.2 next reading.2) := by
  induction s generalizing r next with
  | nil => simp [regex, readings, fill]
  | cons t s ih =>
    cases t with
    | letter c =>
      rw [regex, ih, Regex.ways, List.flatMap_assoc]
      congr
      funext way
      obtain ⟨rest, caps⟩ := way
      cases rest with
      | nil => rfl
      | cons d rest => by_cases hd : d = c <;> simp [Regex.ways, CharSet.has, readings, hd]
    | range r' =>
      rw [regex, ih, Regex.ways, List.flatMap_assoc]
      congr
      funext way
      simp [ways_group, readings, List.flatMap_map, List.map_flatMap, Function.comp_def, fill]

theorem search_regex {α : Type} (s : Spelling) (r : Regex) (next : Nat) (text : Text)
    (caps : Captures) (more : Text → Captures → Option α) :
    (s.regex r next).search text caps more =
      r.search text caps fun rest caps =>
        (readings s rest).findSome? fun reading => more reading.1 (fill caps next reading.2) := by
  simp only [Regex.search_eq, ways_regex, Regex.findSome?_flatMap, List.findSome?_map]
  rfl

theorem groups_regex (s : Spelling) (r : Regex) (next : Nat) :
    (s.regex r next).groups = r.groups + s.bounds.length := by
  induction s generalizing r next with
  | nil => rfl
  | cons t s ih =>
    cases t with
    | letter c => exact ih _ _
    | range r' =>
      have hg : (Regex.group next digits).groups = 1 := rfl
      rw [regex, ih, Regex.groups, hg, Nat.add_assoc, Nat.add_comm 1]
      rfl

theorem mem_runs {text rest run : Text} (h : (rest, run) ∈ runs text) :
    IsDigits run ∧ text = run ++ rest := by
  cases text with
  | nil => cases h
  | cons c text =>
    rw [runs] at h
    split at h
    · next hc =>
      obtain ⟨rest', hr, he⟩ := List.mem_map.1 h
      cases he
      obtain ⟨taken, ht, rfl⟩ := Regex.mem_rests.1 hr
      have hl : (c :: (taken ++ rest)).length - rest.length = (c :: taken).length := by
        simp
        omega
      have hk : (c :: (taken ++ rest)).take (c :: taken).length = c :: taken := by
        rw [← List.cons_append, List.take_left]
      rw [hl, hk]
      refine ⟨⟨List.cons_ne_nil c taken, List.forall_mem_cons.2 ⟨hc, fun d hd => ?_⟩⟩, rfl⟩
      rw [← Regex.has_digit]
      exact ht d hd
    · cases h

/-- A reading has digits for each range, and they stand in the text. -/
theorem mem_readings {s : Spelling} {text rest : Text} {numbers : List Text}
    (h : (rest, numbers) ∈ readings s text) :
    numbers.length = s.bounds.length ∧ rest <:+ text ∧
      ∀ run ∈ numbers, IsDigits run ∧ run <:+: text := by
  fun_induction readings s text generalizing rest numbers with
  | case1 text =>
    cases List.mem_singleton.1 h
    exact ⟨rfl, List.suffix_refl text, nofun⟩
  | case2 => cases h
  | case3 s c text ih =>
    obtain ⟨hl, hs, hr⟩ := ih h
    have hd : text <:+ c :: text := List.suffix_cons c text
    exact ⟨hl, hs.trans hd, fun run hm => ⟨(hr run hm).1, (hr run hm).2.trans hd.isInfix⟩⟩
  | case4 => cases h
  | case5 r s text ih =>
    obtain ⟨run, hr, hm⟩ := List.mem_flatMap.1 h
    obtain ⟨way, hw, he⟩ := List.mem_map.1 hm
    cases he
    obtain ⟨hl, hs, hi⟩ := ih run hw
    obtain ⟨hd, rfl⟩ := mem_runs hr
    have ht : run.1 <:+ run.2 ++ run.1 := List.suffix_append run.2 run.1
    refine ⟨congrArg (· + 1) hl, hs.trans ht, List.forall_mem_cons.2 ⟨⟨hd, ?_⟩, ?_⟩⟩
    · exact (List.prefix_append run.2 run.1).isInfix
    · exact fun run' hm => ⟨(hi run' hm).1, (hi run' hm).2.trans ht.isInfix⟩

theorem readings_append (s s' : Spelling) (text : Text) :
    readings (s ++ s') text =
      (readings s text).flatMap fun way =>
        (readings s' way.1).map fun way' => (way'.1, way.2 ++ way'.2) := by
  fun_induction readings s text with
  | case1 text => simp
  | case2 => rfl
  | case3 d s text ih => simpa [readings] using ih
  | case4 c s d text hd => simp [readings, hd]
  | case5 r s text ih =>
    simp [readings, ih, List.flatMap_assoc, List.flatMap_map, List.map_flatMap,
      Function.comp_def]

theorem readings_letters (start : Text) (s : Spelling) (text : Text) :
    readings (letters start ++ s) text = (text.dropPrefix? start).elim [] (readings s) := by
  induction start generalizing text with
  | nil => simp [letters]
  | cons c start ih =>
    cases text with
    | nil => rfl
    | cons d text =>
      have hl : letters (c :: start) ++ s = .letter c :: (letters start ++ s) := rfl
      rw [hl, readings]
      by_cases hd : d = c
      · rw [if_pos hd, ih]
        simp [List.dropPrefix?, hd]
      · simp [List.dropPrefix?, hd]

def reading? (s : Spelling) (text : Text) : Option (List Text) :=
  (readings s text).findSome? fun way => if way.1.isEmpty then some way.2 else none

def outcome (s : Spelling) (lead path : Text) : Except Error Bool :=
  if s.bounds.any Bounds.isTooLong then .error .numeralTooLong
  else match (path.dropPrefix? lead).bind s.reading? with
    | none => .ok false
    | some numbers => NumericRange.acceptAll s.ranges (numbers.map some)

theorem mem_of_reading? {s : Spelling} {text : Text} {numbers : List Text}
    (h : s.reading? text = some numbers) : ([], numbers) ∈ readings s text := by
  obtain ⟨⟨rest, numbers'⟩, hm, he⟩ := List.exists_of_findSome?_eq_some h
  cases rest with
  | nil =>
    cases he
    exact hm
  | cons c rest => cases he

theorem findSome?_readings {α : Type} (s : Spelling) (text : Text) (f : List Text → α) :
    ((readings s text).findSome? fun way => if way.1.isEmpty then some (f way.2) else none) =
      (s.reading? text).map f := by
  rw [reading?, List.map_findSome?]
  congr
  funext way
  simp only [Function.comp_apply]
  split <;> rfl

theorem fill_reading {s : Spelling} {text : Text} {numbers : List Text}
    (h : s.reading? text = some numbers) :
    fill (List.replicate s.bounds.length none) 0 numbers = numbers.map some := by
  rw [← (mem_readings (mem_of_reading? h)).1]
  exact Field.fill_append [] numbers

theorem fullMatch?_regex (s : Spelling) (lead path : Text) :
    (s.regex (.literal lead) 0).fullMatch? path =
      ((path.dropPrefix? lead).bind s.reading?).map fun numbers => numbers.map some := by
  rw [Regex.fullMatch?, search_regex, Regex.search_literal, groups_regex, Regex.groups_literal,
    Nat.zero_add, Option.map_bind]
  congr
  funext rest
  rw [findSome?_readings, Function.comp_apply]
  cases hr : s.reading? rest with
  | none => rfl
  | some numbers => rw [Option.map_some, Option.map_some, fill_reading hr]

end Spelling

theorem clear_written (r : WrittenRange) : Clear "\x7b\x7d,".toList r.text := by
  refine clear_of_forall fun c hc => ?_
  have hk := Bounds.mem_of_ofText? r.reads hc
  constructor
  · intro hm
    have hn : ∀ d ∈ "\x7b\x7d,".toList, ¬ (d.isDigit = true ∨ d ∈ "+-.".toList) := by simp
    exact hn c hm hk
  · rintro rfl
    exact absurd hk (by decide)

theorem cut?_written (r : WrittenRange) (rest : Text) :
    cut? '\x7d' ',' false (r.text ++ '\x7d' :: rest) = some (r.text, rest) := by
  rw [cut?_append (by simp) (by simp) (by simp) (clear_written r)]
  simp [cut?]

theorem braced_written (r : WrittenRange) : braced r.text = [.number r.bounds] := by
  rw [braced, r.reads]

/-- The pieces of a header that begins in its directory. -/
theorem pieces_relative (directory : Text) {rest : Text} (hr : ∀ more, rest ≠ '*' :: more) :
    pieces (anchor ('/' :: rest) directory) =
      (withSlash directory).map literalPiece ++
        piecesFrom (countUnescaped '\x7b' false rest == countUnescaped '\x7d' false rest) 0
          rest := by
  have hc : Clear "\x7b\x7d".toList (quote (withSlash directory)) :=
    clear_quote (List.all_eq_true.1 (by decide)) (withSlash directory)
  have ha : anchor ('/' :: rest) directory = quote (withSlash directory) ++ rest := rfl
  rw [ha, pieces, piecesFrom_quote _ _ _ hr, countUnescaped_append (by simp) (by simp) hc,
    countUnescaped_append (by simp) (by simp) hc]

theorem piecesFrom_of_piecesAt (balanced : Bool) (depth : Nat) {c : Char} (rest : Text)
    (hc : c ∉ "\x7b\x7d,".toList) :
    piecesFrom balanced depth (c :: rest) =
      (piecesAt c rest).1 ++ piecesFrom balanced depth (piecesAt c rest).2 := by
  have hn : c ≠ '\x7b' ∧ c ≠ '\x7d' ∧ c ≠ ',' := by simpa using hc
  rw [piecesFrom]
  simp [hn]

/-- A brace before the first comma closes the first brace, whatever stands between them. -/
theorem piecesFrom_braced (balanced : Bool) (depth : Nat) {rest body rest' : Text}
    (h : cut? '\x7d' ',' false rest = some (body, rest')) :
    piecesFrom balanced depth ('\x7b' :: rest) =
      braced body ++ piecesFrom balanced depth rest' := by
  rw [piecesFrom, if_pos rfl]
  split
  · next hc =>
    rw [h] at hc
    cases hc
    rfl
  · next hc =>
    rw [h] at hc
    cases hc

namespace Token

/-- Nothing that is spelled begins with a star or a space. -/
theorem text_ne_cons (t : Token) {c : Char} (hc : c = '*' ∨ c = ' ') (rest more : Text) :
    t.text ++ rest ≠ c :: more := by
  cases t with
  | letter d =>
    rw [text]
    intro h
    split at h
    · have he : '\\' = c := (List.cons.inj h).1
      obtain rfl | rfl := hc <;> cases he
    · next hd =>
      obtain rfl : d = c := (List.cons.inj h).1
      obtain rfl | rfl := hc <;> exact hd (by decide)
  | range r =>
    intro h
    have he : '\x7b' = c := (List.cons.inj h).1
    obtain rfl | rfl := hc <;> cases he

/-- A letter is read by itself, whether braces and commas have a meaning or not. -/
theorem piecesAt_letter (c : Char) {rest : Text} (hr : ∀ more, rest ≠ '*' :: more) :
    ∃ d rest', (Token.letter c).text ++ rest = d :: rest' ∧ d ∉ "\x7b\x7d,".toList ∧
      piecesAt d rest' = ([(Token.letter c).piece], rest) := by
  rw [text, piece, literalPiece]
  cases hw : isWildcard c with
  | true =>
    have hs : c ≠ ' ' := by
      rintro rfl
      exact absurd hw (by decide)
    rw [if_neg hs]
    exact ⟨'\\', c :: rest, rfl, by decide, rfl⟩
  | false =>
    by_cases hs : c = ' '
    · subst hs
      exact ⟨'\\', ' ' :: rest, rfl, by decide, rfl⟩
    · rw [if_neg hs, beq_false_of_ne hs, if_neg Bool.false_ne_true]
      have hd : ∀ d ∈ "\x7b\x7d,".toList, isWildcard d = true := List.all_eq_true.1 (by decide)
      refine ⟨c, rest, rfl, fun hm => ne_of_isWildcard hw (hd c hm) rfl, ?_⟩
      by_cases hc : c = '/'
      · subst hc
        exact piecesAt.eq_13 rest fun more => hr _
      · rw [if_neg hc]
        exact piecesAt_plain rest hw hc

theorem piecesFrom_text (balanced : Bool) (depth : Nat) (t : Token) {rest : Text}
    (hr : ∀ more, rest ≠ '*' :: more) :
    piecesFrom balanced depth (t.text ++ rest) = t.piece :: piecesFrom balanced depth rest := by
  cases t with
  | letter c =>
    obtain ⟨d, rest', ht, hd, hp⟩ := piecesAt_letter c hr
    rw [ht, piecesFrom_of_piecesAt balanced depth rest' hd, hp]
    rfl
  | range r =>
    rw [text, List.cons_append, List.append_assoc, List.singleton_append,
      piecesFrom_braced balanced depth (cut?_written r rest), braced_written]
    rfl

end Token

namespace Spelling

theorem text_ne_cons (s : Spelling) {c : Char} (hc : c = '*' ∨ c = ' ') {rest : Text}
    (hr : ∀ more, rest ≠ c :: more) (more : Text) : s.text ++ rest ≠ c :: more := by
  cases s with
  | nil => exact hr more
  | cons t s =>
    rw [text, List.flatMap_cons, List.append_assoc]
    exact t.text_ne_cons hc _ more

theorem piecesFrom_text (balanced : Bool) (depth : Nat) (s : Spelling) {rest : Text}
    (hr : ∀ more, rest ≠ '*' :: more) :
    piecesFrom balanced depth (s.text ++ rest) =
      s.map Token.piece ++ piecesFrom balanced depth rest := by
  induction s with
  | nil => rfl
  | cons t s ih =>
    have hs := text_ne_cons s (.inl rfl) hr
    have ht := t.piecesFrom_text balanced depth hs
    rw [ih] at ht
    rw [text, List.flatMap_cons, List.append_assoc]
    exact ht

/-- All pieces of a spelling, up to its end. -/
theorem piecesFrom_all (balanced : Bool) (depth : Nat) (s : Spelling) :
    piecesFrom balanced depth s.text = s.map Token.piece := by
  have ht := @piecesFrom_text balanced depth s [] nofun
  rwa [List.append_nil, piecesFrom, List.append_nil] at ht

theorem isPart_piece (t : Token) : t.piece.IsPart := by
  cases t with
  | letter c =>
    rw [Token.piece]
    split
    · trivial
    · exact isPart_literalPiece c
  | range r => trivial

theorem isPart_pieces (s : Spelling) : ∀ p ∈ s.map Token.piece, p.IsPart := by
  intro p h
  obtain ⟨t, -, rfl⟩ := List.mem_map.1 h
  exact isPart_piece t

theorem items_pieces (s : Spelling) :
    (s.map Token.piece).flatMap Piece.items = s.flatMap Token.items := by
  rw [List.flatMap_map]
  exact congrArg (List.flatMap · s) (funext Token.items_piece)

theorem bounds_pieces (s : Spelling) : (s.map Token.piece).filterMap Piece.bounds? = s.bounds := by
  rw [List.filterMap_map]
  exact congrArg (List.filterMap · s) (funext Token.bounds?_piece)

/-- What a header says, by its expression and its bounds. -/
theorem headerMatches_of_ofText {pattern directory : Text} {r : Regex} {bs : List Bounds}
    (hr : Regex.ofText limit ((pieces (anchor pattern directory)).flatMap Piece.text) = .ok r)
    (hb : (pieces (anchor pattern directory)).filterMap Piece.bounds? = bs) (path : Text) :
    headerMatches limit directory pattern path =
      if bs.any Bounds.isTooLong then .error .numeralTooLong
      else match r.fullMatch? path with
        | none => .ok false
        | some captures => NumericRange.acceptAll (bs.map Bounds.range) captures := by
  rw [headerMatches, Matcher.ofHeader_eq_ite, hr, hb]
  split <;> rfl

/-- A header is spelled out if its pieces are read as those of a spelling. -/
theorem headerMatches_of_pieces {pattern directory : Text} {s : Spelling} {ps : List Piece}
    (hp : pieces (anchor pattern directory) = (withSlash directory).map literalPiece ++ ps)
    (hc : ∀ p ∈ ps, p.IsPart) (hi : ps.flatMap Piece.items = s.flatMap Token.items)
    (hb : ps.filterMap Piece.bounds? = s.bounds) (hl : s.bounds ≠ [] → 3 ≤ limit) (path : Text) :
    headerMatches limit directory pattern path = s.outcome (withSlash directory) path := by
  have hr := readable_anchor pattern directory
  have ht : Regex.ofText limit ((pieces (anchor pattern directory)).flatMap Piece.text) =
      .ok (s.regex (.literal (withSlash directory)) 0) := by
    have hp' : ∀ p ∈ ps, p.Readable := fun p h => hr p (hp ▸ List.mem_append_right _ h)
    have hm := @tree_items limit s [] hl ⟨none, none, .literal (withSlash directory)⟩ 0 []
    rw [List.append_nil] at hm
    rw [ofText_flatMap_text hr, hp, items_literalPieces _ hp',
      items_flatMap hp' fun negated h => hc _ h, hi, Regex.tree_ones, Regex.foldl_push]
    exact hm
  have hb' : (pieces (anchor pattern directory)).filterMap Piece.bounds? = s.bounds := by
    rw [hp, List.filterMap_append, bounds?_literalPieces, List.nil_append, hb]
  rw [headerMatches_of_ofText ht hb', outcome, fullMatch?_regex]
  cases (path.dropPrefix? (withSlash directory)).bind s.reading? <;> rfl

/-- What a header says that is spelled out itself. -/
theorem headerMatches_text (directory : Text) (s : Spelling) (hl : s.bounds ≠ [] → 3 ≤ limit)
    (path : Text) :
    headerMatches limit directory ('/' :: s.text) path = s.outcome (withSlash directory) path := by
  have hn := @text_ne_cons s '*' (.inl rfl) [] nofun
  rw [List.append_nil] at hn
  have hp : pieces (anchor ('/' :: s.text) directory) =
      (withSlash directory).map literalPiece ++ s.map Token.piece := by
    rw [pieces_relative directory hn, piecesFrom_all]
  exact headerMatches_of_pieces hp s.isPart_pieces s.items_pieces s.bounds_pieces hl path

end Spelling

end Glob
end EditorConfig
