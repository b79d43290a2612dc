import EditorConfig.Proofs.Glob.Clear
import EditorConfig.Proofs.Glob.Reading

/-! Headers below a directory. Main statement: the matcher of a header below a directory is its
matcher below the top, with the name of the directory, letter by letter, in front of the first
branch; a header that cannot be made out below one directory cannot below any other. -/
namespace EditorConfig
variable {limit : Nat}

namespace Regex

def literal (text : Text) : Regex := text.foldl (fun r c => .seq r (.one (.exactly c))) .empty

theorem foldl_push (level : Level) (text : Text) :
    text.foldl (fun l c => l.push (.one (.exactly c))) level =
      { level with
        sequence := text.foldl (fun r c => .seq r (.one (.exactly c))) level.sequence } := by
  induction text generalizing level with
  | nil => rfl
  | cons c text ih => rw [List.foldl_cons, ih]; rfl

theorem tree_ones (level : Level) (next : Nat) (text : Text) (items : List Item) :
    tree limit [] level next (text.map (fun c => .one (.exactly c)) ++ items) =
      tree limit [] (text.foldl (fun l c => l.push (.one (.exactly c))) level) next items := by
  induction text generalizing level with
  | nil => rfl
  | cons c text ih => exact ih _

theorem tree_literal (text : Text) (items : List Item) :
    tree limit [] (Level.start none) 0 (text.map (fun c => .one (.exactly c)) ++ items) =
      (tree limit [] (Level.start none) 0 items).map (leading (literal text)) := by
  rw [tree_ones, foldl_push, ← tree_leading _ _ Level.IsBase.start]
  rfl

end Regex

namespace Glob

def relative (pattern : Text) : Text :=
  match pattern with
  | '/' :: rest => rest
  | _ => if pattern.contains '/' then pattern else "**/".toList ++ pattern

def stem (directory : Text) : Text :=
  if directory.getLast? = some '/' then directory.dropLast else directory

theorem withSlash_eq (directory : Text) : withSlash directory = stem directory ++ ['/'] := by
  rw [withSlash, stem]
  split
  · next h =>
    obtain ⟨start, rfl⟩ := List.getLast?_eq_some_iff.1 h
    simp
  · rfl

theorem quote_append (u v : Text) : quote (u ++ v) = quote u ++ quote v := List.flatMap_append

theorem anchor_eq (pattern directory : Text) :
    anchor pattern directory = quote (stem directory) ++ '/' :: relative pattern := by
  have hq : quote ['/'] = ['/'] := by decide
  unfold anchor
  rw [withSlash_eq, quote_append, hq, List.append_assoc, relative.eq_def]
  rfl

theorem anchor_top (pattern : Text) : anchor pattern ['/'] = '/' :: relative pattern :=
  anchor_eq pattern ['/']

theorem quote_cons (c : Char) (text : Text) :
    quote (c :: text) = (if isWildcard c then ['\\', c] else [c]) ++ quote text := rfl

def literalPiece (c : Char) : Piece :=
  if isWildcard c then .quoted c else if c = '/' then .bare '/' else .plain c

theorem piecesAt_plain {c : Char} (rest : Text) (hw : isWildcard c = false) (hs : c ≠ '/') :
    piecesAt c rest = ([.plain c], rest) := by
  unfold piecesAt
  split
  case h_13 => rfl
  all_goals first | exact absurd hw (by decide) | exact absurd rfl hs

theorem piecesFrom_plain {balanced : Bool} {depth : Nat} {c : Char} {rest : Text}
    (hw : isWildcard c = false) (hs : c ≠ '/') :
    piecesFrom balanced depth (c :: rest) = .plain c :: piecesFrom balanced depth rest := by
  have ho : c ≠ '\x7b' := ne_of_isWildcard hw (by decide)
  have hc : c ≠ ',' := ne_of_isWildcard hw (by decide)
  have hb : c ≠ '\x7d' := ne_of_isWildcard hw (by decide)
  rw [piecesFrom]
  simp [ho, hc, hb, piecesAt_plain rest hw hs]

theorem piecesFrom_quoted (balanced : Bool) (depth : Nat) (c : Char) (rest : Text) :
    piecesFrom balanced depth ('\\' :: c :: rest) =
      .quoted c :: piecesFrom balanced depth rest := by
  rw [piecesFrom]
  simp [piecesAt]

/-- A separator that no star follows is no more than that. -/
theorem piecesFrom_separator (balanced : Bool) (depth : Nat) {rest : Text}
    (hr : ∀ more, rest ≠ '*' :: '*' :: '/' :: more) :
    piecesFrom balanced depth ('/' :: rest) = .bare '/' :: piecesFrom balanced depth rest := by
  rw [piecesFrom]
  simp [piecesAt]

/-- A quoted text never begins with a star. -/
theorem quote_ne_star (text : Text) {rest : Text} (hr : ∀ more, rest ≠ '*' :: more) (more : Text) :
    quote text ++ rest ≠ '*' :: more := by
  cases text with
  | nil => exact hr more
  | cons c text =>
    rw [quote_cons]
    cases hc : isWildcard c with
    | true => simp
    | false =>
      have hs : c ≠ '*' := ne_of_isWildcard hc (by decide)
      simp [hs]

theorem piecesFrom_quote (balanced : Bool) (depth : Nat) (text : Text) {rest : Text}
    (hr : ∀ more, rest ≠ '*' :: more) :
    piecesFrom balanced depth (quote text ++ rest) =
      text.map literalPiece ++ piecesFrom balanced depth rest := by
  induction text with
  | nil => rfl
  | cons c text ih =>
    rw [quote_cons, List.map_cons, literalPiece]
    cases hc : isWildcard c with
    | true =>
      simp only [if_true, List.cons_append, List.nil_append, piecesFrom_quoted, ih]
    | false =>
      simp only [Bool.false_eq_true, if_false, List.cons_append, List.nil_append]
      by_cases hs : c = '/'
      · subst hs
        rw [piecesFrom_separator balanced depth fun more => quote_ne_star text hr _, ih]
        rfl
      · rw [piecesFrom_plain hc hs, ih, if_neg hs]

theorem pieces_anchor (pattern directory : Text) :
    pieces (anchor pattern directory) =
      (stem directory).map literalPiece ++ pieces (anchor pattern ['/']) := by
  -- the braces of the directory are quoted, so they do not count
  have hc : Clear "\x7b\x7d".toList (quote (stem directory)) :=
    clear_quote (List.all_eq_true.1 (by decide)) (stem directory)
  rw [anchor_top, anchor_eq, pieces, pieces, countUnescaped_append (by simp) (by simp) hc,
    countUnescaped_append (by simp) (by simp) hc, piecesFrom_quote _ _ _ (by simp)]

theorem bounds?_literalPiece (c : Char) : (literalPiece c).bounds? = none := by
  unfold literalPiece
  split
  · rfl
  · split <;> rfl

def literalMark (c : Char) : Regex.Mark :=
  if isWildcard c then quotedMark c else if c = '/' then .bare '/' else plainMark c

theorem marks_literalPiece (c : Char) : (literalPiece c).marks = [literalMark c] := by
  unfold literalPiece literalMark
  split
  · rfl
  · split <;> rfl

theorem char_literalMark (c : Char) : (literalMark c).char = c := by
  unfold literalMark quotedMark plainMark
  split
  · split <;> rfl
  · split
    · next h => exact h.symm
    · split <;> rfl

theorem literal_quotedMark (c : Char) : (quotedMark c).Literal := by
  rw [quotedMark]
  cases h : isSpecial c with
  | true => trivial
  | false =>
    intro hc
    have hs : "()[.*+?|".toList.all isSpecial = true := by decide
    exact ne_of_not_isSpecial h (List.all_eq_true.1 hs c hc) rfl

theorem literal_plainMark (c : Char) : (plainMark c).Literal := by
  rw [plainMark]
  cases h : isPlain c with
  | true =>
    intro hc
    have hs : "()[.*+?|".toList.all (isPlain · == false) = true := by decide
    exact ne_of_isPlain h (beq_iff_eq.1 (List.all_eq_true.1 hs c hc)) rfl
  | false => trivial

theorem literal_literalMark (c : Char) : (literalMark c).Literal := by
  unfold literalMark
  split
  · exact literal_quotedMark c
  · split
    · simp [Regex.Mark.Literal]
    · exact literal_plainMark c

theorem readable_anchor (pattern directory : Text) :
    ∀ p ∈ pieces (anchor pattern directory), p.Readable :=
  readable_piecesFrom _ _ _

/-- The items of a text that stands for itself, and of what follows it. -/
theorem items_literalPieces (text : Text) {ps : List Piece} (hp : ∀ p ∈ ps, p.Readable) :
    Regex.items ((text.map literalPiece ++ ps).flatMap Piece.marks) =
      text.map (fun c => .one (.exactly c)) ++ Regex.items (ps.flatMap Piece.marks) := by
  have hm : (text.map literalPiece).flatMap Piece.marks = text.map literalMark := by
    rw [List.flatMap_map, ← List.flatMap_singleton' (text.map literalMark), List.flatMap_map]
    simp only [marks_literalPiece]
  have hr := unrepeated_flatMap_marks hp Regex.unrepeated_nil
  rw [List.append_nil] at hr
  rw [List.flatMap_append, hm, Regex.items_literals _ hr, List.map_map]
  · simp only [Function.comp_def, char_literalMark]
  · intro m h
    obtain ⟨c, -, rfl⟩ := List.mem_map.1 h
    exact literal_literalMark c

/-- The items of an anchored header: the letters of the directory, and what is the same below
every directory. -/
theorem items_anchor (pattern directory : Text) :
    Regex.items ((pieces (anchor pattern directory)).flatMap Piece.marks) =
      (stem directory).map (fun c => .one (.exactly c)) ++
        Regex.items ((pieces (anchor pattern ['/'])).flatMap Piece.marks) := by
  rw [pieces_anchor, items_literalPieces _ (readable_anchor pattern ['/'])]

theorem bounds?_literalPieces (text : Text) :
    (text.map literalPiece).filterMap Piece.bounds? = [] := by
  rw [List.filterMap_map, List.filterMap_eq_nil_iff]
  exact fun c _ => bounds?_literalPiece c

theorem ofText_anchor (pattern directory : Text) :
    Regex.ofText limit ((pieces (anchor pattern directory)).flatMap Piece.text) =
      (Regex.ofText limit ((pieces (anchor pattern ['/'])).flatMap Piece.text)).map
        (Regex.leading (.literal (stem directory))) := by
  rw [ofText_flatMap_text (readable_anchor pattern directory),
    ofText_flatMap_text (readable_anchor pattern ['/']), items_anchor, Regex.tree_literal]

theorem bounds_anchor (pattern directory : Text) :
    (pieces (anchor pattern directory)).filterMap Piece.bounds? =
      (pieces (anchor pattern ['/'])).filterMap Piece.bounds? := by
  rw [pieces_anchor, List.filterMap_append, bounds?_literalPieces, List.nil_append]

end Glob

namespace Matcher

def below (directory : Text) (m : Matcher) : Matcher :=
  ⟨Glob.quote (Glob.stem directory) ++ m.glob,
    Regex.leading (.literal (Glob.stem directory)) m.regex,
    m.ranges⟩

/-- A header is made out below a directory as it is at the top, or fails for the same cause. -/
theorem ofHeader_eq (pattern directory : Text) :
    ofHeader limit pattern directory = (ofHeader limit pattern ['/']).map (below directory) := by
  have ha : Glob.anchor pattern directory =
      Glob.quote (Glob.stem directory) ++ Glob.anchor pattern ['/'] := by
    rw [Glob.anchor_top, Glob.anchor_eq]
  unfold ofHeader Glob.expression
  simp only [Glob.bounds_anchor pattern directory]
  split
  · rfl
  · simp only [bind, Except.bind, Glob.ofText_anchor pattern directory]
    cases Regex.ofText limit
      ((Glob.pieces (Glob.anchor pattern ['/'])).flatMap Glob.Piece.text) with
    | ok r => simp [Except.map, below, ha, pure, Except.pure]
    | error flaw => cases flaw <;> rfl

end Matcher
end EditorConfig
