import EditorConfig.Proofs.Glob.Classless
import EditorConfig.Proofs.Glob.Inside

/-! Headers that are moved to another directory. Main statement: a header without classes, or
without braces, sees only the part of a path behind its directory. Classes and braces together
can take the anchor from a branch. -/
namespace EditorConfig
variable {limit : Nat}

namespace Regex

/-- A class ends at a bare bracket. -/
theorem members?_taken {start : Bool} {marks rest : List Mark} {read : List ClassItem}
    (h : members? start marks = some (read, rest)) :
    ∃ taken, marks = taken ++ .bare ']' :: rest := by
  fun_induction members? start marks generalizing read with
  | case1 => cases h
  | case2 rest =>
    cases h
    exact ⟨[], rfl⟩
  | case3 start m rest =>
    cases h
    exact ⟨[m, .bare '-'], rfl⟩
  | case4 start m n rest _ _ _ ih =>
    obtain ⟨⟨read', rest'⟩, hr, he⟩ := Option.map_eq_some_iff.1 h
    cases he
    obtain ⟨taken, rfl⟩ := ih hr
    exact ⟨m :: .bare '-' :: n :: taken, rfl⟩
  | case5 => cases h
  | case6 start m rest _ _ _ ih =>
    obtain ⟨⟨read', rest'⟩, hr, he⟩ := Option.map_eq_some_iff.1 h
    cases he
    obtain ⟨taken, rfl⟩ := ih hr
    exact ⟨m :: taken, rfl⟩

theorem charSet?_taken {marks rest : List Mark} {set : CharSet}
    (h : charSet? (.bare '[' :: marks) = some (set, rest)) :
    ∃ taken, marks = taken ++ .bare ']' :: rest := by
  have hm : ∀ {marks'} {f : List ClassItem → CharSet},
      (members? true marks').map (fun read => (f read.1, read.2)) = some (set, rest) →
        ∃ taken, marks' = taken ++ .bare ']' :: rest := by
    intro marks' f hf
    obtain ⟨read, hr, he⟩ := Option.map_eq_some_iff.1 hf
    cases he
    exact members?_taken hr
  by_cases hn : ∃ marks', marks = .bare '^' :: marks'
  · obtain ⟨marks', rfl⟩ := hn
    obtain ⟨taken, rfl⟩ := hm h
    exact ⟨.bare '^' :: taken, rfl⟩
  · rw [charSet?.eq_2 marks fun marks' he => hn ⟨marks', he⟩] at h
    exact hm h

theorem items_unreadable {m : Mark} {marks : List Mark} (hc : charSet? (m :: marks) = none)
    (hm : m ≠ .bare '(' ∧ m ≠ .bare '|' ∧ m ≠ .bare ')') :
    items (m :: marks) = [.unreadable] := by
  rw [items.eq_6 _ _ (fun _ h => absurd h hm.1) hm.1 hm.2.1 hm.2.2]
  split
  · rfl
  · next h => simp [h] at hc

end Regex

namespace Glob
open Regex (Mark BarsInside charSet? repeated)

def Piece.IsFlat : Piece → Prop
  | .openChoice | .nextChoice | .closeChoice | .number _ => False
  | _ => True

theorem marks_behind_bracket {p : Piece} (hf : p.IsFlat) {u v : List Mark}
    (h : p.marks = u ++ .bare ']' :: v) : v = [] ∨ v = [.bare '*'] := by
  have hb : Mark.bare ']' ∈ p.marks := by simp [h]
  have hl := congrArg List.length h
  rw [List.length_append, List.length_cons] at hl
  cases p with
  | plain c | quoted c | bare c | anyChar =>
    rw [Piece.marks, List.length_singleton] at hl
    exact .inl (List.length_eq_zero_iff.1 (by omega))
  | anyName =>
    have hv : u = [.bare '[', .bare '^', .bare '/'] ∧ v = [.bare '*'] := by
      simpa [Piece.marks, List.cons_eq_append_iff] using h
    exact .inr hv.2
  | openClass negated => cases negated <;> simp [Piece.marks] at hb
  | anyText | anyDirectories => simp [Piece.marks] at hb
  | openChoice | nextChoice | closeChoice | number => cases hf

/-- Behind a bare bracket stand whole pieces, or a star that repeats a class and then whole
pieces. -/
theorem flatMap_behind_bracket {ps : List Piece} (hf : ∀ p ∈ ps, p.IsFlat) {u v : List Mark}
    (h : ps.flatMap Piece.marks = u ++ .bare ']' :: v) :
    ∃ qs, qs <:+ ps ∧ (v = qs.flatMap Piece.marks ∨ v = .bare '*' :: qs.flatMap Piece.marks) := by
  induction ps generalizing u with
  | nil => simp at h
  | cons p ps ih =>
    rw [List.forall_mem_cons] at hf
    rw [List.flatMap_cons, List.append_eq_append_iff] at h
    obtain ⟨w, -, hw⟩ | ⟨w, hp, hw⟩ := h
    · obtain ⟨qs, hs, hv⟩ := ih hf.2 hw
      exact ⟨qs, hs.trans (List.suffix_cons p ps), hv⟩
    · cases w with
      | nil =>
        obtain ⟨qs, hs, hv⟩ := @ih hf.2 [] hw.symm
        exact ⟨qs, hs.trans (List.suffix_cons p ps), hv⟩
      | cons m w =>
        obtain ⟨rfl, rfl⟩ := List.cons.inj hw
        refine ⟨ps, List.suffix_cons p ps, ?_⟩
        obtain rfl | rfl := marks_behind_bracket hf.1 hp
        · exact .inl rfl
        · exact .inr rfl

theorem isPart_or_openClass {p : Piece} (hf : p.IsFlat) :
    p.IsPart ∨ ∃ negated, p = .openClass negated := by
  cases p with
  | openClass negated => exact .inr ⟨negated, rfl⟩
  | _ => simp_all [Piece.IsFlat, Piece.IsPart]

theorem marks_openClass (negated : Bool) :
    ∃ lead, (Piece.openClass negated).marks = .bare '[' :: lead ∧ Mark.bare ']' ∉ lead := by
  cases negated with
  | true => exact ⟨[.bare '^'], rfl, by simp⟩
  | false => exact ⟨[], rfl, by simp⟩

/-- A class that is read from flat pieces leaves flat pieces. -/
theorem items_openClass {ps : List Piece} (hf : ∀ p ∈ ps, p.IsFlat) (hp : ∀ p ∈ ps, p.Readable)
    (negated : Bool) :
    Regex.items ((Piece.openClass negated).marks ++ ps.flatMap Piece.marks) = [.unreadable] ∨
      ∃ item qs, qs <:+ ps ∧ (∀ items, BarsInside 0 (item :: items) ↔ BarsInside 0 items) ∧
        Regex.items ((Piece.openClass negated).marks ++ ps.flatMap Piece.marks) =
          item :: Regex.items (qs.flatMap Piece.marks) := by
  obtain ⟨lead, hl, hb⟩ := marks_openClass negated
  rw [hl, List.cons_append]
  cases hc : charSet? (.bare '[' :: (lead ++ ps.flatMap Piece.marks)) with
  | none => exact .inl (Regex.items_unreadable hc (by simp))
  | some read =>
    obtain ⟨set, rest⟩ := read
    refine .inr ?_
    obtain ⟨taken, ht⟩ := Regex.charSet?_taken hc
    obtain ⟨u, hu⟩ : ∃ u, ps.flatMap Piece.marks = u ++ .bare ']' :: rest := by
      obtain ⟨u, -, hu⟩ | ⟨w, hw, he⟩ := List.append_eq_append_iff.1 ht
      · exact ⟨u, hu⟩
      · cases w with
        | nil => exact ⟨[], he.symm⟩
        | cons m w =>
          obtain ⟨rfl, -⟩ := List.cons.inj he
          exact absurd (hw ▸ List.mem_append_right taken List.mem_cons_self) hb
    obtain ⟨qs, hs, hv⟩ := flatMap_behind_bracket hf hu
    have hr := unrepeated_flatMap_marks (fun p h => hp p (hs.mem h)) Regex.unrepeated_nil
    rw [List.append_nil] at hr
    rw [Regex.items_of_charSet? hc (by simp)]
    cases hv with
    | inl hv =>
      refine ⟨.one set, qs, hs, fun _ => Iff.rfl, ?_⟩
      rw [hv, Regex.repeated_of_unrepeated set hr]
      rfl
    | inr hv =>
      refine ⟨.many set, qs, hs, fun _ => Iff.rfl, ?_⟩
      rw [hv]
      rfl

/-- Where no piece opens a choice or is a number, no bar stands outside of a group, whatever the
classes take. -/
theorem barsInside_flat {ps : List Piece} (hf : ∀ p ∈ ps, p.IsFlat)
    (hp : ∀ p ∈ ps, p.Readable) : BarsInside 0 (Regex.items (ps.flatMap Piece.marks)) := by
  -- by the number of pieces, as a class may take any number of them
  induction hn : ps.length using Nat.strong_induction_on generalizing ps with
  | h n ih =>
    cases ps with
    | nil => simp [Regex.items, BarsInside]
    | cons p ps =>
      rw [List.forall_mem_cons] at hf hp
      have hi : ∀ qs, qs <:+ ps → BarsInside 0 (Regex.items (qs.flatMap Piece.marks)) := by
        intro qs hs
        have hl := hs.length_le
        rw [List.length_cons] at hn
        exact ih qs.length (by omega) (fun p h => hf.2 p (hs.mem h))
          (fun p h => hp.2 p (hs.mem h)) rfl
      rw [List.flatMap_cons]
      obtain hpart | ⟨negated, rfl⟩ := isPart_or_openClass hf.1
      · have hr := unrepeated_flatMap_marks hp.2 Regex.unrepeated_nil
        rw [List.append_nil] at hr
        rw [items_marks hp.1 (isPart_ne_openClass hpart) hr, barsInside_part hpart]
        exact hi ps (List.suffix_refl ps)
      · obtain he | ⟨item, qs, hs, hb, he⟩ := items_openClass hf.2 hp.2 negated
        · rw [he]
          trivial
        · rw [he, hb]
          exact hi qs hs

theorem isFlat_piecesAt (c : Char) (rest : Text) : ∀ p ∈ (piecesAt c rest).1, p.IsFlat := by
  fun_cases piecesAt c rest
  all_goals simp [Piece.IsFlat]

theorem isFlat_piecesFrom {balanced : Bool} {text : Text}
    (h : countUnescaped '\x7b' false text = 0) :
    ∀ p ∈ piecesFrom balanced 0 text, p.IsFlat := by
  generalize hd : 0 = depth
  fun_induction piecesFrom balanced depth text with
  | case1 => exact List.forall_mem_nil _
  | case2 | case3 | case4 => simp [countUnescaped] at h
  | case5 depth c rest _ hc | case6 depth c rest _ _ hc => simp [← hd] at hc
  | case7 depth c rest hc _ _ _ ih =>
    have hr := countUnescaped_piecesAt (by decide) hc rest
    rw [List.forall_mem_append]
    exact ⟨isFlat_piecesAt c rest, ih (hr.trans h) hd⟩

end Glob

namespace Matcher
open Glob (countUnescaped)

/-- Without classes, or without braces, the expression of a header is one sequence. -/
theorem isSequence_of_ofHeader {pattern : Text} {m : Matcher}
    (h : countUnescaped '[' false pattern = 0 ∨ countUnescaped '\x7b' false pattern = 0)
    (hm : ofHeader limit pattern ['/'] = .ok m) : m.regex.IsSequence := by
  have hr := Glob.readable_anchor pattern ['/']
  have ht := ofText_of_ofHeader hm
  rw [Glob.ofText_flatMap_text hr] at ht
  refine Regex.isSequence_of_tree ht ?_ Regex.Level.IsStraight.start
  cases h with
  | inl h => exact Glob.barsInside_anchor_top h
  | inr h =>
    have hc := (Glob.countUnescaped_anchor_top (by decide) pattern).trans h
    exact Glob.barsInside_flat (Glob.isFlat_piecesFrom hc) hr

/-- Below a directory a sequence is matched from the separator on at which the directory ends. -/
theorem matches?_below_withSlash {m : Matcher} (h : m.regex.IsSequence) (directory rest : Text) :
    (m.below directory).matches? (withSlash directory ++ rest) = m.matches? ('/' :: rest) := by
  have hd :
      (withSlash directory ++ rest).dropPrefix? (Glob.stem directory) = some ('/' :: rest) := by
    rw [Text.dropPrefix?_iff, Glob.withSlash_eq, List.append_assoc]
    rfl
  rw [matches?, matches?, below, Regex.fullMatch?, Regex.search_leading_of_isSequence h,
    Regex.search_literal, hd, Option.bind_some, Regex.groups_leading, Regex.groups_literal,
    Nat.zero_add]
  rfl

end Matcher

section
variable {pattern : Text}
  (h : Glob.countUnescaped '[' false pattern = 0 ∨ Glob.countUnescaped '\x7b' false pattern = 0)
include h

/-- Below its directory a header is matched as it is at the top. -/
theorem headerMatches_withSlash (directory rest : Text) :
    headerMatches limit directory pattern (withSlash directory ++ rest) =
      (Matcher.ofHeader limit pattern ['/']).bind fun m => m.matches? ('/' :: rest) := by
  rw [headerMatches_eq]
  cases hm : Matcher.ofHeader limit pattern ['/'] with
  | error e => rfl
  | ok m =>
    exact Matcher.matches?_below_withSlash (Matcher.isSequence_of_ofHeader h hm) directory rest

/-- A header without classes, or without braces, gives the same answer or fails for the same
cause below every directory. -/
theorem headerMatches_relocated (directory directory' rest : Text) :
    headerMatches limit directory pattern (withSlash directory ++ rest) =
      headerMatches limit directory' pattern (withSlash directory' ++ rest) := by
  rw [headerMatches_withSlash h, headerMatches_withSlash h]

end

/-- A class and a lone brace, below a directory whose name looks like the beginning of a glob. -/
theorem headerMatches_relocated_glob_name :
    headerMatches 100 "/\x7b[!\n,\\".toList "x[!,]\x7d\\\x7b".toList
      (withSlash "/\x7b[!\n,\\".toList ++ "d/x.\x7d\x7b".toList) = .ok true :=
  (headerMatches_relocated (.inr (by decide)) "/\x7b[!\n,\\".toList "/".toList
    "d/x.\x7d\x7b".toList).trans (by decide +kernel)

end EditorConfig
