import EditorConfig.Text.Plain
import Mathlib.Data.List.TakeWhile

/-! Texts of which control sequences are left out. Main statement: at a character that is in no
control sequence a text can be cut, and what is left of it is what is left of both parts. -/
namespace EditorConfig.Text

def isApart (c : Char) : Bool := c != '\x1b' && (c != '[' && (!isParameter c && !c.isAlpha))

variable {c : Char} {text rest : Text}

theorem plain_cons_of_none (h : behindControl? (c :: text) = none) :
    plain (c :: text) = c :: plain text := by
  rw [plain]
  split
  next hs =>
    rw [h] at hs
    cases hs
  next => rfl

theorem plain_of_some (h : behindControl? text = some rest) : plain text = plain rest := by
  cases text with
  | nil => cases h
  | cons c text =>
    rw [plain]
    split
    next hs =>
      rw [h] at hs
      cases hs
      rfl
    next hs =>
      rw [h] at hs
      cases hs

theorem behindControl?_of_ne (h : c ≠ '\x1b') (text : Text) :
    behindControl? (c :: text) = none := by
  unfold behindControl?
  split
  next he =>
    cases he
    exact absurd rfl h
  next => rfl

theorem behindControl?_escape (body : Text) :
    behindControl? ('\x1b' :: '[' :: body) =
      match body.dropWhile isParameter with
      | c :: rest => if c.isAlpha then some rest else none
      | [] => none := rfl

/-- Whether a control sequence begins a text, and where it ends, does not depend on what follows
a character that is in none. -/
theorem behindControl?_append (hc : isApart c = true) (u v : Text) :
    behindControl? (u ++ c :: v) = (behindControl? u).map (· ++ c :: v) := by
  simp only [isApart, Bool.and_eq_true, bne_iff_ne, Bool.not_eq_true'] at hc
  obtain ⟨he, hb, hp, ha⟩ := hc
  cases u with
  | nil => exact behindControl?_of_ne he v
  | cons d u =>
    by_cases hd : d = '\x1b'
    · subst hd
      cases u with
      | nil =>
        have hn : behindControl? ('\x1b' :: c :: v) = none := by
          unfold behindControl?
          split
          next h =>
            cases h
            exact absurd rfl hb
          next => rfl
        exact hn
      | cons d u =>
        by_cases hd : d = '['
        · subst hd
          rw [List.cons_append, List.cons_append, behindControl?_escape, behindControl?_escape,
            List.dropWhile_append]
          cases hu : u.dropWhile isParameter with
          | nil => simp [hp, ha]
          | cons d rest =>
            cases hl : d.isAlpha <;> simp [hl]
        · have hn : ∀ rest, behindControl? ('\x1b' :: d :: rest) = none := by
            intro rest
            unfold behindControl?
            split
            next h =>
              cases h
              exact absurd rfl hd
            next => rfl
          rw [List.cons_append, List.cons_append, hn, hn]
          rfl
    · rw [List.cons_append, behindControl?_of_ne hd, behindControl?_of_ne hd]
      rfl

theorem plain_cons_of_ne (h : c ≠ '\x1b') (text : Text) : plain (c :: text) = c :: plain text :=
  plain_cons_of_none (behindControl?_of_ne h text)

theorem plain_append_cons (hc : isApart c = true) (u v : Text) :
    plain (u ++ c :: v) = plain u ++ c :: plain v := by
  have he : c ≠ '\x1b' := by
    rintro rfl
    cases hc
  induction u using plain.induct with
  | case1 =>
    rw [plain]
    exact plain_cons_of_ne he v
  | case2 d u rest hs _ ih =>
    have ha : behindControl? (d :: u ++ c :: v) = some (rest ++ c :: v) := by
      rw [behindControl?_append hc, hs]
      rfl
    rw [plain_of_some ha, plain_of_some hs, ih]
  | case3 d u hn ih =>
    have ha : behindControl? (d :: (u ++ c :: v)) = none := by
      rw [← List.cons_append, behindControl?_append hc, hn]
      rfl
    rw [List.cons_append, plain_cons_of_none ha, plain_cons_of_none hn, ih, List.cons_append]

theorem shown_cons_of_ne (h : c ≠ '\x1b') (terminal : Bool) (text : Text) :
    shown terminal (c :: text) = c :: shown terminal text := by
  cases terminal with
  | false => exact plain_cons_of_ne h text
  | true => rfl

theorem shown_append_cons (hc : isApart c = true) (terminal : Bool) (u v : Text) :
    shown terminal (u ++ c :: v) = shown terminal u ++ c :: shown terminal v := by
  cases terminal with
  | false => exact plain_append_cons hc u v
  | true => rfl

theorem shown_nil (terminal : Bool) : shown terminal [] = [] := by
  cases terminal with
  | false => exact plain.eq_def []
  | true => rfl

end EditorConfig.Text
