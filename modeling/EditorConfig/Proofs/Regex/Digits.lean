import EditorConfig.Proofs.Numeral
import EditorConfig.Proofs.Regex.Reading

/-! Groups of digits. Main statement: a group of digits takes all digits there are, if nothing
behind it begins with one. -/
namespace EditorConfig.Regex
variable {α : Type}

def digit : CharSet := .oneOf [.span '0' '9']

def digits : Regex := .seq (.seq .empty (.one digit)) (.many digit)

/-- The items of `([0-9]+)`. -/
theorem items_digits (marks : List Mark) :
    items (.bare '(' :: .bare '[' :: .bare '0' :: .bare '-' :: .bare '9' :: .bare ']' ::
      .bare '+' :: .bare ')' :: marks) =
        .opening true :: .one digit :: .many digit :: .closing :: items marks := by
  have hc : charSet? (.bare '[' :: .bare '0' :: .bare '-' :: .bare '9' :: .bare ']' ::
      .bare '+' :: .bare ')' :: marks) = some (digit, .bare '+' :: .bare ')' :: marks) := by
    simp [charSet?, members?, Mark.char, digit]
  rw [items.eq_3 _ (by simp), items_of_charSet? hc (by simp), repeated, items.eq_5]
  rfl

theorem tree_digits {limit : Nat} (outer : List Level) (current : Level) (next : Nat)
    (items : List Item) :
    tree limit outer current next
        (.opening true :: .one digit :: .many digit :: .closing :: items) =
      if limit < 2 * outer.length + 3 then .error .tooDeep
      else tree limit outer (current.push (.group next digits)) (next + 1) items := by
  have hm : 2 * (current :: outer).length + 1 = 2 * outer.length + 3 := by
    rw [List.length_cons]
    omega
  rw [tree]
  by_cases ho : limit < 2 * outer.length + 2
  · rw [if_pos ho, if_pos (by omega)]
  · rw [if_neg ho, if_pos rfl, ← hm]
    rfl

theorem has_digit (c : Char) : digit.has c = c.isDigit := by
  simp [digit, CharSet.has, ClassItem.has, Char.isDigit, Char.le_def]

/-- A repetition takes as much as it can if nothing may follow that it could have taken. -/
theorem searchMany_eq_dropWhile {set : CharSet} {next : Text → Option α}
    (h : ∀ c rest, set.has c = true → next (c :: rest) = none) (text : Text) :
    searchMany set next text = next (text.dropWhile set.has) := by
  induction text with
  | nil => rfl
  | cons c rest ih =>
    rw [searchMany]
    cases hc : set.has c with
    | true => simp [hc, ih, h c rest hc]
    | false => simp [hc]

theorem search_digits {next : Text → Captures → Option α} {caps : Captures}
    (h : ∀ c rest, c.isDigit = true → next (c :: rest) caps = none) (text : Text) :
    digits.search text caps next =
      if text.takeWhile Char.isDigit = [] then none
      else next (text.dropWhile Char.isDigit) caps := by
  have hs : digit.has = Char.isDigit := funext has_digit
  have hm : ∀ c rest, digit.has c = true → next (c :: rest) caps = none :=
    fun c rest hc => h c rest (has_digit c ▸ hc)
  cases text with
  | nil => rfl
  | cons c rest =>
    simp only [digits, search]
    rw [searchMany_eq_dropWhile hm, hs]
    cases hc : c.isDigit <;> simp [hc]

/-- A group of digits holds all digits there are. -/
theorem search_group_digits {next : Text → Captures → Option α}
    (h : ∀ c rest caps, c.isDigit = true → next (c :: rest) caps = none) (index : Nat) (text : Text)
    (caps : Captures) :
    (group index digits).search text caps next =
      if text.takeWhile Char.isDigit = [] then none
      else next (text.dropWhile Char.isDigit)
        (caps.set index (some (text.takeWhile Char.isDigit))) := by
  have hl := congrArg List.length (@List.takeWhile_append_dropWhile Char Char.isDigit text)
  have hn : text.length - (text.dropWhile Char.isDigit).length =
      (text.takeWhile Char.isDigit).length := by
    rw [List.length_append] at hl
    omega
  have ht : text.take (text.length - (text.dropWhile Char.isDigit).length) =
      text.takeWhile Char.isDigit := by
    rw [hn, ← List.prefix_iff_eq_take.1 (List.takeWhile_prefix Char.isDigit)]
  have hs := @search_digits α
    (fun rest caps => next rest (caps.set index (some (text.take (text.length - rest.length)))))
    caps (fun c rest hc => h c rest _ hc) text
  rwa [ht] at hs

end EditorConfig.Regex
