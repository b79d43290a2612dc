import EditorConfig.Proofs.Numeral
import EditorConfig.Settings.Toml.Token

/-! Quoted texts and keys of a TOML document. Main statement: what is left behind one of them is an
end of the text. -/
namespace EditorConfig.Toml

def unseparated (text : Text) : Text := text.filter (· ≠ '_')

def FewDigits (text : Text) : Prop := Text.ShortRuns (unseparated text)

def isOpening (c : Char) : Bool := c == '[' || c == '{'

/-- A text inside of `depth` arrays and inline tables gives reason for the failure. -/
def IsDue (limit depth : Nat) (text : Text) : ReadFailure → Prop
  | .invalid => True
  | .numeralTooLong => ¬ FewDigits text
  | .tooDeep => limit < depth + text.countP isOpening

/-- The result is good, or the text gives reason for the failure. -/
def Yields {α : Type} (limit depth : Nat) (text : Text) (good : α → Prop) :
    Except ReadFailure α → Prop
  | .ok a => good a
  | .error e => IsDue limit depth text e

structure Leaves {α : Type} (text : Text) (good : α → Prop) (read : α × Text) : Prop where
  good : good read.1
  suffix : read.2 <:+ text

section Results
variable {α β : Type} {good : α → Prop} {good' : β → Prop} {limit depth : Nat} {text rest : Text}

theorem FewDigits.of_suffix (h : FewDigits text) (hs : rest <:+ text) : FewDigits rest :=
  fun run hr hd => h run (hr.trans (hs.filter _).isInfix) hd

theorem IsDue.of_suffix {e : ReadFailure} (h : IsDue limit depth rest e) (hs : rest <:+ text) :
    IsDue limit depth text e := by
  cases e with
  | invalid => trivial
  | numeralTooLong => exact fun hf => h (hf.of_suffix hs)
  | tooDeep =>
    have hl := hs.sublist.countP_le (p := isOpening)
    exact Nat.lt_of_lt_of_le h (Nat.add_le_add_left hl depth)

/-- Behind an opening bracket or brace a text stands one deeper. -/
theorem IsDue.enter {e : ReadFailure} {c : Char} (h : IsDue limit (depth + 1) text e)
    (hc : isOpening c = true) : IsDue limit depth (c :: text) e := by
  cases e with
  | invalid => trivial
  | numeralTooLong => exact fun hf => h (hf.of_suffix (List.suffix_cons c text))
  | tooDeep =>
    have hd : limit < depth + 1 + text.countP isOpening := h
    rw [IsDue, List.countP_cons_of_pos hc]
    omega

theorem Yields.bind {x : Except ReadFailure α} {next : α → Except ReadFailure β}
    (hx : Yields limit depth text good x)
    (hn : ∀ a, good a → Yields limit depth text good' (next a)) :
    Yields limit depth text good' (x >>= next) := by
  cases x with
  | error e => exact hx
  | ok a => exact hn a hx

theorem Yields.mono {good' : α → Prop} {x : Except ReadFailure α}
    (hx : Yields limit depth text good x) (h : ∀ a, good a → good' a) : Yields limit depth text good' x := by
  cases x with
  | error e => exact hx
  | ok a => exact h a hx

theorem Yields.of_suffix {x : Except ReadFailure α} (hx : Yields limit depth rest good x)
    (hs : rest <:+ text) : Yields limit depth text good x := by
  cases x with
  | error e => exact IsDue.of_suffix hx hs
  | ok a => exact hx

theorem Yields.enter {x : Except ReadFailure α} {c : Char}
    (hx : Yields limit (depth + 1) text good x) (hc : isOpening c = true) : Yields limit depth (c :: text) good x := by
  cases x with
  | error e => exact IsDue.enter hx hc
  | ok a => exact hx

theorem Yields.widen {x : Except ReadFailure (α × Text)}
    (hx : Yields limit depth rest (Leaves rest good) x) (hs : rest <:+ text) :
    Yields limit depth text (Leaves text good) x :=
  (hx.of_suffix hs).mono fun _ h => ⟨h.good, h.suffix.trans hs⟩

theorem yields_ofOption {o : Option α} (h : ∀ a, o = some a → good a) :
    Yields limit depth text good (ofOption o) := by
  cases o with
  | none => trivial
  | some a => exact h a rfl

end Results

theorem skipSpace_suffix (text : Text) : skipSpace text <:+ text := List.dropWhile_suffix isSpace

theorem skipSpace_behind {c : Char} {rest text : Text} (h : c :: rest <:+ text) :
    skipSpace rest <:+ text :=
  ((skipSpace_suffix rest).trans (List.suffix_cons c rest)).trans h

section Texts
variable {limit : Nat} {text rest : Text}

/-- What is put in front of a text that is read makes no difference to what is left. -/
theorem exists_of_map {o : Option (Text × Text)} {add : Text → Text} {t : Text}
    (h : o.map (fun (u, v) => (add u, v)) = some (t, rest)) : ∃ u, o = some (u, rest) := by
  obtain ⟨⟨u, v⟩, ho, hr⟩ := Option.map_eq_some_iff.1 h
  cases hr
  exact ⟨u, ho⟩

theorem escaped?_suffix {c : Char} (h : escaped? text = some (c, rest)) : rest <:+ text := by
  unfold escaped? at h
  split at h
  case h_8 | h_9 =>
    rename_i body
    unfold hexChar? at h
    split at h
    · simp only at h
      split at h
      · simp only [Option.some.injEq, Prod.mk.injEq] at h
        rw [← h.2]
        exact (List.drop_suffix _ body).trans (List.suffix_cons _ body)
      · cases h
    · cases h
  all_goals cases h
  all_goals exact List.suffix_cons _ _

theorem basicText?_suffix {t : Text} (h : basicText? text = some (t, rest)) : rest <:+ text := by
  fun_induction basicText? text generalizing t with
  | case1 => cases h
  | case2 body =>
    cases h
    exact List.suffix_cons _ _
  | case3 body c after he _ ih =>
    obtain ⟨u, hu⟩ := exists_of_map h
    exact ((ih hu).trans (escaped?_suffix he)).trans (List.suffix_cons _ _)
  | case4 => cases h
  | case5 => cases h
  | case6 c body _ _ _ ih =>
    obtain ⟨u, hu⟩ := exists_of_map h
    exact (ih hu).trans (List.suffix_cons _ _)

theorem literalText?_suffix {t : Text} (h : literalText? text = some (t, rest)) :
    rest <:+ text := by
  fun_induction literalText? text generalizing t with
  | case1 => cases h
  | case2 body =>
    cases h
    exact List.suffix_cons _ _
  | case3 => cases h
  | case4 c body _ _ ih =>
    obtain ⟨u, hu⟩ := exists_of_map h
    exact (ih hu).trans (List.suffix_cons _ _)

theorem nextLine?_suffix (h : nextLine? text = some rest) : rest <:+ text := by
  unfold nextLine? at h
  split at h
  next body hs =>
    have ht := skipSpace_suffix text
    cases h
    rw [hs] at ht
    exact ((List.dropWhile_suffix isLineSpace).trans (List.suffix_cons '\n' body)).trans ht
  next => cases h

theorem longEscaped?_suffix {t : Text} (h : longEscaped? text = some (t, rest)) :
    rest <:+ text := by
  unfold longEscaped? at h
  split at h
  next hn =>
    cases h
    exact nextLine?_suffix hn
  next =>
    obtain ⟨⟨c, last⟩, he, hr⟩ := Option.map_eq_some_iff.1 h
    cases hr
    exact escaped?_suffix he

theorem closing_suffix (mark : Char) (text : Text) : (closing mark text).2 <:+ text :=
  List.drop_suffix _ text

theorem longBasicText?_suffix {t : Text} (h : longBasicText? text = some (t, rest)) :
    rest <:+ text := by
  fun_induction longBasicText? text generalizing t with
  | case1 => cases h
  | case2 body =>
    have hc := closing_suffix '"' body
    rw [Option.some.inj h] at hc
    exact hc.trans ⟨['"', '"', '"'], rfl⟩
  | case3 => cases h
  | case4 body u after he _ ih =>
    obtain ⟨v, hv⟩ := exists_of_map h
    exact ((ih hv).trans (longEscaped?_suffix he)).trans (List.suffix_cons _ _)
  | case5 => cases h
  | case6 c body _ _ _ ih =>
    obtain ⟨u, hu⟩ := exists_of_map h
    exact (ih hu).trans (List.suffix_cons _ _)

theorem longLiteralText?_suffix {t : Text} (h : longLiteralText? text = some (t, rest)) :
    rest <:+ text := by
  fun_induction longLiteralText? text generalizing t with
  | case1 => cases h
  | case2 body =>
    have hc := closing_suffix '\'' body
    rw [Option.some.inj h] at hc
    exact hc.trans ⟨['\'', '\'', '\''], rfl⟩
  | case3 => cases h
  | case4 c body _ _ ih =>
    obtain ⟨u, hu⟩ := exists_of_map h
    exact (ih hu).trans (List.suffix_cons _ _)

theorem dropLineEnd_suffix (text : Text) : dropLineEnd text <:+ text := by
  unfold dropLineEnd
  split
  next rest => exact List.suffix_cons '\n' rest
  next => exact List.suffix_refl _

theorem keyPart?_suffix {part : Text} (h : keyPart? text = some (part, rest)) :
    rest <:+ text := by
  unfold keyPart? at h
  split at h
  next => exact (basicText?_suffix h).trans (List.suffix_cons _ _)
  next => exact (literalText?_suffix h).trans (List.suffix_cons _ _)
  next =>
    split at h
    next => cases h
    next =>
      cases h
      exact List.dropWhile_suffix isKeyChar

theorem keyParts?_suffix {fuel : Nat} {parts : List Text}
    (h : keyParts? fuel text = some (parts, rest)) : rest <:+ text := by
  induction fuel generalizing text parts with
  | zero => cases h
  | succ fuel ih =>
    rw [keyParts?] at h
    obtain ⟨⟨part, behind⟩, hp, h⟩ := Option.bind_eq_some_iff.1 h
    have hs : skipSpace behind <:+ text :=
      (skipSpace_suffix behind).trans (keyPart?_suffix hp)
    simp only at h
    split at h
    next further hd =>
      obtain ⟨⟨more, last⟩, hm, h⟩ := Option.bind_eq_some_iff.1 h
      cases h
      rw [hd] at hs
      exact (ih hm).trans (skipSpace_behind hs)
    next =>
      cases h
      exact hs

theorem yields_key (depth : Nat) (text : Text) :
    Yields limit depth text (Leaves text fun _ => True) (key text) :=
  yields_ofOption fun _ h => ⟨trivial, keyParts?_suffix h⟩

end Texts

end EditorConfig.Toml
