import EditorConfig.Settings.Value

/-! TOML: quoted texts and keys. Every reader takes a beginning of the text and gives what is left.
-/
namespace EditorConfig.Toml

inductive ReadFailure where
  | invalid
  | numeralTooLong
  /-- There is no room for more arrays and inline tables inside of one another. -/
  | tooDeep
  deriving DecidableEq, Repr

abbrev Reader (α : Type) := Text → Except ReadFailure (α × Text)

def ofOption {α : Type} : Option α → Except ReadFailure α
  | some a => .ok a
  | none => .error .invalid

def isSpace (c : Char) : Bool := c == ' ' || c == '\t'

def skipSpace (text : Text) : Text := text.dropWhile isSpace

def isControl (c : Char) : Bool := (c.toNat < 0x20 && c != '\t') || c.toNat == 0x7F

def hexValue? (c : Char) : Option Nat :=
  if c.isDigit then some (c.toNat - '0'.toNat)
  else if 'a' ≤ c ∧ c ≤ 'f' then some (c.toNat - 'a'.toNat + 10)
  else if 'A' ≤ c ∧ c ≤ 'F' then some (c.toNat - 'A'.toNat + 10)
  else none

def ofDigits (base : Nat) (digits : List Nat) : Nat := digits.foldl (fun n d => base * n + d) 0

def hexChar? (count : Nat) (text : Text) : Option (Char × Text) :=
  match (text.take count).mapM hexValue? with
  | some digits =>
    let n := ofDigits 16 digits
    if digits.length = count ∧ n.isValidChar then some (Char.ofNat n, text.drop count) else none
  | none => none

def escaped? : Text → Option (Char × Text)
  | 'b' :: rest => some ('\x08', rest)
  | 't' :: rest => some ('\t', rest)
  | 'n' :: rest => some ('\n', rest)
  | 'f' :: rest => some ('\x0c', rest)
  | 'r' :: rest => some ('\r', rest)
  | '"' :: rest => some ('"', rest)
  | '\\' :: rest => some ('\\', rest)
  | 'u' :: rest => hexChar? 4 rest
  | 'U' :: rest => hexChar? 8 rest
  | _ => none

theorem escaped?_length_lt {text rest : Text} {c : Char} (h : escaped? text = some (c, rest)) :
    rest.length < text.length := by
  unfold escaped? at h
  split at h
  case h_8 | h_9 =>
    unfold hexChar? at h
    split at h
    · simp only at h
      split at h
      · simp only [Option.some.injEq, Prod.mk.injEq] at h
        simp only [← h.2, List.length_drop, List.length_cons]
        omega
      · simp at h
    · simp at h
  all_goals simp_all

def basicText? (text : Text) : Option (Text × Text) :=
  match text with
  | [] => none
  | '"' :: rest => some ([], rest)
  | '\\' :: rest =>
    match h : escaped? rest with
    | some (c, rest') =>
      have := escaped?_length_lt h
      (basicText? rest').map fun (u, v) => (c :: u, v)
    | none => none
  | c :: rest => if isControl c then none else (basicText? rest).map fun (u, v) => (c :: u, v)
termination_by text.length

def literalText? : Text → Option (Text × Text)
  | [] => none
  | '\'' :: rest => some ([], rest)
  | c :: rest => if isControl c then none else (literalText? rest).map fun (u, v) => (c :: u, v)

def isLineSpace (c : Char) : Bool := isSpace c || c == '\n'

/-- What a backslash at the end of a line goes on with. -/
def nextLine? (text : Text) : Option Text :=
  match skipSpace text with
  | '\n' :: rest => some (rest.dropWhile isLineSpace)
  | _ => none

def longEscaped? (text : Text) : Option (Text × Text) :=
  match nextLine? text with
  | some rest => some ([], rest)
  | none => (escaped? text).map fun (c, rest) => ([c], rest)

theorem longEscaped?_length_lt {text rest u : Text} (h : longEscaped? text = some (u, rest)) :
    rest.length < text.length := by
  unfold longEscaped? at h
  split at h
  next last hn =>
    cases h
    unfold nextLine? at hn
    split at hn
    next body hs =>
      cases hn
      have hd := (List.dropWhile_suffix (l := text) isSpace).length_le
      have hb := (List.dropWhile_suffix (l := body) isLineSpace).length_le
      rw [skipSpace] at hs
      rw [hs, List.length_cons] at hd
      omega
    next => cases hn
  next =>
    obtain ⟨⟨c, last⟩, he, hr⟩ := Option.map_eq_some_iff.1 h
    cases hr
    exact escaped?_length_lt he

/-- Up to two more marks behind the three that end a text belong to it. -/
def closing (mark : Char) (rest : Text) : Text × Text :=
  let more := (rest.take 2).takeWhile (· == mark)
  (more, rest.drop more.length)

def longBasicText? (text : Text) : Option (Text × Text) :=
  match text with
  | [] => none
  | '"' :: '"' :: '"' :: rest => some (closing '"' rest)
  | '\\' :: rest =>
    match h : longEscaped? rest with
    | none => none
    | some (t, rest') =>
      have := longEscaped?_length_lt h
      (longBasicText? rest').map fun (u, v) => (t ++ u, v)
  | c :: rest =>
    if isControl c && c != '\n' then none else (longBasicText? rest).map fun (u, v) => (c :: u, v)
termination_by text.length

def longLiteralText? : Text → Option (Text × Text)
  | [] => none
  | '\'' :: '\'' :: '\'' :: rest => some (closing '\'' rest)
  | c :: rest =>
    if isControl c && c != '\n' then none
    else (longLiteralText? rest).map fun (u, v) => (c :: u, v)

def dropLineEnd : Text → Text
  | '\n' :: rest => rest
  | text => text

def isKeyChar (c : Char) : Bool := c.isAlphanum || c == '-' || c == '_'

def keyPart? : Text → Option (Text × Text)
  | '"' :: rest => basicText? rest
  | '\'' :: rest => literalText? rest
  | text =>
    match text.takeWhile isKeyChar with
    | [] => none
    | part => some (part, text.dropWhile isKeyChar)

def keyParts? : Nat → Text → Option (List Text × Text)
  | 0, _ => none
  | fuel + 1, text => do
    let (part, rest) ← keyPart? text
    match skipSpace rest with
    | '.' :: rest =>
      let (parts, rest) ← keyParts? fuel (skipSpace rest)
      return (part :: parts, rest)
    | rest => return ([part], rest)

def key : Reader (List Text) := fun text => ofOption (keyParts? (text.length + 1) text)

end EditorConfig.Toml
