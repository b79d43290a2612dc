import EditorConfig.Numeral
import EditorConfig.Settings.Toml.Token

/-! TOML: numbers, dates and times. Only a whole number is read as what it says; of all others
there is what is written. -/
namespace EditorConfig.Toml

def startsWithDigit (text : Text) : Bool := text.head?.any Char.isDigit

def digits (isDigit : Char → Bool) : Text → Text × Text
  | '_' :: c :: rest =>
    if isDigit c then
      let (u, v) := digits isDigit rest
      (c :: u, v)
    else ([], '_' :: c :: rest)
  | c :: rest =>
    if isDigit c then
      let (u, v) := digits isDigit rest
      (c :: u, v)
    else ([], c :: rest)
  | [] => ([], [])

def inBase (base : Nat) (text : Text) : Except ReadFailure (Value × Text) :=
  let isDigit (c : Char) := (hexValue? c).any (· < base)
  if text.head?.any isDigit then
    let (u, v) := digits isDigit text
    .ok (.integer (ofDigits base (u.filterMap hexValue?)), v)
  else .error .invalid

def afterSign : Text → Text
  | '+' :: rest => rest
  | '-' :: rest => rest
  | text => text

def afterDigits? (text : Text) : Option Text :=
  if startsWithDigit text then some (digits Char.isDigit text).2 else none

def afterFraction (text : Text) : Text :=
  match text with
  | '.' :: rest => (afterDigits? rest).getD text
  | _ => text

def afterExponent (text : Text) : Text :=
  match text with
  | 'e' :: rest | 'E' :: rest => (afterDigits? (afterSign rest)).getD text
  | _ => text

/-- The digits in front of a fraction or an exponent. A zero at the front is the only one. -/
def wholePart? : Text → Option (Text × Text)
  | '0' :: rest => some (['0'], rest)
  | text => if startsWithDigit text then some (digits Char.isDigit text) else none

def writtenBefore (rest text : Text) : Value × Text :=
  (.other (text.take (text.length - rest.length)), rest)

def afterName? (text : Text) : Option Text :=
  if "inf".toList.isPrefixOf text || "nan".toList.isPrefixOf text then some (text.drop 3) else none

def decimal (text : Text) : Except ReadFailure (Value × Text) :=
  match wholePart? (afterSign text) with
  | some (whole, behind) =>
    let rest := afterExponent (afterFraction behind)
    if rest.length < behind.length then .ok (writtenBefore rest text)
    else
      let n : Numeral := ⟨text.head? = some '-', whole⟩
      if n.isTooLong then .error .numeralTooLong else .ok (.integer n.value, behind)
  | none => ofOption ((afterName? (afterSign text)).map (writtenBefore · text))

def number : Reader Value
  | '0' :: 'x' :: rest => inBase 16 rest
  | '0' :: 'o' :: rest => inBase 8 rest
  | '0' :: 'b' :: rest => inBase 2 rest
  | text => decimal text

def after? (mark : Char) : Text → Option Text
  | c :: rest => if c = mark then some rest else none
  | [] => none

/-- A number that is written with so many digits. -/
def field? (count low high : Nat) (text : Text) : Option (Nat × Text) :=
  let part := text.take count
  let n := ofDigits 10 (part.filterMap hexValue?)
  if part.length = count ∧ part.all Char.isDigit ∧ low ≤ n ∧ n ≤ high then
    some (n, text.drop count)
  else none

def afterMinute? (text : Text) : Option Text := do
  let (_, rest) ← field? 2 0 23 text
  let (_, rest) ← field? 2 0 59 (← after? ':' rest)
  return rest

def afterTime? (text : Text) : Option Text := do
  let (_, rest) ← field? 2 0 59 (← after? ':' (← afterMinute? text))
  match rest with
  | '.' :: fraction =>
    return if startsWithDigit fraction then fraction.dropWhile Char.isDigit else rest
  | _ => return rest

def afterOffset (text : Text) : Text :=
  match text with
  | 'Z' :: rest | 'z' :: rest => rest
  | '+' :: rest | '-' :: rest => (afterMinute? rest).getD text
  | _ => text

def afterTimeOfDay (text : Text) : Text :=
  match text with
  | 'T' :: rest | 't' :: rest | ' ' :: rest => ((afterTime? rest).map afterOffset).getD text
  | _ => text

def daysIn (year month : Nat) : Nat :=
  if month = 2 then (if year % 4 = 0 ∧ (year % 100 ≠ 0 ∨ year % 400 = 0) then 29 else 28)
  else if [4, 6, 9, 11].contains month then 30
  else 31

/-- Whether there is such a day, and what is behind the date and the time of the day. -/
def date? (text : Text) : Option (Bool × Text) := do
  let (year, rest) ← field? 4 0 9999 text
  let (month, rest) ← field? 2 1 12 (← after? '-' rest)
  let (day, rest) ← field? 2 1 31 (← after? '-' rest)
  return (year ≠ 0 && day ≤ daysIn year month, afterTimeOfDay rest)

def plainValue : Reader Value := fun text =>
  match date? text, afterTime? text with
  | some (true, rest), _ => .ok (writtenBefore rest text)
  | some (false, _), _ => .error .invalid
  | none, some rest => .ok (writtenBefore rest text)
  | none, none => number text

end EditorConfig.Toml
