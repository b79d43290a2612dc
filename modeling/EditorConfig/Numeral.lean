import EditorConfig.Text.Digit

/-! Decimal numerals. The digits are kept as written, because leading zeros count towards the
length that a numeral may have and towards nothing else. -/
namespace EditorConfig

structure Numeral where
  negative : Bool
  digits : Text
  deriving DecidableEq, Repr

namespace Numeral

def maxDigits : Nat := 4300

def ofDigitValues (values : List Nat) : Nat := values.foldl (fun n d => 10 * n + d) 0

def natValue (digits : Text) : Nat := ofDigitValues (digits.map fun c => c.toNat - '0'.toNat)

def value (n : Numeral) : Int :=
  if n.negative then -(natValue n.digits : Int) else natValue n.digits

def isTooLong (n : Numeral) : Bool := maxDigits < n.digits.length

def read? (text : Text) : Option (Numeral × Text) :=
  let (negative, rest) :=
    match text with
    | '-' :: rest => (true, rest)
    | '+' :: rest => (false, rest)
    | rest => (false, rest)
  match rest.takeWhile Char.isDigit with
  | [] => none
  | digits => some (⟨negative, digits⟩, rest.dropWhile Char.isDigit)

end Numeral
end EditorConfig
