import EditorConfig.Numeral
import EditorConfig.Error
import EditorConfig.Regex.Basic

/-! Numeric ranges `n..m` of a glob. -/
namespace EditorConfig

structure Bounds where
  low : Numeral
  high : Numeral
  deriving DecidableEq, Repr

def Bounds.ofText? (text : Text) : Option Bounds :=
  match Numeral.read? text with
  | some (low, '.' :: '.' :: rest) =>
    match Numeral.read? rest with
    | some (high, []) => some ⟨low, high⟩
    | _ => none
  | _ => none

def Bounds.isTooLong (b : Bounds) : Bool := b.low.isTooLong || b.high.isTooLong

structure NumericRange where
  min : Int
  max : Int
  deriving DecidableEq, Repr

def Bounds.range (b : Bounds) : NumericRange := ⟨b.low.value, b.high.value⟩

namespace NumericRange

def has (r : NumericRange) (n : Int) : Bool := r.min ≤ n && n ≤ r.max

/-- Whether captured digits spell a number of the range. Spellings with a leading zero spell no
number, and neither does a group that the match went past. -/
def accepts (r : NumericRange) : Option Text → Except Error Bool
  | none => .ok false
  | some digits =>
    if digits.head? = some '0' then .ok false
    else if Numeral.maxDigits < digits.length then .error .numeralTooLong
    else .ok (r.has (Numeral.natValue digits))

def acceptAll : List NumericRange → Captures → Except Error Bool
  | [], _ => .ok true
  | _ :: _, [] => .error .missingGroup
  | r :: ranges, c :: captures => do
    if ← r.accepts c then acceptAll ranges captures else return false

end NumericRange
end EditorConfig
