import EditorConfig.Numeral
import EditorConfig.Error

/-! Versions of the format. Of a version's text only the first three components count; one that
is not a decimal number, or is not there, sorts below every number. -/
namespace EditorConfig

structure Version where
  major : Int
  minor : Int
  patch : Int
  deriving DecidableEq, Repr

namespace Version

def component (text : Text) : Except Error Int :=
  match text.mapM Text.digitValue? with
  | some (d :: digits) =>
    if Numeral.maxDigits < text.length then .error .numeralTooLong
    else .ok (Numeral.ofDigitValues (d :: digits))
  | _ => .ok (-1)

def ofText (text : Text) : Except Error Version := do
  let parts := text.splitOnP fun c => c == '.' || c == '-'
  let part (i : Nat) := (parts[i]?.map component).getD (.ok (-1))
  return ⟨← part 0, ← part 1, ← part 2⟩

def difference (a b : Version) : Int :=
  if a.major ≠ b.major then a.major - b.major
  else if a.minor ≠ b.minor then a.minor - b.minor
  else a.patch - b.patch

end Version

/-- Negative, zero or positive as the first version is older than, level with or newer than the
second. -/
def Version.gap (a b : Text) : Except Error Int := do
  return (← Version.ofText a).difference (← Version.ofText b)

def Version.require (required : Text) : Except Error Unit := do
  if 0 < (← Version.gap required currentVersion) then throw (.newerVersion required)

end EditorConfig
