import EditorConfig.OrderedMap
import EditorConfig.Text.Basic

/-! Values of a user's settings, and how one set of settings overrides another. -/
namespace EditorConfig

inductive Value where
  | null
  | boolean (b : Bool)
  | integer (n : Int)
  | text (t : Text)
  /-- Anything else without parts, such as a fraction or a date, as it is written. -/
  | other (written : Text)
  | list (items : List Value)
  | table (entries : List (Text × Value))
  deriving Inhabited

abbrev Table := List (Text × Value)

namespace Value

mutual

/-- What holds at a place where `old` held and `new` is set: two tables are joined, and anything
else is replaced. -/
def overriddenBy (old : Value) : Value → Value
  | .table new =>
    match old with
    | .table entries => .table (overrideAll entries new)
    | _ => .table new
  | .null => .null
  | .boolean b => .boolean b
  | .integer n => .integer n
  | .text t => .text t
  | .other written => .other written
  | .list items => .list items

def overrideAll (old : Table) : Table → Table
  | [] => old
  | entry :: rest => overrideAll (overrideEntry old entry) rest

def overrideEntry (old : Table) : Text × Value → Table
  | (key, new) =>
    Entries.set key
      (match Entries.get? key old with
        | some value => overriddenBy value new
        | none => new)
      old

end

end Value
end EditorConfig
