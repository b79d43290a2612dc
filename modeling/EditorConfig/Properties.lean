import EditorConfig.OrderedMap
import EditorConfig.Text.LowerCase

/-! The properties of a file: how the values of nearer files replace those of farther ones, and
the form in which they are given out. -/
namespace EditorConfig

namespace OrderedMap
variable {κ β : Type}

def mapValues (f : κ → β → β) (m : OrderedMap κ β) : OrderedMap κ β where
  entries := m.entries.map fun e => (e.1, f e.1 e.2)
  nodup := by simpa [Function.comp_def] using m.nodup

end OrderedMap

abbrev Properties := OrderedMap Text Text

namespace Properties

def overriddenBy (farther nearer : Properties) : Properties := farther.insertAll nearer.entries

def indentSize : Text := "indent_size".toList

def tabWidth : Text := "tab_width".toList

def lowerCaseKeys : List Text :=
  ["end_of_line".toList, "indent_style".toList, indentSize, "insert_final_newline".toList,
    "trim_trailing_whitespace".toList, "charset".toList]

def lowered (m : Properties) : Properties :=
  m.mapValues fun key value => if key ∈ lowerCaseKeys then Text.lower value else value

/-- Width of a tab and size of an indentation stand in for each other: an indentation of the
width of a tab takes that width, and without a width the size gives it. -/
def withWidths (m : Properties) : Properties :=
  match m.get? indentSize, m.get? tabWidth with
  | some size, some width => if size = "tab".toList then m.insert indentSize width else m
  | some size, none => if size = "tab".toList then m else m.insert tabWidth size
  | none, _ => m

def normalized (m : Properties) : Properties := m.lowered.withWidths

end Properties
end EditorConfig
