import EditorConfig.Source.Statement
import EditorConfig.Properties
import EditorConfig.Observer

/-! A file as a list of sections, and how it is read. Every line is read, even behind a bad one,
so that an error names all bad lines. -/
namespace EditorConfig

structure Section where
  header : Text
  options : Properties
  line : Text

structure Source where
  isRoot : Bool
  sections : List Section

namespace Source

def split : List Statement → List (Text × Text) × List Section
  | [] => ([], [])
  | .option key value :: rest =>
    let after := split rest
    ((key, value) :: after.1, after.2)
  | .header pattern line :: rest =>
    let after := split rest
    let options := after.1.map fun e => (e.1, withoutComment e.2)
    ([], ⟨pattern, .ofList options, line⟩ :: after.2)
  | .skipped :: rest | .malformed _ :: rest => split rest

/-- Before the first header only the last word on the root counts. -/
def declaresRoot (options : List (Text × Text)) : Bool :=
  (OrderedMap.ofList options).get? "root".toList |>.any (Text.lower · = "true".toList)

def ofStatements (statements : List Statement) : Source :=
  ⟨declaresRoot (split statements).1, (split statements).2⟩

def readLines (limit : Nat) (observer : Observer) : List Text → Watched (List Statement)
  | [] => pure []
  | line :: rest => do
    Watched.report (.line line)
    let statement ←
      if observer.line line then Watched.ofExcept (Statement.read limit line) else pure .skipped
    (statement :: ·) <$> readLines limit observer rest

def ofText (limit : Nat) (observer : Observer) (text : Text) : Watched Source := do
  let statements ← readLines limit observer ((Text.lines text).map Text.bareLine)
  match statements.filterMap Statement.malformed? with
  | [] => return ofStatements statements
  | lines => Watched.fail (.malformed lines none)

end Source
end EditorConfig
