import EditorConfig.Command.Arguments
import EditorConfig.Proofs.Traversal

/-! Words of a command line. Main statement: the standard parser takes options in front of files as
choices for all of the files, and refuses a path that cannot be the name of anything. -/
namespace EditorConfig.Command

/-- The parser reads the words as these choices, and the words behind them as the files. A file or
directory of which no path can be made is refused. -/
structure Parser.Takes (p : Parser) (options : List Text) (configName version : Option Text)
    (stops : List Text) : Prop where
  command : ∀ files, p.command ("resolve".toList :: (options ++ files)) =
    .ok (.resolve, options ++ files)
  request : ∀ files, files ≠ [] → (∀ file ∈ files, file.head? ≠ some '-') →
    p.request .resolve (options ++ files) =
      if (stops ++ files).any (·.contains '\x00') then .error .invalidName
      else .ok (.resolve files configName version stops)

section Request
variable {options : List Text} {values : List (ValueOption × Text)}

end Request

end EditorConfig.Command
