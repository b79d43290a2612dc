import EditorConfig.Cascade
import EditorConfig.Command.Arguments
import EditorConfig.Settings.User
import EditorConfig.Text.Plain

/-! What a command relies on beside files and variables: a reader of documents, a parser of
command lines, the place where it prints, and the room on its stack. -/
namespace EditorConfig.Command

/-- Where a command prints. Control sequences reach a terminal only, and not every encoding can
write every text. -/
structure Console where
  terminal : Bool
  encodes : Text → Bool

namespace Console

def line (console : Console) (text : Text) : Text := Text.shown console.terminal (text ++ ['\n'])

def prints (console : Console) (text : Text) : Bool := console.encodes (console.line text)

end Console

structure Host where
  readDocument : Text → Except Toml.ReadFailure Table
  parser : Parser
  console : Console
  limits : Limits
  /-- How many calls there is room for where a header is checked by itself. -/
  checkLimit : Nat
  /-- How many directories may be made for the log. -/
  makeLimit : Nat

end EditorConfig.Command
