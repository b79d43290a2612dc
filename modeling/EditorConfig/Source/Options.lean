import EditorConfig.Source.Basic

/-! The options of a source for a path: those of every section that matches, later ones first in
force. A header that cannot be made out is an error, but the other sections are visited first. -/
namespace EditorConfig

inductive Visit where
  | unreadable (line : Text)
  | options (accepted : List (Text × Text))
  deriving DecidableEq, Repr

namespace Visit

def unreadable? : Visit → Option Text
  | .unreadable line => some line
  | .options _ => none

def accepted : Visit → List (Text × Text)
  | .unreadable _ => []
  | .options accepted => accepted

end Visit

def offer (observer : Observer) : List (Text × Text) → Watched (List (Text × Text))
  | [] => pure []
  | (key, value) :: rest => do
    Watched.report (.option key value)
    if observer.option key value then ((key, value) :: ·) <$> offer observer rest
    else offer observer rest

def Section.visit (limit : Nat) (observer : Observer) (path directory : Text) (s : Section) :
    Watched Visit :=
  match headerMatches limit directory s.header path with
  | .ok true => Visit.options <$> offer observer s.options.entries
  | .ok false => pure (.options [])
  | .error (.invalidPattern _) => pure (.unreadable s.line)
  | .error e => Watched.fail e

namespace Source

def visitAll (limit : Nat) (observer : Observer) (path directory : Text) :
    List Section → Watched (List Visit)
  | [] => pure []
  | s :: rest => do
    let visit ← s.visit limit observer path directory
    (visit :: ·) <$> visitAll limit observer path directory rest

def options (source : Source) (limit : Nat) (observer : Observer) (path directory : Text) :
    Watched Properties := do
  let visits ← visitAll limit observer path directory source.sections
  match visits.filterMap Visit.unreadable? with
  | [] => return .ofList (visits.flatMap Visit.accepted)
  | lines => Watched.fail (.malformed lines none)

end Source
end EditorConfig
