import EditorConfig.Path.Basic

/-! Normal forms of paths. Only spellings are compared: nothing here asks which files exist. -/
namespace EditorConfig.Path

/-- Exactly two separators in front are kept; any other number is as good as one. -/
def root (path : Text) : Text :=
  match path with
  | '/' :: '/' :: '/' :: _ => ['/']
  | '/' :: '/' :: _ => ['/', '/']
  | '/' :: _ => ['/']
  | _ => []

def components (path : Text) : List Text := path.splitOn '/'

/-- Adds a component to those kept so far, latest first. `..` takes one away; where there is none
it is kept, unless the path is absolute. -/
def step (absolute : Bool) (kept : List Text) (component : Text) : List Text :=
  if component = [] ∨ component = ['.'] then kept
  else if component = ['.', '.'] then
    match kept with
    | [] => if absolute then [] else [component]
    | top :: rest => if top = ['.', '.'] then component :: kept else rest
  else component :: kept

def ofComponents (root : Text) (components : List Text) : Text :=
  match root ++ ['/'].intercalate components with
  | [] => ['.']
  | path => path

def normal (path : Text) : Text :=
  ofComponents (root path)
    ((components path).foldl (step (!(root path).isEmpty)) []).reverse

def tidy (path : Text) : Text :=
  ofComponents (root path) ((components path).filter fun c => c != [] && c != ['.'])

def underHome (home rest : Text) : Text :=
  match Text.dropEndWhile (· == '/') home ++ rest with
  | [] => ['/']
  | path => path

/-- A tilde in place of the first component stands for the home directory. A name behind the
tilde is left as it is, but it has to be one that a user may have. -/
def expandHome? (home path : Text) : Option Text :=
  match path with
  | '~' :: rest =>
    let user := rest.takeWhile (· != '/')
    if user.isEmpty then some (underHome home rest)
    else if user.contains '\x00' then none
    else some path
  | _ => some path

def isAbsolute (path : Text) : Bool := path.head? = some '/'

def absolute (workingDirectory path : Text) : Text :=
  normal (if isAbsolute path then path else join workingDirectory path)

def canonical? (workingDirectory home path : Text) : Option Text :=
  (expandHome? home path).map fun expanded =>
    absolute workingDirectory
      (if isAbsolute expanded then expanded else join workingDirectory expanded)

end EditorConfig.Path
