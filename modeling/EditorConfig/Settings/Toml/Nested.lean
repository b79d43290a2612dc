import EditorConfig.Settings.Toml.Number

/-! TOML: values, and tables that are changed along a path of keys. -/
namespace EditorConfig.Toml

/-- Changes the table that a path leads to and makes the tables on the way that are missing. A
list on the way stands for its last table, if lists may be entered at all. -/
def alterAt (enterLists : Bool) (change : Table → Except ReadFailure Table) :
    List Text → Table → Except ReadFailure Table
  | [], table => change table
  | k :: path, table =>
    match Entries.get? k table with
    | none => do return Entries.set k (.table (← alterAt enterLists change path [])) table
    | some (.table inner) => do
      return Entries.set k (.table (← alterAt enterLists change path inner)) table
    | some (.list items) =>
      match enterLists, items.getLast? with
      | true, some (.table inner) => do
        return Entries.set k
          (.list (items.dropLast ++ [.table (← alterAt enterLists change path inner)])) table
      | _, _ => .error .invalid
    | some _ => .error .invalid

def setNew (k : Text) (value : Value) (table : Table) : Except ReadFailure Table :=
  match Entries.get? k table with
  | some _ => .error .invalid
  | none => .ok (Entries.set k value table)

def isBelow (keys : List (List Text)) (k : List Text) : Bool := keys.any (·.isPrefixOf k)

def isNested : Value → Bool
  | .list _ | .table _ => true
  | _ => false

def comment : Text → Except ReadFailure Text
  | '#' :: rest =>
    let (body, rest) := rest.span (· != '\n')
    if body.any isControl then .error .invalid else .ok rest
  | rest => .ok rest

def skipLines : Nat → Text → Except ReadFailure Text
  | 0, text => .ok text
  | fuel + 1, text =>
    match text.dropWhile isLineSpace with
    | '#' :: rest => do skipLines fuel (← comment ('#' :: rest))
    | rest => .ok rest

section Values
variable (limit : Nat)

mutual

/-- A value inside of `depth` brackets and braces. The fuel bounds how many values and separators
are read. -/
def valueWith : Nat → Nat → Reader Value
  | 0, _, _ => .error .invalid
  | fuel + 1, depth, text =>
    if limit < depth then .error .tooDeep
    else match text with
    | '"' :: '"' :: '"' :: rest => do
      let (t, rest) ← ofOption (longBasicText? (dropLineEnd rest))
      return (.text t, rest)
    | '\'' :: '\'' :: '\'' :: rest => do
      let (t, rest) ← ofOption (longLiteralText? (dropLineEnd rest))
      return (.text t, rest)
    | '"' :: rest => do
      let (t, rest) ← ofOption (basicText? rest)
      return (.text t, rest)
    | '\'' :: rest => do
      let (t, rest) ← ofOption (literalText? rest)
      return (.text t, rest)
    | 't' :: 'r' :: 'u' :: 'e' :: rest => .ok (.boolean true, rest)
    | 'f' :: 'a' :: 'l' :: 's' :: 'e' :: rest => .ok (.boolean false, rest)
    | '[' :: rest => do
      let (items, rest) ← itemsWith fuel (depth + 1) (← skipLines rest.length rest)
      return (.list items, rest)
    | '{' :: rest =>
      match skipSpace rest with
      | '}' :: rest => .ok (.table [], rest)
      | rest => do
        let (table, rest) ← inlineWith fuel (depth + 1) [] [] rest
        return (.table table, rest)
    | _ => plainValue text

def itemsWith : Nat → Nat → Reader (List Value)
  | 0, _, _ => .error .invalid
  | fuel + 1, depth, text =>
    match text with
    | ']' :: rest => .ok ([], rest)
    | _ => do
      let (item, rest) ← valueWith fuel depth text
      match ← skipLines rest.length rest with
      | ']' :: rest => return ([item], rest)
      | ',' :: rest =>
        let (items, rest) ← itemsWith fuel depth (← skipLines rest.length rest)
        return (item :: items, rest)
      | _ => throw .invalid

/-- The entries of an inline table up to its end, behind those in `table`. Keys in `closed` hold
values that are complete. -/
def inlineWith : Nat → Nat → Table → List (List Text) → Reader Table
  | 0, _, _, _, _ => .error .invalid
  | fuel + 1, depth, table, closed, text => do
    let (k, rest) ← key text
    match rest with
    | '=' :: rest =>
      let (value, rest) ← valueWith fuel depth (skipSpace rest)
      if isBelow closed k then throw .invalid
      let table ← alterAt false (setNew (k.getLastD []) value) k.dropLast table
      match skipSpace rest with
      | '}' :: rest => return (table, rest)
      | ',' :: rest =>
        let closed := if isNested value then k :: closed else closed
        inlineWith fuel depth table closed (skipSpace rest)
      | _ => throw .invalid
    | _ => throw .invalid

end

def value : Reader Value := fun text => valueWith limit (2 * text.length + 1) 0 text

def pair : Reader (List Text × Value) := fun text => do
  let (k, rest) ← key text
  match rest with
  | '=' :: rest =>
    let (v, rest) ← value limit (skipSpace rest)
    return ((k, v), rest)
  | _ => throw .invalid

end Values

end EditorConfig.Toml
