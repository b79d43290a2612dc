import EditorConfig.Settings.Toml.Nested

/-! TOML 1.0: documents. A table is declared once, a key is set once, and a value in brackets or
braces is complete where it stands. -/
namespace EditorConfig.Toml

structure Document where
  table : Table
  header : List Text
  /-- Keys of complete arrays and inline tables: nothing is added at or below them. -/
  closed : List (List Text)
  /-- Keys that are declared and not to be declared again. -/
  declared : List (List Text)
  /-- Keys that dotted keys of the current table have opened; they are declared at its end. -/
  opened : List (List Text)

namespace Document

def empty : Document := ⟨[], [], [], [], []⟩

def endTable (d : Document) : Document :=
  { d with declared := d.opened ++ d.declared, opened := [] }

def declareTable (d : Document) (k : List Text) : Except ReadFailure Document :=
  if d.declared.contains k || isBelow d.closed k then .error .invalid
  else do
    let table ← alterAt true .ok k d.table
    return { d with table, header := k, declared := k :: d.declared }

def appendTable (k : Text) (table : Table) : Except ReadFailure Table :=
  match Entries.get? k table with
  | none => .ok (Entries.set k (.list [.table []]) table)
  | some (.list items) => .ok (Entries.set k (.list (items ++ [.table []])) table)
  | some _ => .error .invalid

/-- Begins the next table of a list. What was declared below the one before may be declared
again. -/
def declareItem (d : Document) (k : List Text) : Except ReadFailure Document :=
  if isBelow d.closed k then .error .invalid
  else do
    let table ← alterAt true (appendTable (k.getLastD [])) k.dropLast d.table
    return { d with
      table
      header := k
      closed := d.closed.filter (!k.isPrefixOf ·)
      declared := k :: d.declared.filter (!k.isPrefixOf ·) }

def above (k : List Text) : List (List Text) :=
  (List.range (k.length - 1)).map fun i => k.take (i + 1)

def setPair (d : Document) (k : List Text) (v : Value) : Except ReadFailure Document :=
  let opened := (above k).map (d.header ++ ·)
  let parent := d.header ++ k.dropLast
  if opened.any d.declared.contains || isBelow d.closed parent then .error .invalid
  else do
    let table ← alterAt true (setNew (k.getLastD []) v) parent d.table
    return { d with
      table
      closed := if isNested v then (d.header ++ k) :: d.closed else d.closed
      opened := opened ++ d.opened }

def statement (limit : Nat) (d : Document) (text : Text) : Except ReadFailure (Document × Text) :=
  match text with
  | [] => .ok (d, [])
  | '\n' :: _ | '#' :: _ => .ok (d, text)
  | '[' :: '[' :: rest => do
    let (k, rest) ← key (skipSpace rest)
    match rest with
    | ']' :: ']' :: rest => return (← d.endTable.declareItem k, rest)
    | _ => throw .invalid
  | '[' :: rest => do
    let (k, rest) ← key (skipSpace rest)
    match rest with
    | ']' :: rest => return (← d.endTable.declareTable k, rest)
    | _ => throw .invalid
  | _ => do
    let ((k, v), rest) ← pair limit text
    return (← d.setPair k v, rest)

def statements (limit : Nat) : Nat → Document → Text → Except ReadFailure Document
  | 0, _, _ => .error .invalid
  | fuel + 1, d, text => do
    let (d, rest) ← d.statement limit (skipSpace text)
    match ← comment (skipSpace rest) with
    | [] => return d
    | '\n' :: rest => statements limit fuel d rest
    | _ => throw .invalid

end Document

def joinLineEnds : Text → Text
  | [] => []
  | '\r' :: '\n' :: rest => '\n' :: joinLineEnds rest
  | c :: rest => c :: joinLineEnds rest

def read (limit : Nat) (text : Text) : Except ReadFailure Table := do
  let text := joinLineEnds text
  return (← Document.empty.statements limit (text.length + 1) text).table

end EditorConfig.Toml
