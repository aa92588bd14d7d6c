import Markdown.Toml.Reader

set_option autoImplicit false

namespace Markdown.Toml

/-- A configuration as far as it has been read. -/
structure Draft where
  table : Table
  /-- The path of the table that assignments go to. -/
  header : List Text
  /-- Paths that a header has opened or that may not be opened by one any more. -/
  opened : List (List Text)
  /-- Paths of arrays and inline tables, which take no more entries. -/
  closed : List (List Text)
  /-- Paths that come about by dotted keys; they count as opened from the next header on. -/
  pending : List (List Text)

namespace Draft

def empty : Draft := ⟨[], [], [], [], []⟩

/-- The path leads into an array or an inline table. -/
def isClosed (draft : Draft) (path : List Text) : Bool :=
  draft.closed.any (·.isPrefixOf path)

/-- The pending paths count as opened. -/
def settle (draft : Draft) : Draft :=
  { draft with opened := draft.pending ++ draft.opened, pending := [] }

def openTable? (draft : Draft) (path : List Text) : Option Draft := do
  if draft.opened.contains path || draft.isClosed path then none
  else
    let table ← Table.edit? true some path draft.table
    some { draft with table, header := path, opened := path :: draft.opened }

def appendItem? (name : Text) (table : Table) : Option Table :=
  match table.get? name with
  | none => some (table ++ [(name, .array [.table []])])
  | some (.array items) => some (table.replace name (.array (items ++ [.table []])))
  | some _ => none

/-- An item of an array of tables is opened by its header. What was said of the paths inside the
item before no longer counts. -/
def openItem? (draft : Draft) (path : List Text) : Option Draft := do
  if draft.isClosed path then none
  else
    let table ← Table.edit? true (appendItem? (← path.getLast?)) path.dropLast draft.table
    let outside := fun (paths : List (List Text)) => paths.filter (!path.isPrefixOf ·)
    some { draft with
      table, header := path, opened := path :: outside draft.opened,
      closed := outside draft.closed }

/-- The paths of the tables that a dotted key leads through. -/
def innerPaths (header path : List Text) : List (List Text) :=
  (List.range' 1 (path.length - 1)).map fun count => header ++ path.take count

def assign? (draft : Draft) (path : List Text) (value : Value) : Option Draft := do
  let inner := innerPaths draft.header path
  if inner.any draft.opened.contains || draft.isClosed (draft.header ++ path.dropLast) then none
  else
    let table ← draft.table.insert? true (draft.header ++ path) value
    some { draft with
      table, pending := inner ++ draft.pending,
      closed := if value.isClosed then (draft.header ++ path) :: draft.closed else draft.closed }

end Draft

def isKeyStart (c : Char) : Bool :=
  isBareKeyChar c || c == '"' || c == '\''

/-- The path in a header, behind its opening brackets and with its closing ones. -/
def headerPath (closing : Text) : Reader (List Text) := do
  Reader.blanks
  let path ← key
  Reader.expect closing
  pure path

def header (draft : Draft) : Reader Draft := do
  if ← Reader.skip? "[[".toList then
    Reader.need (draft.settle.openItem? (← headerPath "]]".toList))
  else
    Reader.expect ['[']
    Reader.need (draft.settle.openTable? (← headerPath [']']))

def statement (draft : Draft) (start : Char) : Reader Draft := do
  if isKeyStart start then
    let (path, value) ← assignment
    Reader.need (draft.assign? path value)
  else if start == '[' then header draft
  else if start == '#' then pure draft
  else Reader.fail

/-- The lines from here on. Each round takes a newline. -/
def lines : Nat → Draft → Reader Draft
  | 0, draft => pure draft
  | budget + 1, draft => do
    Reader.blanks
    let draft ← match ← Reader.next? with
      | none => pure draft
      | some '\n' => pure draft
      | some start => statement draft start
    Reader.blanks
    comment
    if (← get).isEmpty then pure draft
    else
      Reader.expect ['\n']
      lines budget draft

/-- A carriage return in front of a newline is left out. -/
def plainNewlines : Text → Text
  | [] => []
  | '\r' :: '\n' :: rest => '\n' :: plainNewlines rest
  | c :: rest => c :: plainNewlines rest

def parse (text : Text) : Except Fault Table :=
  let text := plainNewlines text
  match (lines (text.length + 1) .empty).run text with
  | .ok (draft, _) => .ok draft.table
  | .error fault => .error fault

def Fault.message (text : Text) : Fault → Text
  | .malformed left =>
    let text := plainNewlines text
    let taken := text.take (text.length - left)
    let line := taken.count '\n' + 1
    let column := (taken.reverse.takeWhile (· != '\n')).length + 1
    "not well-formed at line ".toList ++ decimal line ++ ", column ".toList ++ decimal column
  | .numberTooLong digits =>
    tooLongMessage (": value has ".toList ++ decimal digits ++ " digits".toList)

end Markdown.Toml
