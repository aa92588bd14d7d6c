import Markdown.Reference.Definition

set_option autoImplicit false

namespace Markdown

/-- A link or an image without a definition. Lines and columns count from one. -/
structure Unresolved where
  label : Text
  line : Nat
  column : Nat
  length : Nat
deriving DecidableEq

namespace Unresolved

inductive Part where
  | text
  | label
  | ticks
deriving DecidableEq

def isInner (c : Char) : Bool :=
  c != '[' && c != ']' && c != '\n'

/-- A usage such as `[text][label]` or `![text][label]`, on one line. -/
def usage : Pattern Part :=
  .sequence
    [.optional (.char '!'), .char '[', .capture .text (.many isInner), .char ']',
      .optional (.char ' '), .char '[', .capture .label (.many isInner), .char ']']

def isTick (c : Char) : Bool :=
  c == '\x60'

def codeSpan : Pattern Part :=
  .sequence
    [.notBehind isTick, .capture .ticks (.many1 isTick), .notBefore isTick,
      .few1 Pattern.inLine, .notBehind isTick, .same .ticks id, .notBefore isTick]

def backslashPair : Pattern Part :=
  .seq (.char '\\') (.one Pattern.inLine)

/-- As many spaces as the match has characters. -/
def blanked (found : Match Part) : Text :=
  List.replicate found.text.length ' '

/-- A line with its backslash pairs and then its code spans turned into spaces. -/
def visible (line : Text) : Text :=
  codeSpan.replace blanked (backslashPair.replace blanked line)

/-- Lines in which no link is looked for: indented code and definitions. -/
def isSkipped (line : Text) : Bool :=
  "    ".toList.isPrefixOf line || "\t".toList.isPrefixOf line ||
    (Definition.definition.matchStart? line).isSome

/-- The label that a usage refers to: its second part or, if that is empty, its first. -/
def labelOf (found : Match Part) : Text :=
  let label := found.get .label
  if label.isEmpty then found.get .text else label

def inLine (table : ReferenceTable) (line : Text) (number : Nat) : List Unresolved :=
  if isSkipped line then []
  else (usage.matches? (visible line)).filterMap fun found =>
    let label := labelOf found
    if label.trimSpace.isEmpty || table.contains label then none
    else some ⟨label, number, found.offset + 1, found.text.length⟩

end Unresolved

/-- The usages in a text that its own table does not resolve. -/
def unresolvedUnder (table : ReferenceTable) (text : Text) : List Unresolved :=
  (text.lines.zipIdx 1).flatMap fun (line, number) => Unresolved.inLine table line number

/-- The links and images of a document whose label it never defines. -/
def findUnresolved (document : Text) : List Unresolved :=
  let text := document.unifyNewlines
  unresolvedUnder (ReferenceTable.empty.extract text).table text

end Markdown
