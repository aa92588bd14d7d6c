import Markdown.Pattern.Search
import Markdown.Reference.Table

set_option autoImplicit false

namespace Markdown

namespace Definition

inductive Part where
  | label
  | url
  | title
deriving DecidableEq

def titleBetween (first last : Char) : Pattern Part :=
  .sequence [.char first, .many1 Pattern.inLine, .char last]

def title : Pattern Part :=
  .choice [titleBetween '"' '"', titleBetween '(' ')', titleBetween '\'' '\'']

/-- What stands between a target and its title: blanks, with at most one line break. -/
def titleGap : Pattern Part :=
  .choice
    [.many1 Text.isBlank, .sequence [.many Text.isBlank, .char '\n', .many Text.isBlank]]

/-- A definition, from the start of a line to the end of a line. -/
def definition : Pattern Part :=
  .sequence
    [.lineStart, .upTo 3 (.one Text.isBlank), .char '[', .capture .label (.many1 (· != ']')),
      .literal "]:".toList, .many Text.isBlank, .optional (.char '<'),
      .capture .url (.few1 Pattern.notSpace), .optional (.char '>'),
      .optional (.seq titleGap (.capture .title title)), .many Text.isBlank, .lineEnd]

def definitionLine : Pattern Part :=
  .seq definition (.optional (.char '\n'))

/-- The reference that a definition gives, its title without the delimiters. -/
def reference (found : Match Part) : Reference where
  url := found.get .url
  title := (found.get? .title).map fun title => title.tail.dropLast

end Definition

/-- What comes of the extraction of definitions. -/
structure Extraction where
  /-- The document without its definitions. -/
  text : Text
  table : ReferenceTable
  /-- The normalized labels that were defined again, in order. -/
  duplicates : List Text

/-- The table and the duplicates so far, with one more definition. -/
def Extraction.record (table : ReferenceTable) (duplicates : List Text)
    (label : Text) (reference : Reference) : ReferenceTable × List Text :=
  if table.contains label then (table, duplicates ++ [normalizeLabel label])
  else (table.define label reference, duplicates)

/-- Every definition of a document recorded in a table and removed from the document. -/
def ReferenceTable.extract (table : ReferenceTable) (document : Text) : Extraction :=
  let recorded := (Definition.definitionLine.matches? document).foldl
    (fun (table, duplicates) found =>
      Extraction.record table duplicates (found.get .label) (Definition.reference found))
    (table, [])
  ⟨Definition.definitionLine.replace (fun _ => []) document, recorded.1, recorded.2⟩

end Markdown
