import Markdown.Unicode.Lowercase
import Markdown.Text

set_option autoImplicit false

namespace Markdown

structure Reference where
  url : Text
  title : Option Text
deriving DecidableEq

/-- A label in small letters, its words separated by single spaces. -/
def normalizeLabel (label : Text) : Text :=
  Text.join [' '] (Text.words (Unicode.lower label))

/-- References under normalized labels, in the order of their definition. -/
structure ReferenceTable where
  entries : List (Text × Reference)

namespace ReferenceTable

def empty : ReferenceTable := ⟨[]⟩

def size (table : ReferenceTable) : Nat :=
  table.entries.length

def lookup (table : ReferenceTable) (label : Text) : Option Reference :=
  (table.entries.find? fun entry => entry.1 == normalizeLabel label).map (·.2)

def contains (table : ReferenceTable) (label : Text) : Bool :=
  (table.lookup label).isSome

/-- What the definition of a label answers: whether it counts, as the first one does. -/
def accepts (table : ReferenceTable) (label : Text) : Bool :=
  !table.contains label

/-- The table with one more definition, unless the label has one already. -/
def define (table : ReferenceTable) (label : Text) (reference : Reference) : ReferenceTable :=
  if table.contains label then table
  else ⟨table.entries ++ [(normalizeLabel label, reference)]⟩

end ReferenceTable

end Markdown
