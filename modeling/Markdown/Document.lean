import Markdown.Block
import Markdown.Reference.Definition

set_option autoImplicit false

namespace Markdown

/-- A document ready for the rendering of its blocks. -/
structure Preparation where
  text : Text
  /-- The literal HTML that was put aside. -/
  fragments : Fragments
  references : ReferenceTable
  duplicates : List Text

/-- A document normalized, without its literal HTML and its definitions, and with its escapes
hidden. -/
def prepare (document : Text) : Preparation :=
  let (text, fragments) := Html.protectBlocks (Codec.standard.normalize document) .empty
  let extraction := ReferenceTable.empty.extract text
  ⟨Codec.standard.encodeEscapes extraction.text, fragments, extraction.table,
    extraction.duplicates⟩

/-- The blocks of a prepared document rendered. In the output the markers of the document itself
are still hidden. -/
def Preparation.render (preparation : Preparation) (limit : Limit) :
    Except NestingError Text × Progress :=
  (Block.render ⟨preparation.references, limit⟩ false preparation.text).run
    { Progress.start with fragments := preparation.fragments }

structure Conversion where
  html : Except NestingError Text
  /-- The definitions of the document. -/
  references : ReferenceTable
  /-- The normalized labels that the document defines again. -/
  duplicates : List Text
  /-- The progress at the end: the fragments that were put aside and the deepest level. -/
  progress : Progress

/-- A document converted to HTML under a limit on nesting. -/
def convert (limit : Limit) (document : Text) : Conversion :=
  let preparation := prepare document
  let (html, progress) := preparation.render limit
  ⟨html.map Codec.standard.decodeMarkers, preparation.references, preparation.duplicates, progress⟩

/-- A bound below one, with which no converter is made. -/
structure LimitError where
  bound : Bound

def LimitError.message (error : LimitError) : Text :=
  "max_depth must be at least 1, got ".toList ++ error.bound.text

/-- A converter for many documents. It keeps the references of the latest one. -/
structure Converter where
  limit : Limit
  references : ReferenceTable

namespace Converter

def create (limit : Limit) : Except LimitError Converter :=
  if limit.value < 1 then .error ⟨limit.bound⟩ else .ok ⟨limit, .empty⟩

/-- A document converted, and the converter with the references of the document. -/
def convert (converter : Converter) (document : Text) : Conversion × Converter :=
  let conversion := Markdown.convert converter.limit document
  (conversion, { converter with references := conversion.references })

/-- A fragment converted with the inline rules and the references at hand. -/
def convertInline (converter : Converter) (text : Text) : Text :=
  Inline.convert converter.references text

end Converter

end Markdown
