import Markdown.Document
import Markdown.Event
import Markdown.Page

set_option autoImplicit false

namespace Markdown

structure CompileOptions (σ : Type) where
  limit : Limit
  /-- Inline rules only. -/
  inlineOnly : Bool
  /-- A complete page and not only its content. -/
  standalone : Bool
  head : PageHead σ

inductive CompileError where
  | limit (error : LimitError)
  | nesting (error : NestingError)

/-- A compilation: what it told, in order, and its result. -/
structure Compilation (σ : Type) where
  events : List Event
  result : Except CompileError (List σ)

/-- The file that is named for a source without one. -/
def standardInputName : Text := "<stdin>".toList

namespace Compilation

/-- What the search for unresolved usages tells of a source. -/
def surveyEvents (file source : Text) : List Event :=
  let text := source.unifyNewlines
  let extraction := ReferenceTable.empty.extract text
  extraction.duplicates.map .duplicate ++
    (unresolvedUnder extraction.table text).map (.unresolved file)

/-- A source converted with the inline rules; its definitions are dropped and resolve its links. -/
def convertInline (converter : Converter) (source : Text) : List Event × Text :=
  let extraction := ReferenceTable.empty.extract source.unifyNewlines
  let converter := { converter with references := extraction.table }
  (extraction.duplicates.map .duplicate, converter.convertInline extraction.text)

def convertDocument (converter : Converter) (source : Text) :
    List Event × Except NestingError Text :=
  let conversion := (converter.convert source).1
  let summary := match conversion.html with
    | .ok _ =>
      [.converted source.length conversion.references.size conversion.progress.fragments.size]
    | .error _ => []
  (conversion.duplicates.map .duplicate ++ summary, conversion.html)

def convert {σ : Type} (options : CompileOptions σ) (source : Text) :
    List Event × Except CompileError Text :=
  match Converter.create options.limit with
  | .error error => ([], .error (.limit error))
  | .ok converter =>
    if options.inlineOnly then
      let (events, html) := convertInline converter source
      (events, .ok html)
    else
      let (events, html) := convertDocument converter source
      (events, html.mapError .nesting)

end Compilation

def compile {σ : Type} [Script σ] (options : CompileOptions σ) (source file : Text) :
    Compilation σ :=
  let (events, html) := Compilation.convert options source
  ⟨Compilation.surveyEvents file source ++ events,
    html.map fun body =>
      if options.standalone then renderPage options.head body else Script.ofText body⟩

end Markdown
