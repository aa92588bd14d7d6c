import Markdown.Block.Heading
import Markdown.Block.List
import Markdown.Block.Quote

set_option autoImplicit false

namespace Markdown.Block

/-- A newline and the blank lines behind it. -/
def blankLines : Pattern Empty :=
  .seq (.char '\n') (.rounds1 (.seq (.many Text.isBlank) (.char '\n')))

/-- A piece of a text between blank lines: nothing, a fragment under its key, or a paragraph. -/
def paragraph? (references : ReferenceTable) (fragments : Fragments) (piece : Text) :
    Option Text :=
  let key := piece.trimSpace
  if key.isEmpty then none
  else match fragments.get? key with
    | some fragment => some fragment
    | none =>
      some ("<p>".toList ++ Inline.render references piece ++ "</p>".toList)

/-- The finished blocks of a text in which all blocks but paragraphs have been put aside. -/
def renderParagraphs (references : ReferenceTable) (text : Text) : Render Text := do
  let fragments := (← get).fragments
  let pieces := blankLines.split (text.trim Text.isNewline)
  Render.finish (Text.join "\n\n".toList (pieces.filterMap (paragraph? references fragments)))

def renderLevel (setting : Setting) (interior : Interior) (inList : Bool) (text : Text) :
    Render Text := do
  let text ← Heading.render setting.references text
  let text ← Heading.renderRules text
  let text ← Listing.render setting interior inList text
  let text ← CodeBlock.render text
  let text ← Quote.render interior text
  let text ← Render.protectHtml text
  renderParagraphs setting.references text

/-- The renderings one level further in, when a number of further levels is left. -/
def interior (setting : Setting) : Nat → Interior
  | 0 =>
    { blocks := fun _ _ => Render.nested setting.limit (.giveOut setting.limit)
      lists := fun _ => Render.nested setting.limit (.giveOut setting.limit) }
  | left + 1 =>
    { blocks := fun inList text =>
        Render.nested setting.limit (renderLevel setting (interior setting left) inList text)
      lists := fun text =>
        Render.nested setting.limit (Listing.render setting (interior setting left) true text) }

/-- The blocks of a text as finished output. -/
def render (setting : Setting) (inList : Bool) (text : Text) : Render Text :=
  (interior setting setting.limit.capacity).blocks inList text

end Markdown.Block
