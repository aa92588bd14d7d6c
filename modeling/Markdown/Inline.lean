import Markdown.Inline.CodeSpan
import Markdown.Inline.Emphasis
import Markdown.Inline.Link

set_option autoImplicit false

namespace Markdown.Inline

/-- Two or more spaces at the end of a line. -/
def hardBreak : Pattern Empty :=
  .sequence [.char ' ', .many1 (· == ' '), .char '\n']

def renderBreaks (text : Text) : Text :=
  hardBreak.replace (fun _ => "<br>\n".toList) text

/-- The text of one block with its inline markup rendered. -/
def render (references : ReferenceTable) (text : Text) : Text :=
  Codec.standard.unescape (renderBreaks (Emphasis.render
    (Link.renderImages references (Link.renderLinks references (CodeSpan.render text)))))

/-- A fragment of a document rendered with the inline rules only. -/
def convert (references : ReferenceTable) (text : Text) : Text :=
  let escaped := Codec.standard.encodeEscapes (Codec.standard.normalize text)
  Codec.standard.decodeMarkers (Codec.standard.unescape (render references escaped))

end Markdown.Inline
