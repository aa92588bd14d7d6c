import Markdown.Block.Render

set_option autoImplicit false

namespace Markdown.CodeBlock

/-- One level of indentation: a tab or up to four spaces. -/
def indentation : Pattern Empty :=
  .seq .lineStart (.choice [.char '\t', .seq (.char ' ') (.upTo 3 (.char ' '))])

/-- A text with one level of indentation less in each line. -/
def outdent (text : Text) : Text :=
  indentation.replace (fun _ => []) text

inductive Part where
  | code
deriving DecidableEq

/-- An indented line and the newlines behind it. -/
def indentedLine : Pattern Part :=
  .sequence
    [.choice [.literal "    ".toList, .char '\t'], .many Pattern.inLine,
      .choice [.many1 Text.isNewline, .textEnd]]

/-- Indented lines behind a blank line or at the start of the text. -/
def codeBlock : Pattern Part :=
  .seq (.choice [.literal "\n\n".toList, .seq .textStart (.optional (.char '\n'))])
    (.capture .code (.rounds1 indentedLine))

/-- The element for indented lines: they are shown as they were written. -/
def element (lines : Text) : Text :=
  let code := Codec.standard.protect (Codec.standard.restore (outdent lines))
  "<pre><code>".toList ++ (code.trim Text.isNewline).trimEnd Unicode.isSpace ++
    "\n</code></pre>".toList

def render (text : Text) : Render Text :=
  codeBlock.replaceM (fun found => .setAside (element (found.get .code))) text

end Markdown.CodeBlock
