import Markdown.Escape

set_option autoImplicit false

namespace Markdown.CodeSpan

inductive Part where
  | ticks
  | code
deriving DecidableEq

def isTick (c : Char) : Bool :=
  c == '\x60'

/-- A code span: it opens on a whole run of backticks and closes on a whole run of that length. -/
def codeSpan : Pattern Part :=
  .sequence
    [.notBehind isTick, .capture .ticks (.many1 isTick), .notBefore isTick,
      .many Text.isBlank, .capture .code (.few1 Pattern.anything), .many Text.isBlank,
      .notBehind isTick, .same .ticks id, .notBefore isTick]

def element (code : Text) : Text :=
  "<code>".toList ++ Codec.standard.protect (Codec.standard.restore code) ++ "</code>".toList

def render (text : Text) : Text :=
  codeSpan.replace (fun found => element (found.get .code)) text

end Markdown.CodeSpan
