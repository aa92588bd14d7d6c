import Markdown.Block.Render

set_option autoImplicit false

namespace Markdown.Heading

inductive Part where
  | content
  | underline
  | marks
deriving DecidableEq

/-- The newlines behind a heading, or the end of the text. -/
def ending : Pattern Part :=
  .choice [.many1 Text.isNewline, .textEnd]

def underlined : Pattern Part :=
  .sequence
    [.lineStart, .capture .content (.few1 Pattern.inLine), .many Text.isBlank, .char '\n',
      .capture .underline (.choice [.many1 (· == '='), .many1 (· == '-')]), .many Text.isBlank,
      ending]

/-- A line behind one to six number signs; signs at its end are left out. -/
def marked : Pattern Part :=
  .sequence
    [.lineStart, .capture .marks (.seq (.char '#') (.upTo 5 (.char '#'))), .many Text.isBlank,
      .capture .content (.few1 Pattern.inLine), .many Text.isBlank, .many (· == '#'), ending]

def element (references : ReferenceTable) (rank : Nat) (content : Text) : Text :=
  let tag := 'h' :: (toString rank).toList
  '<' :: tag ++ '>' :: Inline.render references content ++ "</".toList ++ tag ++ ['>']

def rankOf (underline : Text) : Nat :=
  if underline.head? = some '=' then 1 else 2

def render (references : ReferenceTable) (text : Text) : Render Text := do
  let text ← underlined.replaceM (fun found =>
    .setAside (element references (rankOf (found.get .underline)) (found.get .content))) text
  marked.replaceM (fun found =>
    .setAside (element references (found.get .marks).length (found.get .content))) text

/-- Three or more of one mark on a line, with blanks between them. -/
def ruleOf (mark : Char) : Pattern Empty :=
  let round := .seq (.char mark) (.many Text.isBlank)
  .seq (.exactly 3 round) (.rounds round)

def rule : Pattern Empty :=
  .sequence
    [.lineStart, .upTo 3 (.char ' '), .choice [ruleOf '*', ruleOf '-', ruleOf '_'], .lineEnd]

def renderRules (text : Text) : Render Text :=
  rule.replaceM (fun _ => .setAside "<hr>".toList) text

end Markdown.Heading
