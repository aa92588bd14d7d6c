import Markdown.Block.Render

set_option autoImplicit false

namespace Markdown.Quote

inductive Part where
  | lines
deriving DecidableEq

/-- A quoted line, the lines that directly follow it, and the newlines behind them. -/
def quotedLines : Pattern Part :=
  .sequence
    [.lineStart, .many Text.isBlank, .char '>', .optional (.one Text.isBlank),
      .many1 Pattern.inLine, .choice [.char '\n', .textEnd],
      .rounds (.seq (.many1 Pattern.inLine) (.char '\n')), .many Text.isNewline]

def quote : Pattern Part :=
  .capture .lines (.rounds1 quotedLines)

/-- The mark in front of a quoted line, with a blank or with all blanks of an empty line. -/
def mark : Pattern Empty :=
  .sequence
    [.lineStart, .many Text.isBlank, .char '>',
      .choice [.seq (.many Text.isBlank) .lineEnd, .optional (.one Text.isBlank)]]

/-- The element for quoted lines; their content is rendered one level further in. -/
def element (interior : Interior) (lines : Text) : Render Text := do
  let content ← interior.blocks false (mark.replace (fun _ => []) lines)
  pure ("<blockquote>\n".toList ++ content ++ "\n</blockquote>".toList)

def render (interior : Interior) (text : Text) : Render Text :=
  quote.replaceM (fun found => do .setAside (← element interior (found.get .lines))) text

end Markdown.Quote
