import Markdown.Block.Code
import Markdown.Unicode.Digit

set_option autoImplicit false

namespace Markdown.Listing

inductive Part where
  | list
  | marker
  | gap
  | indent
  | content
deriving DecidableEq

/-- The marker of an item: a bullet, or a number with a full stop. -/
def marker : Pattern Part :=
  .choice
    [.one fun c => c == '*' || c == '+' || c == '-', .seq (.many1 Unicode.isDigit) (.char '.')]

/-- A marker and the blanks behind it. -/
def markerGap : Pattern Part :=
  .seq marker (.many1 Text.isBlank)

/-- A blank line in front of text that is neither indented nor an item. -/
def otherText : Pattern Part :=
  .sequence
    [.literal "\n\n".toList, .many Text.isNewline, .before Pattern.notSpace,
      .ahead false (.seq (.many Text.isBlank) markerGap)]

def listEnd : Pattern Part :=
  .choice [.seq (.many Text.isNewline) .textEnd, otherText]

/-- A list, with its first marker. -/
def listBody : Pattern Part :=
  .capture .list (.sequence
    [.upTo 3 (.char ' '), .capture .marker marker, .many1 Text.isBlank, .few1 Pattern.anything,
      listEnd])

/-- The place behind a blank line. -/
def afterBlankLine (cursor : Cursor) : Bool :=
  "\n\n".toList.isPrefixOf cursor.before

/-- A list behind a blank line or at the start of the text. -/
def topList : Pattern Part :=
  .seq (.choice [.place afterBlankLine, .seq .textStart (.optional (.char '\n'))]) listBody

/-- A list at the start of any line. -/
def nestedList : Pattern Part :=
  .seq .lineStart listBody

/-- The content of an item, with the line breaks behind it. -/
def itemText : Pattern Part :=
  .seq (.few1 Pattern.anything) (.choice
    [.seq (.char '\n') (.optional (.char '\n')), .seq (.optional (.char '\n')) .textEnd])

/-- The end of a list or an item with the same indentation. -/
def nextItem : Pattern Part :=
  .seq (.many Text.isNewline) (.choice [.textEnd, .seq (.same .indent id) markerGap])

/-- An item: it ends in front of an item with the same indentation or at the end of the list. -/
def item : Pattern Part :=
  .sequence
    [.optional (.capture .gap (.char '\n')),
      .capture .indent (.seq .lineStart (.many Text.isBlank)), markerGap,
      .capture .content itemText, .ahead true nextItem]

def newlines : Pattern Empty :=
  .seq (.char '\n') (.many1 Text.isNewline)

/-- Two or more newlines at the end of the text. -/
def finalNewlines : Pattern Empty :=
  .seq newlines .textEnd

/-- The text of a list with three newlines for every run of newlines inside it, and one at its
end. -/
def evenlySpaced (list : Text) : Text :=
  finalNewlines.replace (fun _ => ['\n']) (newlines.replace (fun _ => "\n\n\n".toList) list)

/-- The item touches a blank line. -/
def isLoose (found : Match Part) : Bool :=
  (found.get? .gap).isSome || Text.occursIn "\n\n".toList (found.get .content)

/-- The content of an item between its tags. -/
def itemContent (setting : Setting) (interior : Interior) (found : Match Part) : Render Text := do
  let content := CodeBlock.outdent (found.get .content)
  if isLoose found then interior.blocks true content
  else
    let text ← interior.lists content
    let text := newlines.replace (fun _ => ['\n']) (text.trimEnd Text.isNewline)
    Render.finish (Inline.render setting.references text)

def itemElement (setting : Setting) (interior : Interior) (found : Match Part) : Render Text := do
  pure ("<li>".toList ++ (← itemContent setting interior found) ++ "</li>\n".toList)

def tagOf (marker : Text) : Text :=
  if marker = ['*'] || marker = ['+'] || marker = ['-'] then "ul".toList else "ol".toList

def listElement (setting : Setting) (interior : Interior) (found : Match Part) : Render Text := do
  let items ← item.replaceM (itemElement setting interior) (evenlySpaced (found.get .list))
  let tag := tagOf (found.get .marker)
  pure ('<' :: tag ++ ">\n".toList ++ items ++ "</".toList ++ tag ++ ['>'])

def render (setting : Setting) (interior : Interior) (inList : Bool) (text : Text) : Render Text :=
  (if inList then nestedList else topList).replaceM
    (fun found => do .setAside (← listElement setting interior found)) text

end Markdown.Listing
