import Markdown.Escape
import Markdown.Reference.Table
import Markdown.Unicode.Caseless

set_option autoImplicit false

namespace Markdown.Link

inductive Part where
  | text
  | label
  | url
  | quote
  | title
deriving DecidableEq

def notBracket (c : Char) : Bool :=
  c != '[' && c != ']'

/-- Text of a link. Brackets may stand in it in pairs, one level deep. -/
def linkText : Pattern Part :=
  .seq (.many notBracket)
    (.rounds (.sequence [.char '[', .many notBracket, .char ']', .many notBracket]))

/-- A label in brackets, after at most a space and a line break. -/
def labelPart : Pattern Part :=
  .sequence
    [.optional (.char ' '), .optional (.seq (.char '\n') (.many (· == ' '))),
      .char '[', .capture .label (.many (· != ']')), .char ']']

/-- A title between two quotes of one kind, and the blanks behind it. -/
def titlePart : Pattern Part :=
  .sequence
    [.capture .quote (.one fun c => c == '\'' || c == '"'),
      .capture .title (.few Pattern.anything), .same .quote id, .many Text.isBlank]

/-- A target in parentheses, with or without angle brackets and title. -/
def target : Pattern Part :=
  .sequence
    [.char '(', .many Text.isBlank, .optional (.char '<'),
      .capture .url (.few1 Pattern.notSpace), .optional (.char '>'), .many Text.isBlank,
      .optional titlePart, .char ')']

/-- The bracketed text of a link. A bracket behind an exclamation mark belongs to an image. -/
def textPart : Pattern Part :=
  .sequence [.notBehind (· == '!'), .char '[', .capture .text linkText, .char ']']

/-- The bracketed text of an image. -/
def imagePart : Pattern Part :=
  .sequence [.literal "![".toList, .capture .text (.many (· != ']')), .char ']']

def referenceLink : Pattern Part :=
  .seq textPart labelPart

def inlineLink : Pattern Part :=
  .seq textPart target

def referenceImage : Pattern Part :=
  .seq imagePart labelPart

def inlineImage : Pattern Part :=
  .seq imagePart target

def wordInAnyCase (word : Text) : Pattern Part :=
  .sequence (word.map fun letter => .one (Unicode.isFormOf letter))

def isAddressChar (c : Char) : Bool :=
  c != '\'' && c != '"' && c != '>' && !Unicode.isSpace c

/-- The schemes of an address that becomes a link. -/
def scheme : Pattern Part :=
  .choice
    [.seq (wordInAnyCase "http".toList) (.optional (wordInAnyCase "s".toList)),
      wordInAnyCase "ftp".toList, wordInAnyCase "mailto".toList]

def autolink : Pattern Part :=
  .sequence
    [.char '<', .capture .url (.sequence [scheme, .char ':', .many1 isAddressChar]), .char '>']

/-- A text as an attribute value, hidden from the later passes. -/
def attributeValue (value : Text) : Text :=
  Codec.standard.hide (Html.escapeAttribute value)

/-- The title attribute; an empty title gives none. -/
def titleAttribute : Option Text → Text
  | none => []
  | some title =>
    if title.isEmpty then [] else " title=\"".toList ++ attributeValue title ++ "\"".toList

def anchor (text : Text) (reference : Reference) : Text :=
  "<a href=\"".toList ++ attributeValue reference.url ++ "\"".toList ++
    titleAttribute reference.title ++ ">".toList ++ text ++ "</a>".toList

def image (alt : Text) (reference : Reference) : Text :=
  "<img src=\"".toList ++ attributeValue reference.url ++ "\" alt=\"".toList ++
    attributeValue alt ++ "\"".toList ++ titleAttribute reference.title ++ ">".toList

/-- The reference of a usage: its label or, if that is blank, its text is looked up. -/
def referenceOf (references : ReferenceTable) (found : Match Part) : Option Reference :=
  let label := (found.get .label).trimSpace
  references.lookup (if label.isEmpty then found.get .text else label)

/-- A usage by reference drawn as an element, or left as it is if its label is unknown. -/
def byReference (references : ReferenceTable) (draw : Text → Reference → Text)
    (found : Match Part) : Text :=
  match referenceOf references found with
  | some reference => draw (found.get .text) reference
  | none => found.text

/-- A usage with its target drawn as an element. -/
def byTarget (draw : Text → Reference → Text) (found : Match Part) : Text :=
  draw (found.get .text) ⟨found.get .url, found.get? .title⟩

/-- The address that is shown for a link to it: a mail address goes without its scheme. -/
def shownAddress (url : Text) : Text :=
  if "mailto:".toList.isPrefixOf (Unicode.lower url) then url.drop 7 else url

def addressAnchor (found : Match Part) : Text :=
  let url := found.get .url
  "<a href=\"".toList ++ attributeValue url ++ "\">".toList ++ attributeValue (shownAddress url) ++
    "</a>".toList

def renderLinks (references : ReferenceTable) (text : Text) : Text :=
  autolink.replace addressAnchor
    (inlineLink.replace (byTarget anchor)
      (referenceLink.replace (byReference references anchor) text))

def renderImages (references : ReferenceTable) (text : Text) : Text :=
  inlineImage.replace (byTarget image)
    (referenceImage.replace (byReference references image) text)

end Markdown.Link
