import Markdown.Fragments
import Markdown.Unicode.Caseless

set_option autoImplicit false

namespace Markdown.Html

def blockTags : List String :=
  ["p", "div", "h1", "h2", "h3", "h4", "h5", "h6", "blockquote", "pre", "table", "dl", "ol", "ul",
    "script", "noscript", "form", "fieldset", "iframe", "math", "ins", "del"]

inductive Part where
  | element
  | tag
deriving DecidableEq

def tagInAnyCase (tag : String) : Pattern Part :=
  .sequence (tag.toList.map fun letter => .one (Unicode.isFormOf letter))

/-- The text from an opening tag to a closing tag of the same name. -/
def element : Pattern Part :=
  .sequence
    [.char '<', .capture .tag (.choice (blockTags.map tagInAnyCase)), .notBefore Unicode.isWord,
      .few Pattern.anything, .literal "</".toList, .same .tag Unicode.lowerChar, .char '>']

def blockEnd : Pattern Part :=
  .choice
    [.sequence [.char '\n', .many Text.isBlank, .char '\n'],
      .seq (.optional (.char '\n')) .textEnd]

/-- The text from the start of a line to a closing tag that ends its block. -/
def htmlBlock : Pattern Part :=
  .sequence
    [.lineStart, .upTo 3 (.char ' '), .capture .element element, .many Text.isBlank,
      .ahead true blockEnd]

/-- A text with its literal HTML blocks put aside, each key on a block of its own. -/
def protectBlocks (text : Text) (fragments : Fragments) : Text × Fragments :=
  htmlBlock.replaceM (m := StateM Fragments)
    (fun found => fun fragments =>
      (Fragments.keyBlock (found.get .element), fragments.insert (found.get .element)))
    text |>.run fragments

end Markdown.Html
