import Markdown.Pattern.Search
import Markdown.Unicode.Word

set_option autoImplicit false

namespace Markdown.Emphasis

inductive Part where
  | content
deriving DecidableEq

def isMark (c : Char) : Bool :=
  c == '*' || c == '_'

/-- Content with a delimiter on both sides and no white space next to either. -/
def between (delimiter : Text) (content : Pattern Part) : Pattern Part :=
  .sequence
    [.literal delimiter, .before Pattern.notSpace, .capture .content content,
      .behind Pattern.notSpace, .literal delimiter]

/-- A pattern that touches no word character. -/
def apartFromWords (pattern : Pattern Part) : Pattern Part :=
  .sequence [.notBehind Unicode.isWord, pattern, .notBefore Unicode.isWord]

/-- Content of strong emphasis: marks at its end are taken in. -/
def strongContent : Pattern Part :=
  .seq (.few1 Pattern.anything) (.many isMark)

def strongStars : Pattern Part :=
  between "**".toList strongContent

def strongLines : Pattern Part :=
  apartFromWords (between "__".toList strongContent)

def plainStars : Pattern Part :=
  between "*".toList (.few1 Pattern.anything)

def plainLines : Pattern Part :=
  apartFromWords (between "_".toList (.few1 Pattern.anything))

def strong (found : Match Part) : Text :=
  "<strong>".toList ++ found.get .content ++ "</strong>".toList

def plain (found : Match Part) : Text :=
  "<em>".toList ++ found.get .content ++ "</em>".toList

def render (text : Text) : Text :=
  plainLines.replace plain (plainStars.replace plain
    (strongLines.replace strong (strongStars.replace strong text)))

end Markdown.Emphasis
