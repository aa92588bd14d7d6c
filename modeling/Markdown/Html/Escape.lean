import Markdown.Pattern.Search
import Markdown.Unicode.Word

set_option autoImplicit false

namespace Markdown.Html

def escapeChar : Char → Text
  | '&' => "&amp;".toList
  | '<' => "&lt;".toList
  | '>' => "&gt;".toList
  | c => [c]

def escape (text : Text) : Text :=
  text.flatMap escapeChar

def isHexDigit (c : Char) : Bool :=
  c.isDigit || ('a' ≤ c && c ≤ 'f') || ('A' ≤ c && c ≤ 'F')

/-- What follows the ampersand of a character reference, by name or by number. -/
def entityRest : Pattern Empty :=
  .sequence
    [.optional (.char '#'), .optional (.one fun c => c == 'x' || c == 'X'),
      .choice [.many1 isHexDigit, .many1 Unicode.isWord], .char ';']

def bareAmpersand : Pattern Empty :=
  .seq (.char '&') (.ahead false entityRest)

/-- A character of an attribute value, the ampersand aside. -/
def escapeAttributeChar : Char → Text
  | '<' => "&lt;".toList
  | '>' => "&gt;".toList
  | '"' => "&quot;".toList
  | c => [c]

/-- A text as the value of a quoted attribute. Ampersands that start a character reference stay as
they are. -/
def escapeAttribute (text : Text) : Text :=
  (bareAmpersand.replace (fun _ => "&amp;".toList) text).flatMap escapeAttributeChar

end Markdown.Html
