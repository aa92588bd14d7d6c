import Markdown.Unicode.Lowercase

set_option autoImplicit false

namespace Markdown.Unicode

/-- `c` is a form of the small ASCII letter `letter`. Besides the capital these are U+0131 for the
letter i, U+017F for the letter s, and what has the letter as its small form, such as U+212A. -/
def isFormOf (letter : Char) (c : Char) : Bool :=
  lowerChar c == letter || (letter == 'i' && c == '\u0131') || (letter == 's' && c == '\u017f')

end Markdown.Unicode
