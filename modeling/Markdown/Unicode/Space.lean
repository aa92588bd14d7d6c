import Markdown.Unicode.Range

set_option autoImplicit false

namespace Markdown.Unicode

/-- Every white-space character. -/
def spaceRanges : List (Nat × Nat) :=
  [(0x9, 0xd), (0x1c, 0x20), (0x85, 0x85), (0xa0, 0xa0), (0x1680, 0x1680), (0x2000, 0x200a),
   (0x2028, 0x2029), (0x202f, 0x202f), (0x205f, 0x205f), (0x3000, 0x3000)]

/-- White space, the information separators U+001C to U+001F and U+0085 among it. -/
def isSpace (c : Char) : Bool :=
  inRanges spaceRanges c

end Markdown.Unicode
