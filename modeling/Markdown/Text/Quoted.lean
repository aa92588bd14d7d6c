import Markdown.Text
import Markdown.Unicode.Printable
import Markdown.Digest.Bytes

set_option autoImplicit false

namespace Markdown.Text

/-- A code point in hexadecimal with a fixed number of digits. -/
def fixedHex (digits : Nat) (code : Nat) : Text :=
  (List.range digits).reverse.map fun place => Digest.hexDigit (code / Nat.pow 16 place % 16)

/-- A character between quotes of the given kind. -/
def quotedChar (quote : Char) (c : Char) : Text :=
  if c == quote || c == '\\' then ['\\', c]
  else if c == '\t' then ['\\', 't']
  else if c == '\n' then ['\\', 'n']
  else if c == '\r' then ['\\', 'r']
  else if Unicode.isPrintable c then [c]
  else if c.toNat < 0x100 then '\\' :: 'x' :: fixedHex 2 c.toNat
  else if c.toNat < 0x10000 then '\\' :: 'u' :: fixedHex 4 c.toNat
  else '\\' :: 'U' :: fixedHex 8 c.toNat

/-- A text in single quotes, or in double quotes if it holds a single quote and no double one. -/
def quoted (text : Text) : Text :=
  let quote := if text.contains '\'' && !text.contains '"' then '"' else '\''
  quote :: text.flatMap (quotedChar quote) ++ [quote]

end Markdown.Text
