import Markdown.Command.Files
import Markdown.Document
import Markdown.Text.Utf8

set_option autoImplicit false

namespace Markdown

/-- A fault that ends a run without an exit status. -/
inductive Failure where
  | undecodable (fault : Utf8.Fault)
  | file (fault : FileFault)
  /-- The output holds surrogates. -/
  | unencodable (fault : EncodingFault)
  /-- The output cannot be stored. -/
  | device (fault : DeviceFault)
  /-- A number with too many digits is to be read or shown. -/
  | numberTooLong (message : Text)
  | limit (error : LimitError)
  /-- The option for the limit is given nothing, so there is nothing to compare. -/
  | limitOfNothing
  /-- An option for a style sheet is given nothing, so there is no address to link. -/
  | styleOfNothing

def Failure.message : Failure → Text
  | .undecodable fault => fault.message
  | .file fault => fault.message
  | .unencodable fault => fault.message
  | .device fault => fault.message
  | .numberTooLong message => message
  | .limit error => error.message
  | .limitOfNothing => "'<' not supported between instances of 'list' and 'int'".toList
  | .styleOfNothing => "expected string or bytes-like object, got 'list'".toList

end Markdown
