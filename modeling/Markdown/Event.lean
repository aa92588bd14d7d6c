import Markdown.Reference.Unresolved
import Markdown.Text.Quoted

set_option autoImplicit false

namespace Markdown

inductive Severity where
  | debug
  | warning
deriving DecidableEq

/-- Something that happened during a conversion. -/
inductive Event where
  /-- A label was defined again; the later definition is ignored. -/
  | duplicate (label : Text)
  /-- A usage in a file has no definition. -/
  | unresolved (file : Text) (usage : Unresolved)
  /-- A document was converted. -/
  | converted (characters references fragments : Nat)

namespace Event

def number (value : Nat) : Text :=
  (toString value).toList

def severity : Event → Severity
  | .duplicate _ => .debug
  | .unresolved _ _ => .warning
  | .converted _ _ _ => .debug

/-- The name of the part of the program that tells of an event. -/
def source : Event → Text
  | .duplicate _ => "hashdown.references".toList
  | .unresolved _ _ => "hashdown.cli".toList
  | .converted _ _ _ => "hashdown.pipeline".toList

def message : Event → Text
  | .duplicate label =>
    "ignoring duplicate definition of reference ".toList ++ label.quoted
  | .unresolved file usage =>
    file ++ ":".toList ++ number usage.line ++ ":".toList ++ number usage.column ++
      ": unresolved reference '".toList ++ usage.label ++ "'".toList
  | .converted characters references fragments =>
    "parsed ".toList ++ number characters ++ " chars: ".toList ++ number references ++
      " references, ".toList ++ number fragments ++ " stored fragments".toList

end Event

def Severity.word : Severity → Text
  | .debug => "DEBUG".toList
  | .warning => "WARNING".toList

end Markdown
