import Markdown.Text.Wide

set_option autoImplicit false

namespace Markdown

/-- A path: the slashes that it starts with, and its parts. Parts that are empty or a single dot are
left out. -/
structure Path where
  anchor : Text
  parts : List WideText
deriving DecidableEq

namespace Path

def isSlash (codePoint : CodePoint) : Bool :=
  codePoint = .char '/'

def here : Path := ⟨[], []⟩

/-- Two slashes at the start are kept, and more than two count as one. -/
def anchorOf (text : WideText) : Text :=
  match (text.takeWhile isSlash).length with
  | 0 => []
  | 2 => "//".toList
  | _ => "/".toList

def ofText (text : WideText) : Path :=
  ⟨anchorOf text,
    (Text.splitAt isSlash text).filter fun part => part != [] && part != ['.'].map .char⟩

/-- The normal form of a path as text. -/
def text (path : Path) : WideText :=
  if path.anchor.isEmpty && path.parts.isEmpty then [.char '.']
  else path.anchor.wide ++ [.char '/'].intercalate path.parts

def parent (path : Path) : Path :=
  { path with parts := path.parts.dropLast }

def child (path : Path) (name : Text) : Path :=
  { path with parts := path.parts ++ [name.wide] }

end Path

/-- What may be wrong with a file. -/
inductive FileFaultKind where
  | missing
  | notDirectory
  | isDirectory
  | nameTooLong
  /-- A path with the null character, which names no file. -/
  | nullCharacter
  /-- A path that has no octets, which names no file either. -/
  | unencodable (fault : EncodingFault)
  /-- Another fault of the system, with its number and its words. -/
  | other (code : Nat) (words : Text)
deriving DecidableEq

structure FileFault where
  kind : FileFaultKind
  path : Path
deriving DecidableEq

/-- A number of the system for a fault, with its words. -/
def systemFault (code : Nat) (words : Text) : Text :=
  "[Errno ".toList ++ (toString code).toList ++ "] ".toList ++ words

namespace FileFault

def systemWords? : FileFaultKind → Option (Nat × Text)
  | .missing => some (2, "No such file or directory".toList)
  | .notDirectory => some (20, "Not a directory".toList)
  | .isDirectory => some (21, "Is a directory".toList)
  | .nameTooLong => some (36, "File name too long".toList)
  | .nullCharacter => none
  | .unencodable _ => none
  | .other code words => some (code, words)

def message (fault : FileFault) : Text :=
  match systemWords? fault.kind, fault.kind with
  | some (code, words), _ => systemFault code words ++ ": ".toList ++ fault.path.text.quoted
  | none, .unencodable encoding => encoding.message
  | none, _ => "embedded null byte".toList

end FileFault

end Markdown
