import Markdown.Text.Quoted

set_option autoImplicit false

namespace Markdown

/-- A character, or a surrogate on its own, which stands in an argument in the place of an octet that
could not be decoded. Surrogates are counted from U+D800. -/
inductive CodePoint where
  | char (c : Char)
  | surrogate (code : Fin 2048)
deriving DecidableEq

/-- A text that may hold surrogates. -/
abbrev WideText := List CodePoint

def Text.wide (text : Text) : WideText :=
  text.map .char

namespace CodePoint

def isSurrogate : CodePoint → Bool
  | .char _ => false
  | .surrogate _ => true

def char? : CodePoint → Option Char
  | .char c => some c
  | .surrogate _ => none

/-- A surrogate as messages show it. -/
def escaped (code : Fin 2048) : Text :=
  '\\' :: 'u' :: Text.fixedHex 4 (0xd800 + code)

/-- A code point on standard error, where a backslash stands for what cannot be encoded. -/
def shown : CodePoint → Text
  | .char c => [c]
  | .surrogate code => escaped code

def quoted (quote : Char) : CodePoint → Text
  | .char c => Text.quotedChar quote c
  | .surrogate code => escaped code

end CodePoint

/-- The first code points of a text that have no octets. -/
structure EncodingFault where
  position : Nat
  codePoints : WideText
deriving DecidableEq

def EncodingFault.message (fault : EncodingFault) : Text :=
  let place := match fault.codePoints with
    | [codePoint] =>
      "character '".toList ++ codePoint.shown ++ "' in position ".toList ++
        (toString fault.position).toList
    | codePoints =>
      "characters in position ".toList ++ (toString fault.position).toList ++ "-".toList ++
        (toString (fault.position + codePoints.length - 1)).toList
  "'utf-8' codec can't encode ".toList ++ place ++ ": surrogates not allowed".toList

namespace WideText

def shown (text : WideText) : Text :=
  text.flatMap CodePoint.shown

def quoted (text : WideText) : Text :=
  let quote := if text.contains (.char '\'') && !text.contains (.char '"') then '"' else '\''
  quote :: text.flatMap (CodePoint.quoted quote) ++ [quote]

/-- What stands for each code point, if something stands for all of them. -/
def encode {α : Type} (encoded? : CodePoint → Option (List α)) (text : WideText) :
    Except EncodingFault (List α) :=
  match text.findIdx? fun codePoint => (encoded? codePoint).isNone with
  | none => .ok (text.flatMap fun codePoint => (encoded? codePoint).getD [])
  | some position => .error ⟨position, (text.drop position).takeWhile CodePoint.isSurrogate⟩

/-- The characters of a text that is to be written, where surrogates have no octets. -/
def toText (text : WideText) : Except EncodingFault Text :=
  text.encode fun codePoint => codePoint.char?.map ([·])

/-- The octets of the name of a file. Surrogates from U+DC80 on give the octets back that could not be
decoded. -/
def nameOctets (text : WideText) : Except EncodingFault (List UInt8) :=
  text.encode fun
    | .char c => some (Digest.octets [c])
    | .surrogate code =>
      if 0x480 ≤ code.val ∧ code.val < 0x500 then some [UInt8.ofNat (code - 0x400)] else none

/-- The text with each longest run of characters rewritten. -/
def mapRuns (rewrite : Text → Text) (text : WideText) : WideText :=
  go [] text
where
  /-- The run at hand, the latest character first, and what is left of the text. -/
  go (run : Text) : WideText → WideText
    | [] => (rewrite run.reverse).wide
    | .char c :: rest => go (c :: run) rest
    | .surrogate code :: rest => (rewrite run.reverse).wide ++ .surrogate code :: go [] rest

end WideText

end Markdown
