import Markdown.Digest.Md5
import Markdown.Html.Escape
import Markdown.Text.Quoted

set_option autoImplicit false

namespace Markdown

namespace Escape

def opening : Char := '\uf8ff'

def closing : Char := '\uf8fe'

def markers : Text := [opening, closing]

def isMarker (c : Char) : Bool :=
  c == opening || c == closing

def token (c : Char) : Text :=
  opening :: 'e' :: (Digest.md5 [c] ++ [closing])

@[simp] theorem length_token (c : Char) : (token c).length = 35 := by
  simp [token]

def alphabet : Text := "*_\x7b\x7d[]\\\x60#+-.!".toList

/-- The characters hidden in code and in attribute values. -/
def isProtected (c : Char) : Bool :=
  "*_\x7b\x7d[]\\".toList.contains c

def isDigestDigit (c : Char) : Bool :=
  c.isDigit || ('a' ≤ c && c ≤ 'f')

theorem isDigestDigit_hexDigit : ∀ value < 16, isDigestDigit (Digest.hexDigit value) = true := by
  decide

/-- A digest is written in digest digits. -/
theorem isDigestDigit_of_mem_hex {bytes : List UInt8} {c : Char} (member : c ∈ Digest.hex bytes) :
    isDigestDigit c = true := by
  obtain ⟨byte, _, inside⟩ := List.mem_flatMap.1 member
  have bound := byte.toNat_lt
  rcases List.mem_cons.1 inside with rfl | inside
  · exact isDigestDigit_hexDigit _ (by omega)
  · obtain rfl := List.mem_singleton.1 inside
    exact isDigestDigit_hexDigit _ (by omega)

def tokenShape : Pattern Empty :=
  .sequence [.char opening, .char 'e', .exactly 32 (.one isDigestDigit), .char closing]

end Escape

/-- Why a character has no token or a token no character. -/
inductive CodecError where
  | notEscapable (written : Text)
  | unknownToken (token : Text)

def CodecError.message : CodecError → Text
  | .notEscapable written => "not an escapable character: ".toList ++ written.quoted
  | .unknownToken token => "unknown escape token: ".toList ++ token.quoted

/-- The characters of an alphabet and the two markers, each with its token. -/
structure Codec where
  alphabet : Text
  tokens : List (Char × Text)
  tokens_eq : tokens = (alphabet ++ Escape.markers).map fun c => (c, Escape.token c)

namespace Codec

def ofAlphabet (alphabet : Text) : Codec :=
  ⟨alphabet, _, rfl⟩

def standard : Codec :=
  ofAlphabet Escape.alphabet

variable (codec : Codec)

def token? (c : Char) : Option Text :=
  (codec.tokens.find? fun entry => entry.1 == c).map (·.2)

def char? (token : Text) : Option Char :=
  (codec.tokens.find? fun entry => entry.2 == token).map (·.1)

/-- The token of a character, which has to be the whole text. -/
def encode : Text → Except CodecError Text
  | [c] => match codec.token? c with
    | some token => .ok token
    | none => .error (.notEscapable [c])
  | written => .error (.notEscapable written)

/-- The character that a token stands for. -/
def decode (token : Text) : Except CodecError Text :=
  match codec.char? token with
  | some c => .ok [c]
  | none => .error (.unknownToken token)

/-- The token of a character, or the character itself if the codec has none. -/
def cover (c : Char) : Text :=
  (codec.token? c).getD [c]

/-- A text with unified newlines and with its markers hidden. -/
def normalize (text : Text) : Text :=
  text.unifyNewlines.flatMap fun c => if Escape.isMarker c then codec.cover c else [c]

/-- A text with the token of a character in place of the character behind a backslash. -/
def encodeEscapes : Text → Text
  | '\\' :: c :: rest =>
    if Escape.alphabet.contains c then codec.cover c ++ encodeEscapes rest
    else '\\' :: encodeEscapes (c :: rest)
  | c :: rest => c :: encodeEscapes rest
  | [] => []

/-- A finished text with the characters of emphasis, links and escapes hidden. -/
def hide (text : Text) : Text :=
  text.flatMap fun c => if Escape.isProtected c then codec.cover c else [c]

/-- A literal text made safe as element content and hidden from all later passes. -/
def protect (text : Text) : Text :=
  codec.hide (Html.escape text)

/-- A text in which each token of the codec, the markers' aside, gives way to what `written` makes
of its character. -/
def reveal (written : Char → Text) (text : Text) : Text :=
  Escape.tokenShape.replace (fun found =>
    match codec.char? found.text with
    | some c => if Escape.isMarker c then found.text else written c
    | none => found.text) text

/-- A text with its tokens turned into characters. Hidden markers stay hidden. -/
def unescape (text : Text) : Text :=
  codec.reveal (fun c => [c]) text

/-- A text with its tokens turned into characters behind a backslash. Hidden markers stay hidden. -/
def restore (text : Text) : Text :=
  codec.reveal (fun c => ['\\', c]) text

/-- The finished output, with its hidden markers turned back into characters. -/
def decodeMarkers (text : Text) : Text :=
  Escape.tokenShape.replace (fun found =>
    match codec.char? found.text with
    | some c => if Escape.isMarker c then [c] else found.text
    | none => found.text) text

end Codec

end Markdown
