import Markdown.Text

set_option autoImplicit false

namespace Markdown.Digest

def octets (text : Text) : List UInt8 :=
  text.flatMap String.utf8EncodeChar

def hexDigit (value : Nat) : Char :=
  ['0', '1', '2', '3', '4', '5', '6', '7', '8', '9', 'a', 'b', 'c', 'd', 'e', 'f'].getD value '0'

def hex (bytes : List UInt8) : Text :=
  bytes.flatMap fun byte => [hexDigit (byte.toNat / 16), hexDigit (byte.toNat % 16)]

@[simp] theorem length_hex (bytes : List UInt8) : (hex bytes).length = 2 * bytes.length := by
  simp only [hex, List.length_flatMap, List.length_cons, List.length_nil, Nat.zero_add,
    Nat.reduceAdd, List.map_const', List.sum_replicate_nat]
  exact Nat.mul_comm _ _

/-- A word of four octets, the most significant first. -/
def bigEndian (word : UInt32) : List UInt8 :=
  [(word >>> 24).toUInt8, (word >>> 16).toUInt8, (word >>> 8).toUInt8, word.toUInt8]

/-- A word of four octets, the least significant first. -/
def littleEndian (word : UInt32) : List UInt8 :=
  [word.toUInt8, (word >>> 8).toUInt8, (word >>> 16).toUInt8, (word >>> 24).toUInt8]

/-- The words of octets that are written with the most significant first. -/
def wordsBigEndian : List UInt8 → List UInt32
  | a :: b :: c :: d :: rest =>
    ((a.toUInt32 <<< 24) ||| (b.toUInt32 <<< 16) ||| (c.toUInt32 <<< 8) ||| d.toUInt32) ::
      wordsBigEndian rest
  | _ => []

/-- The words of octets that are written with the least significant first. -/
def wordsLittleEndian : List UInt8 → List UInt32
  | a :: b :: c :: d :: rest =>
    (a.toUInt32 ||| (b.toUInt32 <<< 8) ||| (c.toUInt32 <<< 16) ||| (d.toUInt32 <<< 24)) ::
      wordsLittleEndian rest
  | _ => []

/-- A message with the closing bit and as many zeros as leave room for its length in the last
block of sixty-four octets. -/
def closed (message : List UInt8) : List UInt8 :=
  message ++ 0x80 :: List.replicate ((119 - message.length % 64) % 64) 0

def blocks : Nat → List UInt32 → List (List UInt32)
  | 0, _ => []
  | count + 1, words => words.take 16 :: blocks count (words.drop 16)

/-- The bits of a word moved left, those pushed out coming back at the right. -/
def rotateLeft (word : UInt32) (distance : UInt32) : UInt32 :=
  (word <<< distance) ||| (word >>> (32 - distance))

/-- The bits of a word moved right, those pushed out coming back at the left. -/
def rotateRight (word : UInt32) (distance : UInt32) : UInt32 :=
  (word >>> distance) ||| (word <<< (32 - distance))

end Markdown.Digest
