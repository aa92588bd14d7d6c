import Markdown.Digest.Bytes

set_option autoImplicit false

namespace Markdown.Digest.Sha256

/-- The eight chained words. -/
structure Chain where
  a : UInt32
  b : UInt32
  c : UInt32
  d : UInt32
  e : UInt32
  f : UInt32
  g : UInt32
  h : UInt32

def Chain.initial : Chain :=
  ⟨0x6a09e667, 0xbb67ae85, 0x3c6ef372, 0xa54ff53a,
   0x510e527f, 0x9b05688c, 0x1f83d9ab, 0x5be0cd19⟩

def constants : List UInt32 :=
  [0x428a2f98, 0x71374491, 0xb5c0fbcf, 0xe9b5dba5, 0x3956c25b, 0x59f111f1, 0x923f82a4, 0xab1c5ed5,
   0xd807aa98, 0x12835b01, 0x243185be, 0x550c7dc3, 0x72be5d74, 0x80deb1fe, 0x9bdc06a7, 0xc19bf174,
   0xe49b69c1, 0xefbe4786, 0x0fc19dc6, 0x240ca1cc, 0x2de92c6f, 0x4a7484aa, 0x5cb0a9dc, 0x76f988da,
   0x983e5152, 0xa831c66d, 0xb00327c8, 0xbf597fc7, 0xc6e00bf3, 0xd5a79147, 0x06ca6351, 0x14292967,
   0x27b70a85, 0x2e1b2138, 0x4d2c6dfc, 0x53380d13, 0x650a7354, 0x766a0abb, 0x81c2c92e, 0x92722c85,
   0xa2bfe8a1, 0xa81a664b, 0xc24b8b70, 0xc76c51a3, 0xd192e819, 0xd6990624, 0xf40e3585, 0x106aa070,
   0x19a4c116, 0x1e376c08, 0x2748774c, 0x34b0bcb5, 0x391c0cb3, 0x4ed8aa4a, 0x5b9cca4f, 0x682e6ff3,
   0x748f82ee, 0x78a5636f, 0x84c87814, 0x8cc70208, 0x90befffa, 0xa4506ceb, 0xbef9a3f7, 0xc67178f2]

def Chain.add (x y : Chain) : Chain :=
  ⟨x.a + y.a, x.b + y.b, x.c + y.c, x.d + y.d, x.e + y.e, x.f + y.f, x.g + y.g, x.h + y.h⟩

/-- One round with its constant already added to its word of the schedule. -/
def Chain.round (x : Chain) (input : UInt32) : Chain :=
  let mixed := rotateRight x.e 6 ^^^ rotateRight x.e 11 ^^^ rotateRight x.e 25
  let choice := (x.e &&& x.f) ^^^ (~~~x.e &&& x.g)
  let first := x.h + mixed + choice + input
  let spread := rotateRight x.a 2 ^^^ rotateRight x.a 13 ^^^ rotateRight x.a 22
  let majority := (x.a &&& x.b) ^^^ (x.a &&& x.c) ^^^ (x.b &&& x.c)
  ⟨first + (spread + majority), x.a, x.b, x.c, x.d + first, x.e, x.f, x.g⟩

/-- The word that follows sixteen words of the schedule. -/
def following (window : List UInt32) : UInt32 :=
  let early := window.getD 1 0
  let late := window.getD 14 0
  window.getD 0 0 + (rotateRight early 7 ^^^ rotateRight early 18 ^^^ (early >>> 3)) +
    window.getD 9 0 + (rotateRight late 17 ^^^ rotateRight late 19 ^^^ (late >>> 10))

/-- The rounds of one block: `window` holds the next sixteen words of the schedule. -/
def Chain.rounds : List UInt32 → List UInt32 → Chain → Chain
  | [], _, x => x
  | constant :: rest, window, x =>
    rounds rest (window.drop 1 ++ [following window]) (x.round (window.headD 0 + constant))

def Chain.block (x : Chain) (words : List UInt32) : Chain :=
  x.add (rounds constants words x)

/-- A message filled up to whole blocks, its length in bits at the end. -/
def padded (message : List UInt8) : List UInt8 :=
  let bits := 8 * message.length
  closed message ++ bigEndian (UInt32.ofNat (bits >>> 32)) ++ bigEndian (UInt32.ofNat bits)

def digest (message : List UInt8) : List UInt8 :=
  let whole := padded message
  let last := (blocks (whole.length / 64) (wordsBigEndian whole)).foldl Chain.block Chain.initial
  bigEndian last.a ++ bigEndian last.b ++ bigEndian last.c ++ bigEndian last.d ++
    bigEndian last.e ++ bigEndian last.f ++ bigEndian last.g ++ bigEndian last.h

@[simp] theorem length_digest (message : List UInt8) : (digest message).length = 32 := rfl

end Sha256

/-- The SHA-256 digest of the octets of a text, in hexadecimal. -/
def sha256 (text : Text) : Text :=
  hex (Sha256.digest (octets text))

@[simp] theorem length_sha256 (text : Text) : (sha256 text).length = 64 := by
  simp [sha256]

end Markdown.Digest
