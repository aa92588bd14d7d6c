import Markdown.Digest.Bytes

set_option autoImplicit false

namespace Markdown.Digest.Md5

/-- The four chained words. -/
structure Chain where
  a : UInt32
  b : UInt32
  c : UInt32
  d : UInt32

def Chain.initial : Chain :=
  ⟨0x67452301, 0xefcdab89, 0x98badcfe, 0x10325476⟩

def constants : List UInt32 :=
  [0xd76aa478, 0xe8c7b756, 0x242070db, 0xc1bdceee, 0xf57c0faf, 0x4787c62a, 0xa8304613, 0xfd469501,
   0x698098d8, 0x8b44f7af, 0xffff5bb1, 0x895cd7be, 0x6b901122, 0xfd987193, 0xa679438e, 0x49b40821,
   0xf61e2562, 0xc040b340, 0x265e5a51, 0xe9b6c7aa, 0xd62f105d, 0x02441453, 0xd8a1e681, 0xe7d3fbc8,
   0x21e1cde6, 0xc33707d6, 0xf4d50d87, 0x455a14ed, 0xa9e3e905, 0xfcefa3f8, 0x676f02d9, 0x8d2a4c8a,
   0xfffa3942, 0x8771f681, 0x6d9d6122, 0xfde5380c, 0xa4beea44, 0x4bdecfa9, 0xf6bb4b60, 0xbebfbc70,
   0x289b7ec6, 0xeaa127fa, 0xd4ef3085, 0x04881d05, 0xd9d4d039, 0xe6db99e5, 0x1fa27cf8, 0xc4ac5665,
   0xf4292244, 0x432aff97, 0xab9423a7, 0xfc93a039, 0x655b59c3, 0x8f0ccc92, 0xffeff47d, 0x85845dd1,
   0x6fa87e4f, 0xfe2ce6e0, 0xa3014314, 0x4e0811a1, 0xf7537e82, 0xbd3af235, 0x2ad7d2bb, 0xeb86d391]

def distances : List UInt32 :=
  [[7, 12, 17, 22], [5, 9, 14, 20], [4, 11, 16, 23], [6, 10, 15, 21]].flatMap fun row =>
    row ++ row ++ row ++ row

/-- The mixing function of step `index` and the message word it reads. -/
def Chain.mix (x : Chain) (index : Nat) : UInt32 × Nat :=
  if index < 16 then ((x.b &&& x.c) ||| (~~~x.b &&& x.d), index)
  else if index < 32 then ((x.d &&& x.b) ||| (~~~x.d &&& x.c), (5 * index + 1) % 16)
  else if index < 48 then (x.b ^^^ x.c ^^^ x.d, (3 * index + 5) % 16)
  else (x.c ^^^ (x.b ||| ~~~x.d), (7 * index) % 16)

/-- Step `index` with its constant and distance. -/
def Chain.step (words : List UInt32) (x : Chain) (plan : (UInt32 × UInt32) × Nat) : Chain :=
  let (mixed, word) := x.mix plan.2
  let sum := mixed + x.a + plan.1.1 + words.getD word 0
  ⟨x.d, x.b + rotateLeft sum plan.1.2, x.b, x.c⟩

def Chain.add (x y : Chain) : Chain :=
  ⟨x.a + y.a, x.b + y.b, x.c + y.c, x.d + y.d⟩

def Chain.block (x : Chain) (words : List UInt32) : Chain :=
  x.add (((constants.zip distances).zipIdx).foldl (Chain.step words) x)

/-- A message filled up to whole blocks, its length in bits at the end. -/
def padded (message : List UInt8) : List UInt8 :=
  let bits := 8 * message.length
  closed message ++ littleEndian (UInt32.ofNat bits) ++ littleEndian (UInt32.ofNat (bits >>> 32))

def digest (message : List UInt8) : List UInt8 :=
  let whole := padded message
  let last :=
    (blocks (whole.length / 64) (wordsLittleEndian whole)).foldl Chain.block Chain.initial
  littleEndian last.a ++ littleEndian last.b ++ littleEndian last.c ++ littleEndian last.d

@[simp] theorem length_digest (message : List UInt8) : (digest message).length = 16 := rfl

end Md5

/-- The MD5 digest of the octets of a text, in hexadecimal. -/
def md5 (text : Text) : Text :=
  hex (Md5.digest (octets text))

@[simp] theorem length_md5 (text : Text) : (md5 text).length = 32 := by
  simp [md5]

end Markdown.Digest
