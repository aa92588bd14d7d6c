import Markdown.Digest.Bytes

set_option autoImplicit false

namespace Markdown.Utf8

/-- What is wrong with a sequence of octets. -/
inductive FaultKind where
  | startByte
  | continuationByte
  | endOfData
deriving DecidableEq

/-- The first fault: where it starts, the octets that belong to it, and what is wrong. -/
structure Fault where
  position : Nat
  octets : List UInt8
  kind : FaultKind
deriving DecidableEq

def FaultKind.words : FaultKind → Text
  | .startByte => "invalid start byte".toList
  | .continuationByte => "invalid continuation byte".toList
  | .endOfData => "unexpected end of data".toList

def Fault.message (fault : Fault) : Text :=
  let place := match fault.octets with
    | [octet] =>
      "byte 0x".toList ++ Digest.hex [octet] ++ " in position ".toList ++
        (toString fault.position).toList
    | octets =>
      "bytes in position ".toList ++ (toString fault.position).toList ++ "-".toList ++
        (toString (fault.position + octets.length - 1)).toList
  "'utf-8' codec can't decode ".toList ++ place ++ ": ".toList ++ fault.kind.words

/-- What the first octet of a character says: its own bits, how many octets follow, and the least
and the greatest octet that may follow first. -/
def lead? (octet : Nat) : Option (Nat × Nat × Nat × Nat) :=
  if octet < 0x80 then some (octet, 0, 0x80, 0xbf)
  else if octet < 0xc2 then none
  else if octet < 0xe0 then some (octet - 0xc0, 1, 0x80, 0xbf)
  else if octet < 0xf0 then
    some (octet - 0xe0, 2, if octet = 0xe0 then 0xa0 else 0x80, if octet = 0xed then 0x9f else 0xbf)
  else if octet < 0xf5 then
    some (octet - 0xf0, 3, if octet = 0xf0 then 0x90 else 0x80, if octet = 0xf4 then 0x8f else 0xbf)
  else none

/-- The rest of a character: `count` octets are still due, the next between `least` and `greatest`.
The octets read so far are in `taken`, the latest first. -/
def tail (position : Nat) (taken : List UInt8) (bits : Nat) :
    Nat → Nat → Nat → List UInt8 → Except Fault (Nat × Nat × List UInt8)
  | 0, _, _, rest => .ok (bits, taken.length, rest)
  | _ + 1, _, _, [] => .error ⟨position, taken.reverse, .endOfData⟩
  | count + 1, least, greatest, octet :: rest =>
    if least ≤ octet.toNat ∧ octet.toNat ≤ greatest then
      tail position (octet :: taken) (bits * 64 + octet.toNat % 64) count 0x80 0xbf rest
    else .error ⟨position, taken.reverse, .continuationByte⟩

/-- The characters of the octets from a position on, put behind those in `found`, which has the
latest first. Each character takes at least one octet. -/
def decodeFrom : Nat → Nat → Text → List UInt8 → Except Fault Text
  | _, _, found, [] => .ok found.reverse
  | 0, _, found, _ => .ok found.reverse
  | budget + 1, position, found, octet :: rest =>
    match lead? octet.toNat with
    | none => .error ⟨position, [octet], .startByte⟩
    | some (bits, count, least, greatest) => do
      let (code, length, rest) ← tail position [octet] bits count least greatest rest
      decodeFrom budget (position + length) (Char.ofNat code :: found) rest

/-- The text that octets stand for. -/
def decode (octets : List UInt8) : Except Fault Text :=
  decodeFrom octets.length 0 [] octets

end Markdown.Utf8
