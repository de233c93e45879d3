import FilterLists.Text.Utf8

/-!
The CRC-32 of IEEE 802.3, bit-reflected, as a fold over the bytes of a 32-bit register.
-/
namespace FilterLists.Checksum

def polynomial : UInt32 := 0xEDB88320

/-- One bit of division by the polynomial. -/
def shift (r : UInt32) : UInt32 :=
  if r &&& 1 = 1 then (r >>> 1) ^^^ polynomial else r >>> 1

def feed (r : UInt32) (b : UInt8) : UInt32 :=
  Nat.repeat shift 8 (r ^^^ b.toUInt32)

end FilterLists.Checksum

namespace FilterLists

def checksum (bytes : Bytes) : UInt32 :=
  bytes.foldl Checksum.feed 0xFFFFFFFF ^^^ 0xFFFFFFFF

/-- The check value of CRC-32. -/
example : checksum (bytesOf "123456789") = 0xCBF43926 := by decide +kernel

end FilterLists
