import Linkage.Bytes

/-! The cyclic redundancy check of zip archives. -/
namespace Linkage
namespace Archive

/-- Divides by the generator for a number of bits, the lowest first. -/
def crcBits : Nat → UInt32 → UInt32
  | 0, r => r
  | n + 1, r => crcBits n (if r % 2 = 1 then (r >>> 1) ^^^ 0xEDB88320 else r >>> 1)

def crcByte (r : UInt32) (b : UInt8) : UInt32 := crcBits 8 (r ^^^ b.toUInt32)

/-- The check of a byte string. -/
def crc32 (data : Bytes) : UInt32 := data.foldl crcByte 0xFFFFFFFF ^^^ 0xFFFFFFFF

end Archive

end Linkage
