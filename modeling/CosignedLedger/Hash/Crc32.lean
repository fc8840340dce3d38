import CosignedLedger.Bytes

/-!
# CRC-32

The remainder of a byte string under the reflected polynomial `0xEDB88320`, least significant bit
first, started and finished with inverted bits.
-/

namespace CosignedLedger.Crc32

def shift (c : UInt32) : UInt32 :=
  if c &&& 1 = 1 then (c >>> 1) ^^^ 0xEDB88320 else c >>> 1

def update (c : UInt32) (b : UInt8) : UInt32 :=
  Nat.repeat shift 8 (c ^^^ b.toUInt32)

def checksum (bytes : Bytes) : UInt32 :=
  bytes.foldl update 0xFFFFFFFF ^^^ 0xFFFFFFFF

end CosignedLedger.Crc32
