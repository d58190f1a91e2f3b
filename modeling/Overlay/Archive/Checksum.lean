/-!
# CRC-32

The checksum that archives keep of every file: the remainder of the bits, least significant first,
modulo the reflected polynomial `0xEDB88320`, inverted before and after.
-/

namespace Overlay.Archive

def crcShift (crc : UInt32) : UInt32 :=
  if crc &&& 1 = 1 then (crc >>> 1) ^^^ 0xEDB88320 else crc >>> 1

def crcByte (crc : UInt32) (b : UInt8) : UInt32 :=
  Nat.repeat crcShift 8 (crc ^^^ b.toUInt32)

def crc32 (bytes : ByteArray) : UInt32 := bytes.foldl crcByte 0xFFFFFFFF ^^^ 0xFFFFFFFF

end Overlay.Archive
