/-!
# CRC-32

The checksum of archive entries: the reflected polynomial 0xEDB88320, one bit at a time.
-/

namespace SheetPackages.Digest

def crcBit (crc : UInt32) : UInt32 :=
  if crc &&& 1 = 1 then (crc >>> 1) ^^^ 0xEDB88320 else crc >>> 1

def crcByte (crc : UInt32) (b : UInt8) : UInt32 :=
  Nat.repeat crcBit 8 (crc ^^^ b.toUInt32)

def crc32 (data : ByteArray) : UInt32 :=
  ~~~(data.foldl crcByte 0xFFFFFFFF)

end SheetPackages.Digest
