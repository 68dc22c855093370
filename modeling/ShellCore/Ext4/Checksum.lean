import ShellCore.Lib.Bytes

/-!
# Metadata checksums

The block size, and the reflected CRC32C of `checksum.rs` (`crc32c_update` of the inode code is the same function).
-/

namespace ShellCore.Ext4

/-- `BLOCK_SZ`. -/
def blockSz : Nat := 4096

/-- `CRC32C_POLY`. -/
def crc32cPoly : UInt32 := 0x82F63B78

/-- One of the eight shifts made for a byte. -/
def crc32cShift (crc : UInt32) : UInt32 :=
  (crc >>> 1) ^^^ (crc32cPoly &&& (0 - (crc &&& 1)))

/-- The loop body of `crc32c`: absorb one byte. -/
def crc32cByte (crc : UInt32) (byte : UInt8) : UInt32 :=
  Nat.iterate crc32cShift 8 (crc ^^^ byte.toUInt32)

/-- `crc32c`. -/
def crc32c (seed : UInt32) (data : List UInt8) : UInt32 := data.foldl crc32cByte seed

end ShellCore.Ext4
