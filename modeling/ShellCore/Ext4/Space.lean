import ShellCore.Lib.Bitmap
import ShellCore.Lib.Bytes
import ShellCore.Ext4.Checksum

/-!
# Allocation of blocks and inodes

The allocator keeps three copies of every free count: the group in memory, the group descriptor on disk
and the clear bits of the bitmap. Blocks are read and written through the block cache: `blocks` is what
the driver sees, `device` what has been written back.
-/

namespace ShellCore.Ext4

open ByteBuf Function

/-- A saturated `u32`. -/
def satU32 (n : Nat) : Nat :=
  min n (2 ^ 32 - 1)

/-- The fields of `Ext4SuperBlock` the allocator reads. -/
structure SuperBlock where
  totalBlocks : Nat
  totalInodes : Nat
  blockSize : Nat
  inodeSize : Nat
  blocksPerGroup : Nat
  inodesPerGroup : Nat
  firstDataBlock : Nat
  incompatFeatures : Nat
  compatFeatures : Nat
  roCompatFeatures : Nat
  uuid : List UInt8
  checksumSeed : UInt32
  checksumType : Nat
  reservedGdtBlocks : Nat
  firstIno : Nat
  backupBgs : List Nat
  descSize : Nat

namespace SuperBlock

variable (sb : SuperBlock)

def groupNum : Nat :=
  satU32 (sb.totalBlocks - sb.firstDataBlock + (sb.blocksPerGroup - 1)) / sb.blocksPerGroup

def hasMetadataCsum : Bool :=
  sb.roCompatFeatures &&& 0x0400 ≠ 0 && sb.checksumType = 1

def metadataChecksumSeed : UInt32 :=
  if sb.incompatFeatures &&& 0x2000 ≠ 0 then sb.checksumSeed else crc32c (~~~0) sb.uuid

def groupInodeCount (groupId : Nat) : Nat :=
  min (sb.totalInodes - satU32 (groupId * sb.inodesPerGroup)) sb.inodesPerGroup

def groupBlockCount (groupId : Nat) : Nat :=
  min (sb.totalBlocks - satU32 (sb.firstDataBlock + satU32 (groupId * sb.blocksPerGroup))) sb.blocksPerGroup

/-- `group_desc_pos`: block and offset of a group descriptor. -/
def groupDescPos (groupId : Nat) : Nat × Nat :=
  (sb.firstDataBlock + 1 + groupId * sb.descSize / blockSz, groupId * sb.descSize % blockSz)

end SuperBlock

inductive BitmapKind where
  | block
  | inode
  deriving DecidableEq

/-- `EXT4_BG_BLOCK_UNINIT` and `EXT4_BG_INODE_UNINIT`. -/
def BitmapKind.uninitFlag : BitmapKind → UInt16
  | .block => 0x0002
  | .inode => 0x0001

/-- The two halves of the bitmap checksum in a descriptor. -/
def BitmapKind.csumOffsets : BitmapKind → Nat × Nat
  | .block => (0x18, 0x38)
  | .inode => (0x1a, 0x3a)

def SuperBlock.bitmapChecksumLen (sb : SuperBlock) (kind : BitmapKind) : Option Nat :=
  let bits := match kind with
    | .block => sb.blocksPerGroup
    | .inode => sb.inodesPerGroup
  if bits / 8 = 0 ∨ bits / 8 > blockSz then none else some (bits / 8)

/-- The number of valid bits in a group's bitmap. -/
def SuperBlock.validBits (sb : SuperBlock) : BitmapKind → Nat → Nat
  | .block => sb.groupBlockCount
  | .inode => sb.groupInodeCount

/-! ## Group descriptors -/

/-- `Ext4Group`. -/
structure Group where
  blockBitmapId : Nat
  inodeBitmapId : Nat
  inodeTableId : Nat
  freeBlocksCount : Nat
  freeInodesCount : Nat
  usedDirsCount : Nat
  itableUnused : Nat
  flags : UInt16
  deriving DecidableEq

/-- A 16-bit field with a high half that short descriptors lack. -/
def descField (desc : List UInt8) (lo hi : Nat) : Nat :=
  getLe desc lo 2 + (if hi + 2 ≤ desc.length then getLe desc hi 2 else 0) * 2 ^ 16

/-- `Ext4Group::new`. -/
def Group.new (desc : List UInt8) : Group where
  blockBitmapId := getLe desc 0x00 4
  inodeBitmapId := getLe desc 0x04 4
  inodeTableId := getLe desc 0x08 4
  freeBlocksCount := descField desc 0x0c 0x2c
  freeInodesCount := descField desc 0x0e 0x2e
  usedDirsCount := descField desc 0x10 0x30
  itableUnused := descField desc 0x1c 0x32
  flags := UInt16.ofNat (getLe desc 0x12 2)

namespace Group

variable (g : Group)

def bitmapId : BitmapKind → Nat
  | .block => g.blockBitmapId
  | .inode => g.inodeBitmapId

def freeCount : BitmapKind → Nat
  | .block => g.freeBlocksCount
  | .inode => g.freeInodesCount

def uninit (kind : BitmapKind) : Bool :=
  g.flags &&& kind.uninitFlag != 0

/-- The group after the allocation of `bit`. Only inodes have an unused tail of the table to shorten. -/
def take (kind : BitmapKind) (validBits bit : Nat) : Group :=
  let flags := if g.uninit kind then g.flags &&& ~~~kind.uninitFlag else g.flags
  match kind with
  | .block => { g with freeBlocksCount := g.freeBlocksCount - 1, flags := flags }
  | .inode => { g with
      freeInodesCount := g.freeInodesCount - 1
      itableUnused := if bit ≥ validBits - min g.itableUnused validBits then validBits - (bit + 1)
        else g.itableUnused
      flags := flags }

/-- The group after a deallocation. -/
def give : BitmapKind → Group
  | .block => { g with freeBlocksCount := g.freeBlocksCount + 1 }
  | .inode => { g with freeInodesCount := g.freeInodesCount + 1 }

end Group

/-- `set_bitmap_checksum`. -/
def setBitmapChecksum (seed : UInt32) (bitmap desc : List UInt8) (kind : BitmapKind) : List UInt8 :=
  let checksum := (crc32c seed bitmap).toNat
  let desc := setLe desc kind.csumOffsets.1 2 checksum
  if kind.csumOffsets.2 + 2 ≤ desc.length then setLe desc kind.csumOffsets.2 2 (checksum / 2 ^ 16) else desc

/-- `group_desc_checksum`: the checksum field itself is covered as zero. -/
def groupDescChecksum (seed : UInt32) (group : Nat) (desc : List UInt8) : Nat :=
  let checksum := crc32c seed (leBytes 4 group)
  let checksum := crc32c checksum (desc.take 0x1e)
  let checksum := crc32c checksum [0, 0]
  (crc32c checksum (desc.drop 0x20)).toNat % 2 ^ 16

/-- `set_group_desc_checksum`. -/
def setGroupDescChecksum (seed : UInt32) (group : Nat) (desc : List UInt8) : List UInt8 :=
  setLe desc 0x1e 2 (groupDescChecksum seed group desc)

/-- The descriptor fields `update_group_counts` writes. -/
def putGroup (g : Group) (desc : List UInt8) : List UInt8 :=
  let desc := setFields 2 [(0x0c, g.freeBlocksCount), (0x0e, g.freeInodesCount), (0x10, g.usedDirsCount),
    (0x12, g.flags.toNat), (0x1c, g.itableUnused)] desc
  if 64 ≤ desc.length then
    setFields 2 [(0x2c, g.freeBlocksCount / 2 ^ 16), (0x2e, g.freeInodesCount / 2 ^ 16),
      (0x30, g.usedDirsCount / 2 ^ 16), (0x32, g.itableUnused / 2 ^ 16)] desc
  else desc

/-! ## The file system -/

/-- `Ext4`, with the contents of the block device. -/
structure Fs where
  sb : SuperBlock
  groups : List Group
  blocks : Nat → List UInt8
  device : Nat → List UInt8

namespace Fs

variable (fs : Fs)

def writeBlock (b : Nat) (buf : List UInt8) : Fs :=
  { fs with blocks := update fs.blocks b buf }

/-- `invalidate_block_cache`: the cached page is dropped without write-back. -/
def invalidateBlockCache (b : Nat) : Fs :=
  { fs with blocks := update fs.blocks b (fs.device b) }

/-- A cached page is written back. -/
def writeBack (b : Nat) : Fs :=
  { fs with device := update fs.device b (fs.blocks b) }

/-- The bytes of a group descriptor. -/
def desc (groupId : Nat) : List UInt8 :=
  slice (fs.blocks (fs.sb.groupDescPos groupId).1) (fs.sb.groupDescPos groupId).2 fs.sb.descSize

/-- `update_group_desc`. -/
def updateGroupDesc (groupId : Nat) (f : List UInt8 → List UInt8) : Fs :=
  let desc := f (fs.desc groupId)
  let desc := if fs.sb.hasMetadataCsum then setGroupDescChecksum fs.sb.metadataChecksumSeed groupId desc else desc
  fs.writeBlock (fs.sb.groupDescPos groupId).1
    (splice (fs.blocks (fs.sb.groupDescPos groupId).1) (fs.sb.groupDescPos groupId).2 desc)

/-- `update_group_counts`. -/
def updateGroupCounts (groupId : Nat) (g : Group) (bitmap : List UInt8) (kind : BitmapKind) : Fs :=
  fs.updateGroupDesc groupId fun desc =>
    let desc := putGroup g desc
    if fs.sb.hasMetadataCsum then
      match fs.sb.bitmapChecksumLen kind with
      | some n => setBitmapChecksum fs.sb.metadataChecksumSeed (bitmap.take n) desc kind
      | none => desc
    else desc

/-- A count changed by `delta`, saturating. -/
def adjust (value : Nat) (delta : Int) (limit : Nat) : Nat :=
  if delta ≥ 0 then min (value + delta.toNat) limit else value - (-delta).toNat

/-- The raw superblock. -/
def rawSuper : List UInt8 :=
  slice (fs.blocks 0) 1024 1024

def superFreeBlocks (raw : List UInt8) : Nat :=
  getLe raw 0x0c 4 + getLe raw 0x158 4 * 2 ^ 32

/-- The two halves of the free block count. -/
def putSuperFreeBlocks (raw : List UInt8) (value : Nat) : List UInt8 :=
  setFields 4 [(0x0c, value), (0x158, value / 2 ^ 32)] raw

/-- The raw superblock with its counts changed. -/
def newSuper (csum : Bool) (raw : List UInt8) (freeBlocksDelta freeInodesDelta : Int) : List UInt8 :=
  let raw := putSuperFreeBlocks raw (adjust (superFreeBlocks raw) freeBlocksDelta (2 ^ 64 - 1))
  let raw := setLe raw 0x10 4 (adjust (getLe raw 0x10 4) freeInodesDelta (2 ^ 32 - 1))
  if csum then setLe raw 0x3fc 4 (crc32c (~~~0) (raw.take 0x3fc)).toNat else raw

/-- `adjust_superblock_counts`. -/
def adjustSuperblockCounts (freeBlocksDelta freeInodesDelta : Int) : Fs :=
  fs.writeBlock 0 (splice (fs.blocks 0) 1024
    (newSuper fs.sb.hasMetadataCsum fs.rawSuper freeBlocksDelta freeInodesDelta))

/-! ## Bitmaps of uninitialised groups -/

/-- `set_bitmap_bit` for each bit of a range: it fails beyond the end of the buffer. -/
def setBitmapBits (bitmap : List UInt8) (start stop : Nat) : Option (List UInt8) :=
  (List.range' start (stop - start)).foldlM
    (fun bm bit => if bit / 8 < bm.length then some (Bitmap.set bm bit) else none) bitmap

variable (sb : SuperBlock)

/-- `reserve_physical_range_in_group_bitmap`. -/
def reservePhysicalRange (groupId physicalStart count : Nat) (bitmap : List UInt8) :
    Option (List UInt8) :=
  let groupStart := satU32 (sb.firstDataBlock + satU32 (groupId * sb.blocksPerGroup))
  let groupEnd := satU32 (groupStart + sb.groupBlockCount groupId)
  let rangeEnd := satU32 (physicalStart + count)
  setBitmapBits bitmap (max groupStart physicalStart - groupStart) (min groupEnd rangeEnd - groupStart)

/-- The loop of `is_power_of_group`. -/
def stripFactor (factor groupId : Nat) : Nat :=
  if _ : 1 < factor ∧ 0 < groupId ∧ groupId % factor = 0 then stripFactor factor (groupId / factor) else groupId
termination_by groupId
decreasing_by
  rename_i h
  exact Nat.div_lt_self h.2.1 h.1

/-- `is_power_of_group`. -/
def isPowerOfGroup (groupId factor : Nat) : Bool :=
  if groupId < factor then false else stripFactor factor groupId = 1

/-- `group_has_super_backup`. -/
def groupHasSuperBackup (groupId : Nat) : Bool :=
  if groupId = 0 then true
  else if sb.compatFeatures &&& 0x0200 ≠ 0 then sb.backupBgs.contains groupId
  else if sb.roCompatFeatures &&& 0x0001 = 0 then true
  else groupId = 1 || isPowerOfGroup groupId 3 || isPowerOfGroup groupId 5 || isPowerOfGroup groupId 7

variable (kind : BitmapKind) (groupId : Nat)

/-- The bitmap with the bits beyond the group set. -/
def blankBitmap : Option (List UInt8) :=
  match sb.bitmapChecksumLen kind with
  | none => none
  | some checksumBytes =>
    if sb.validBits kind groupId > checksumBytes * 8 then none
    else setBitmapBits (List.replicate blockSz 0) (sb.validBits kind groupId) (checksumBytes * 8)

/-- The backup of superblock and descriptor table, in the groups that have one. -/
def reserveSuperBackup (bitmap : List UInt8) : Option (List UInt8) :=
  let gdtBlocks := (sb.groupNum * sb.descSize + blockSz - 1) / blockSz
  let backupBlocks := satU32 (satU32 (1 + gdtBlocks) + sb.reservedGdtBlocks)
  if groupHasSuperBackup sb groupId then
    reservePhysicalRange sb groupId (satU32 (sb.firstDataBlock + satU32 (groupId * sb.blocksPerGroup)))
      backupBlocks bitmap
  else some bitmap

/-- The bitmaps and inode tables of all groups, as far as they lie in the group. -/
def reserveGroupMetadata (groupId inodeTableBlocks : Nat) (groups : List Group)
    (bitmap : List UInt8) : Option (List UInt8) :=
  groups.foldlM (fun bm g => do
    let bm ← reservePhysicalRange sb groupId g.blockBitmapId 1 bm
    let bm ← reservePhysicalRange sb groupId g.inodeBitmapId 1 bm
    reservePhysicalRange sb groupId g.inodeTableId inodeTableBlocks bm) bitmap

/-- `materialize_block_bitmap`. -/
def materializeBlockBitmap (groupId expectedFreeBlocks : Nat) : Option (List UInt8) := do
  let sb := fs.sb
  guard (sb.incompatFeatures &&& 0x0010 = 0)
  let bitmap ← blankBitmap sb .block groupId
  let bitmap ← reserveSuperBackup sb groupId bitmap
  let inodeTableBlocks := (sb.inodesPerGroup * sb.inodeSize + sb.blockSize - 1) / sb.blockSize
  guard (inodeTableBlocks ≤ 2 ^ 32 - 1)
  let bitmap ← reserveGroupMetadata sb groupId inodeTableBlocks fs.groups bitmap
  guard (Bitmap.countFree bitmap (sb.groupBlockCount groupId) = expectedFreeBlocks)
  return bitmap

/-- The reserved inodes of the first group. -/
def reserveFirstInodes (bitmap : List UInt8) : Option (List UInt8) :=
  if groupId = 0 then setBitmapBits bitmap 0 (min (sb.firstIno - 1) (sb.groupInodeCount groupId)) else some bitmap

/-- `materialize_inode_bitmap`. -/
def materializeInodeBitmap (groupId expectedFreeInodes : Nat) : Option (List UInt8) := do
  let sb := fs.sb
  let bitmap ← blankBitmap sb .inode groupId
  let bitmap ← reserveFirstInodes sb groupId bitmap
  guard (Bitmap.countFree bitmap (sb.groupInodeCount groupId) = expectedFreeInodes)
  return bitmap

def materialize : BitmapKind → Nat → Nat → Option (List UInt8)
  | .block => fs.materializeBlockBitmap
  | .inode => fs.materializeInodeBitmap

/-- The bitmap the allocator works on: the stored one, or for a group without one the one it builds. -/
def bitmap (g : Group) : Option (List UInt8) :=
  if g.uninit kind then fs.materialize kind groupId (g.freeCount kind) else some (fs.blocks (g.bitmapId kind))

/-! ## Allocation -/

/-- The change of a bitmap with all the counts kept of it. -/
def commitBitmap (g : Group) (buf : List UInt8) (delta : Int) : Fs :=
  let fs := fs.writeBlock (g.bitmapId kind) buf
  let fs := { fs with groups := fs.groups.set groupId g }
  let fs := fs.updateGroupCounts groupId g buf kind
  match kind with
  | .block => fs.adjustSuperblockCounts delta 0
  | .inode => fs.adjustSuperblockCounts 0 delta

/-- The loop body of `alloc_block` and `alloc_inode`: `none` is `continue`. -/
def allocIn (g : Group) : Option (Nat × Fs) :=
  if g.freeCount kind = 0 then none
  else
    match fs.bitmap kind groupId g with
    | none => none
    | some buf =>
      let validBits := fs.sb.validBits kind groupId
      match Bitmap.firstFree buf validBits with
      | none => none
      | some bit =>
        some (bit, fs.commitBitmap kind groupId (g.take kind validBits bit) (Bitmap.set buf bit) (-1))

/-- The groups in order, until one has a free bit. -/
def allocLoop (fs : Fs) (kind : BitmapKind) : List (Group × Nat) → Option (Nat × Nat × Fs)
  | [] => none
  | (g, groupId) :: rest =>
    match fs.allocIn kind groupId g with
    | some (bit, fs') => some (groupId, bit, fs')
    | none => fs.allocLoop kind rest

/-- `alloc_block`. -/
def allocBlock : Option Nat × Fs :=
  match fs.allocLoop .block fs.groups.zipIdx with
  | none => (none, fs)
  | some (groupId, bit, fs') => (some (groupId * fs.sb.blocksPerGroup + bit + fs.sb.firstDataBlock), fs')

/-- `alloc_inode`. -/
def allocInode : Option Nat × Fs :=
  match fs.allocLoop .inode fs.groups.zipIdx with
  | none => (none, fs)
  | some (groupId, bit, fs') => (some (groupId * fs.sb.inodesPerGroup + bit + 1), fs')

/-- The common part of `dealloc_block` and `dealloc_inode`: `none` is a group out of range, the flag says
that the bit was released. -/
def release (groupId idx : Nat) : Option (Bool × Fs) :=
  match fs.groups[groupId]? with
  | none => none
  | some g =>
    let buf := fs.blocks (g.bitmapId kind)
    if idx ≥ fs.sb.validBits kind groupId then some (false, fs)
    else if !Bitmap.test buf idx then some (false, fs)
    else some (true, fs.commitBitmap kind groupId (g.give kind) (Bitmap.clear buf idx) 1)

/-- `dealloc_inode`. -/
def deallocInode (inodeId : Nat) : Option Fs :=
  if inodeId = 0 ∨ inodeId > fs.sb.totalInodes then some fs
  else
    (fs.release .inode ((inodeId - 1) / fs.sb.inodesPerGroup) ((inodeId - 1) % fs.sb.inodesPerGroup)).map Prod.snd

/-- `dealloc_block`: a released block's page is dropped from the cache. -/
def deallocBlock (blockId : Nat) : Option Fs :=
  if blockId < fs.sb.firstDataBlock ∨ blockId ≥ fs.sb.totalBlocks then some fs
  else
    let relative := blockId - fs.sb.firstDataBlock
    match fs.release .block (relative / fs.sb.blocksPerGroup) (relative % fs.sb.blocksPerGroup) with
    | none => none
    | some (false, fs) => some fs
    | some (true, fs) => some (fs.invalidateBlockCache blockId)

end Fs

/-- The operations of a run; `writeBack` is the background write-back of a cached block. -/
inductive SpaceOp where
  | allocBlock
  | deallocBlock (blockId : Nat)
  | allocInode
  | deallocInode (inodeId : Nat)
  | writeBack (blockId : Nat)

/-- One operation: its answer and the file system after it; `none` is a panic. -/
def SpaceOp.step (fs : Fs) : SpaceOp → Option (Option Nat × Fs)
  | .allocBlock => some fs.allocBlock
  | .deallocBlock b => (fs.deallocBlock b).map fun fs => (none, fs)
  | .allocInode => some fs.allocInode
  | .deallocInode i => (fs.deallocInode i).map fun fs => (none, fs)
  | .writeBack b => some (none, fs.writeBack b)

end ShellCore.Ext4
