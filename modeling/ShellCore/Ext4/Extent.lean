import ShellCore.Ext4.Checksum
import ShellCore.Lib.BinarySearch

/-!
# Extent trees on disk

`find_physical_block` and `add_extent_entry` on the bytes of the extent tree: the root node in the
60-byte `i_block` of the inode, the other nodes in device blocks. A node is a 12-byte header followed
by 12-byte entries, extents in a leaf and pointers to child blocks in an index node.
-/

namespace ShellCore.Ext4

open ByteBuf BinarySearch

/-! ## Entries -/

/-- `Ext4ExtentLeaf`. -/
@[ext]
structure ExtentLeaf where
  eeBlock : Nat
  eeLen : Nat
  eeStartHi : Nat
  eeStartLo : Nat
  eeBlock_lt : eeBlock < 2 ^ 32
  eeLen_lt : eeLen < 2 ^ 16
  eeStartHi_lt : eeStartHi < 2 ^ 16
  eeStartLo_lt : eeStartLo < 2 ^ 32
  deriving DecidableEq

namespace ExtentLeaf

variable (e : ExtentLeaf)

/-- `actual_len`: the length without the unwritten mark. -/
def actualLen : Nat := if e.eeLen > 32768 then e.eeLen - 32768 else e.eeLen

/-- `start_phys`. -/
def startPhys : Nat := e.eeStartHi * 2 ^ 32 + e.eeStartLo

/-- `phys_end`. -/
def physEnd : Nat := e.startPhys + e.actualLen

/-- `logical_end`, a `u32` sum. -/
def logicalEnd : Nat := (e.eeBlock + e.actualLen) % 2 ^ 32

/-- `to_bytes`. -/
def bytes : List UInt8 :=
  leBytes 4 e.eeBlock ++ (leBytes 2 e.eeLen ++ (leBytes 2 e.eeStartHi ++ leBytes 4 e.eeStartLo))

end ExtentLeaf

/-- The leaf entry stored at `off`. -/
def leafAt (data : List UInt8) (off : Nat) : ExtentLeaf where
  eeBlock := getLe data off 4
  eeLen := getLe data (off + 4) 2
  eeStartHi := getLe data (off + 6) 2
  eeStartLo := getLe data (off + 8) 4
  eeBlock_lt := getLe_lt data off 4
  eeLen_lt := getLe_lt data (off + 4) 2
  eeStartHi_lt := getLe_lt data (off + 6) 2
  eeStartLo_lt := getLe_lt data (off + 8) 4

/-- `Ext4ExtentIndex`. -/
@[ext]
structure ExtentIndex where
  eiBlock : Nat
  eiLeafLo : Nat
  eiLeafHi : Nat
  eiUnused : Nat
  eiBlock_lt : eiBlock < 2 ^ 32
  eiLeafLo_lt : eiLeafLo < 2 ^ 32
  eiLeafHi_lt : eiLeafHi < 2 ^ 16
  eiUnused_lt : eiUnused < 2 ^ 16
  deriving DecidableEq

namespace ExtentIndex

/-- `leaf_phys`. -/
def leafPhys (e : ExtentIndex) : Nat := e.eiLeafHi * 2 ^ 32 + e.eiLeafLo

/-- The entry on disk. -/
def bytes (e : ExtentIndex) : List UInt8 :=
  leBytes 4 e.eiBlock ++ (leBytes 4 e.eiLeafLo ++ (leBytes 2 e.eiLeafHi ++ leBytes 2 e.eiUnused))

end ExtentIndex

variable (data : List UInt8)

/-- The index entry stored at `off`. -/
def indexAt (off : Nat) : ExtentIndex where
  eiBlock := getLe data off 4
  eiLeafLo := getLe data (off + 4) 4
  eiLeafHi := getLe data (off + 8) 2
  eiUnused := getLe data (off + 10) 2
  eiBlock_lt := getLe_lt data off 4
  eiLeafLo_lt := getLe_lt data (off + 4) 4
  eiLeafHi_lt := getLe_lt data (off + 8) 2
  eiUnused_lt := getLe_lt data (off + 10) 2

/-! ## Headers -/

/-- The magic number of an extent node. -/
def extentMagic : Nat := 0xF30A

def ehMagic : Nat := getLe data 0 2

def ehEntries : Nat := getLe data 2 2

def ehMax : Nat := getLe data 4 2

def ehDepth : Nat := getLe data 6 2

/-- `Ext4ExtentHeader` on disk. -/
def extentHeader (entries max depth generation : Nat) : List UInt8 :=
  leBytes 2 extentMagic ++ (leBytes 2 entries ++ (leBytes 2 max ++ (leBytes 2 depth ++ leBytes 4 generation)))

/-- The number of entries a node has room for: 4 in the 60-byte root, 340 in a block. -/
def slotCap : Nat := if data.length = 60 then 4 else 340

/-- The byte offset of entry `i`. -/
def slotOff (i : Nat) : Nat := 12 + i * 12

/-! ## Lookup -/

/-- The scan of a leaf node from entry `i` on, `n` entries left. -/
def leafScan (data : List UInt8) (logical : Nat) : Nat → Nat → Nat
  | _, 0 => 0
  | i, n + 1 =>
    if slotOff i + 12 > data.length then 0
    else
      let leaf := leafAt data (slotOff i)
      if logical ≥ leaf.eeBlock ∧ logical < leaf.logicalEnd then
        (leaf.startPhys + (logical - leaf.eeBlock)) % 2 ^ 32
      else leafScan data logical (i + 1) n

/-- The scan of an index node from entry `i` on: the last entry before the first key above
`logical`. -/
def indexScan (data : List UInt8) (logical : Nat) : Nat → Nat → Nat → Nat
  | _, 0, found => found
  | i, n + 1, found =>
    if logical ≥ getLe data (slotOff i) 4 then indexScan data logical (i + 1) n i else found

/-- The descent of `find_physical_block`; `none` when `fuel` levels did not suffice. -/
def findLoop (blocks : Nat → List UInt8) (logical : Nat) : Nat → List UInt8 → Option Nat
  | 0, _ => none
  | fuel + 1, data =>
    if data.length < 12 then some 0
    else if ehMagic data ≠ extentMagic then some 0
    else
      let actualEntries := min (ehEntries data) (slotCap data)
      if ehDepth data = 0 then some (leafScan data logical 0 actualEntries)
      else
        let foundIndex := indexScan data logical 0 actualEntries 0
        findLoop blocks logical fuel (blocks (indexAt data (slotOff foundIndex)).leafPhys)

/-- The fields of `Ext4InodeDisk` the block map reads and writes. -/
structure InodeDisk where
  iMode : Nat
  iSize : Nat
  iFlags : Nat
  iBlocksLo : Nat
  iBlock : List UInt8

/-- `EXT4_EXTENTS_FL`. -/
def extentsFl : Nat := 0x80000

/-- `uses_inline_symlink_storage`. -/
def InodeDisk.usesInlineSymlinkStorage (di : InodeDisk) : Bool :=
  di.iMode &&& 0xF000 = 0xA000 && di.iSize ≤ di.iBlock.length && di.iBlocksLo = 0

/-- `find_physical_block`, with `fuel` bounding the number of levels visited. -/
def findPhysicalBlock (fuel : Nat) (blocks : Nat → List UInt8) (di : InodeDisk) (logical : Nat) :
    Option Nat :=
  if di.usesInlineSymlinkStorage then some 0
  else if di.iFlags &&& extentsFl ≠ 0 then findLoop blocks logical fuel di.iBlock
  else if logical < 12 then some (getLe di.iBlock (logical * 4) 4)
  else some 0

/-! ## Insertion -/

/-- The ways `add_extent_entry` panics: `expect` on a missing index entry, the assertion of the
split, a slice out of range, `unwrap` of a failed allocation. `unbounded` is a descent deeper than
the fuel. -/
inductive ExtPanic where
  | noIndexEntry
  | splitNotFull
  | sliceOutOfRange
  | noFreeBlock
  | unbounded
  deriving DecidableEq

/-- What the insertion reads of the filesystem: whether nodes carry checksums, and the inode's
checksum seed. -/
structure ExtentCtx where
  hasMetadataCsum : Bool
  inodeSeed : UInt32

/-- What the insertion changes outside the node at hand: the device blocks, the blocks the next
calls of `alloc_block` return, and `metadata_blocks_added`. -/
structure ExtState where
  blocks : Nat → List UInt8
  free : List Nat
  metadataBlocksAdded : Nat

/-- A block has been allocated for a node. -/
abbrev ExtState.blockAdded (st : ExtState) (free : List Nat) : ExtState :=
  { st with free := free, metadataBlocksAdded := min (st.metadataBlocksAdded + 1) (2 ^ 32 - 1) }

variable (ctx : ExtentCtx)

/-- `set_extent_node_checksum`. -/
def setExtentNodeChecksum (block : List UInt8) : List UInt8 :=
  if block.length < 12 then block
  else
    let tailOffset := 12 + getLe block 4 2 * 12
    if tailOffset + 4 > block.length then block
    else setLe block tailOffset 4 (crc32c ctx.inodeSeed (block.take tailOffset)).toNat

/-- `write_back_block`; block 0 stands for the node in the inode, which is not written back. -/
def writeBackBlock (phys : Nat) (data : List UInt8) (st : ExtState) : ExtState :=
  if phys ≠ 0 then
    let buf := if ctx.hasMetadataCsum then setExtentNodeChecksum ctx data else data
    { st with blocks := Function.update st.blocks phys buf }
  else st

/-- `find_aim`: the offset of the last entry whose key is at most `logical`. -/
def findAim (entries logical : Nat) : Option Nat :=
  let n := min entries (slotCap data)
  if n = 0 then none
  else
    let lo := partitionPoint (fun i => getLe data (slotOff i) 4 ≤ logical) 0 n
    if lo = 0 then none else some (slotOff (lo - 1))

/-- Shift the entries from `insertOffset` on by one slot, store `entry` there and count it. -/
def insertSlot (insertOffset : Nat) (entry : List UInt8) : List UInt8 :=
  let bytesAfter := slotOff (ehEntries data) - insertOffset
  let data := splice data (insertOffset + 12) (slice data insertOffset bytesAfter)
  let data := splice data insertOffset entry
  setLe data 2 2 (ehEntries data + 1)

/-- The split of a full node: the right half of the entries moves to a new block. Returns the new
block with its first key, and the node. -/
def splitNode (phys : Nat) (data : List UInt8) (aimOffset : Nat) (entry : List UInt8)
    (st : ExtState) : Except ExtPanic ((Nat × Nat) × List UInt8 × ExtState) :=
  let insertOffset := aimOffset + 12
  let entryCount := ehEntries data
  if entryCount ≠ ehMax data then .error .splitNotFull
  else
    let current := data.take (slotOff entryCount)
    if insertOffset > current.length then .error .sliceOutOfRange
    else
      let total := entryCount + 1
      let mid := total / 2
      let combined := current.take insertOffset ++ (entry ++ current.drop insertOffset)
      let data := if aimOffset < mid * 12 then splice data 12 (slice combined 12 (mid * 12)) else data
      let data := setLe data 2 2 mid
      let st := writeBackBlock ctx phys data st
      match st.free with
      | [] => .error .noFreeBlock
      | blk :: free =>
        let newBuf := splice (List.replicate blockSz 0) 0 (extentHeader (total - mid) 340 (ehDepth data) 0)
        let newBuf := splice newBuf 12 (combined.drop (slotOff mid))
        let st := writeBackBlock ctx blk newBuf (st.blockAdded free)
        .ok ((blk, getLe combined (slotOff mid) 4), data, st)

/-- Store a new entry: in place when the node has room, otherwise by splitting it. Returns the split
of this node, if any, and the node. -/
def placeSlot (phys : Nat) (data : List UInt8) (insertOffset aimOffset : Nat)
    (entry : List UInt8) (st : ExtState) : Except ExtPanic (Option (Nat × Nat) × List UInt8 × ExtState) :=
  if ehEntries data < ehMax data then
    let data := insertSlot data insertOffset entry
    .ok (none, data, writeBackBlock ctx phys data st)
  else
    match splitNode ctx phys data aimOffset entry st with
    | .error e => .error e
    | .ok (split, data, st) => .ok (some split, data, st)

/-- A new index entry. -/
def newIndex (key blk : Nat) : List UInt8 :=
  leBytes 4 key ++ (leBytes 4 blk ++ (leBytes 2 0 ++ leBytes 2 0))

/-- The entry at the aim covers the block before `logical`, and `physical` continues it. -/
def ExtentLeaf.mergeable (e : ExtentLeaf) (logical physical : Nat) : Bool :=
  e.actualLen < (if e.eeLen > 32768 then 32767 else 32768) &&
    (e.eeBlock + e.actualLen) % 2 ^ 32 = logical && e.physEnd = physical

/-- `add_extent_in_tree`. Returns the split of this node, if any, and the node. -/
def addExtentInTree (ctx : ExtentCtx) (logical physical : Nat) :
    Nat → Nat → List UInt8 → ExtState → Except ExtPanic (Option (Nat × Nat) × List UInt8 × ExtState)
  | 0, _, _, _ => .error .unbounded
  | fuel + 1, phys, data, st =>
    let aim := findAim data (ehEntries data) logical
    if ehDepth data ≠ 0 then
      match aim with
      | none => .error .noIndexEntry
      | some aimOffset =>
        let nextBlock := (indexAt data aimOffset).leafPhys
        match addExtentInTree ctx logical physical fuel (nextBlock % 2 ^ 32) (st.blocks nextBlock) st with
        | .error e => .error e
        | .ok (none, _, st) => .ok (none, data, st)
        | .ok (some (newChildBlk, newChildFirstLogical), _, st) =>
          placeSlot ctx phys data (aimOffset + 12) aimOffset (newIndex newChildFirstLogical newChildBlk) st
    else
      let aimOffset := aim.getD 12
      let insertOffset := if aim.isSome then aimOffset + 12 else 12
      let merged := aim.any fun off => (leafAt data off).mergeable logical physical
      if merged then
        let e := leafAt data aimOffset
        let newLen := e.actualLen % 2 ^ 16 + 1
        let data := setLe data (aimOffset + 4) 2 (if e.eeLen > 32768 then newLen + 32768 else newLen)
        .ok (none, data, writeBackBlock ctx phys data st)
      else
        placeSlot ctx phys data insertOffset aimOffset
          (leBytes 4 logical ++ (leBytes 2 1 ++ (leBytes 2 0 ++ leBytes 4 physical))) st

/-- The upgrade of a split root: its left half moves to a block of its own and the root becomes an
index node over the two halves. -/
def growRoot (root : List UInt8) (rightBlk rightFirst : Nat) (st : ExtState) :
    Except ExtPanic (List UInt8 × ExtState) :=
  match st.free with
  | [] => .error .noFreeBlock
  | leftBlk :: free =>
    let leftBuf := splice (List.replicate blockSz 0) 0 (extentHeader (ehEntries root) 340 (ehDepth root) 0)
    let leftBuf := splice leftBuf 12 (slice root 12 (ehEntries root * 12))
    let st := writeBackBlock ctx leftBlk leftBuf (st.blockAdded free)
    let root' := splice root 0 (extentHeader 2 4 ((ehDepth root + 1) % 2 ^ 16) 0)
    let root' := splice root' 12 (newIndex (getLe leftBuf 12 4) leftBlk)
    let root' := splice root' 24 (newIndex rightFirst rightBlk)
    .ok (root', st)

/-- `add_extent_entry`. The depth field has 16 bits, so `2 ^ 16` levels bound the descent on any
tree whose depths decrease. -/
def addExtentEntry (di : InodeDisk) (blocks : Nat → List UInt8) (free : List Nat)
    (logical physical : Nat) : Except ExtPanic (Option Nat × InodeDisk × ExtState) :=
  let st : ExtState := ⟨blocks, free, 0⟩
  if ehMagic di.iBlock ≠ extentMagic then .ok (none, di, st)
  else
    match addExtentInTree ctx logical physical (2 ^ 16) 0 di.iBlock st with
    | .error e => .error e
    | .ok (split, root, st) =>
      let grown : Except ExtPanic (List UInt8 × ExtState) := match split with
        | none => .ok (root, st)
        | some (rightBlk, rightFirst) => growRoot ctx root rightBlk rightFirst st
      match grown with
      | .error e => .error e
      | .ok (root, st) =>
        let iBlocksLo := min (di.iBlocksLo + (1 + st.metadataBlocksAdded) * (blockSz / 512)) (2 ^ 32 - 1)
        .ok (some physical, { di with iBlock := root, iBlocksLo := iBlocksLo }, st)

end ShellCore.Ext4
