import Mathlib.Data.List.AList
import ShellCore.Ext4.Checksum
import ShellCore.Ext4.DirBlock

/-!
# Directory operations

`add_dir_entry`, `remove_dir_entry_only`, `replace_dir_entry` and `lookup_dir_entry_checked` on a
directory file. The file's contents are a byte string: a write inside the file overwrites it, a
write at its end needs a new block and succeeds exactly when the allocation does (`room`).
-/

namespace ShellCore.Ext4

open ByteBuf DirEntry

/-- `CachedDirEntry`. -/
structure CachedDirEntry where
  inodeId : Nat
  fileType : Nat
  deriving DecidableEq

/-- `EXT4_DIR_LOOKUP_CACHE_CAPACITY`. -/
def dirLookupCacheCapacity : Nat := 2048

/-- `DirLookupCache`: the positive name cache of a directory. -/
structure DirLookupCache where
  generation : Nat
  entries : AList fun _ : List UInt8 => CachedDirEntry

namespace DirLookupCache

/-- `DirLookupCache::remember`. -/
def remember (c : DirLookupCache) (name : List UInt8) (inodeId fileType : Nat) : DirLookupCache :=
  if name = [] then c
  else if (c.entries.lookup name).isSome then
    { c with entries := c.entries.insert name ⟨inodeId, fileType⟩ }
  else if c.entries.keys.length ≥ dirLookupCacheCapacity then
    { c with entries := (∅ : AList _).insert name ⟨inodeId, fileType⟩ }
  else { c with entries := c.entries.insert name ⟨inodeId, fileType⟩ }

/-- The cleared cache of the next generation. -/
def nextGeneration (c : DirLookupCache) : DirLookupCache := ⟨(c.generation + 1) % 2 ^ 64, ∅⟩

end DirLookupCache

/-- What the directory code reads of the inode and its filesystem and never changes. -/
structure DirInode where
  inodeId : Nat
  generation : Nat
  isDir : Bool
  roCompatFeatures : Nat
  checksumType : Nat
  checksumSeed : UInt32

/-- `EXT4_FEATURE_RO_COMPAT_METADATA_CSUM`. -/
def roCompatMetadataCsum : Nat := 0x0400

variable (di : DirInode)

/-- `has_metadata_csum`. -/
def DirInode.hasMetadataCsum : Bool :=
  di.roCompatFeatures &&& roCompatMetadataCsum ≠ 0 && di.checksumType = 1

/-- A directory: its file contents, `EXT4_INDEX_FL` and its name cache. -/
structure Dir where
  data : List UInt8
  indexed : Bool
  cache : DirLookupCache

/-- The checksum of the part of a directory block before its tail. -/
def dirBlockCrc (covered : List UInt8) : UInt32 :=
  crc32c (crc32c (crc32c di.checksumSeed (leBytes 4 di.inodeId)) (leBytes 4 di.generation)) covered

/-- `update_dir_block_checksum_if_needed`. -/
def updateDirBlockChecksumIfNeeded (buf : List UInt8) : List UInt8 :=
  if !di.isDir then buf
  else if di.roCompatFeatures &&& roCompatMetadataCsum = 0 then buf
  else if buf.length < blockSz then buf
  else
    let tailOff := blockSz - 12
    let recLen := getLe buf (tailOff + 4) 2
    let reservedZero2 := getLe buf (tailOff + 6) 1
    let reservedFt := getLe buf (tailOff + 7) 1
    if recLen ≠ 12 ∨ reservedZero2 ≠ 0 ∨ reservedFt ≠ 0xDE then buf
    else
      let buf := splice buf (tailOff + 8) (List.replicate 4 0)
      setLe buf (tailOff + 8) 4 (dirBlockCrc di (buf.take tailOff)).toNat

variable (d : Dir)

/-- `invalidate_dir_lookup_cache`. -/
def invalidateDirLookupCache : Dir :=
  if !di.isDir then d else { d with cache := d.cache.nextGeneration }

/-- `commit_dir_lookup_cache_entry`. -/
def commitDirLookupCacheEntry (name : List UInt8) (inodeId fileType : Nat) :
    Dir :=
  if !di.isDir then d
  else if name = [] then { d with cache := d.cache.nextGeneration }
  else { d with cache := d.cache.nextGeneration.remember name inodeId fileType }

/-- `cached_dir_entry`. -/
def cachedDirEntry (name : List UInt8) : Option (Nat × Nat) :=
  if !di.isDir || name = [] then none
  else (d.cache.entries.lookup name).map fun e => (e.inodeId, e.fileType)

/-- `remember_dir_entry_if_current`. -/
def rememberDirEntryIfCurrent (generation : Nat) (name : List UInt8)
    (inodeId fileType : Nat) : Dir :=
  if !di.isDir || name = [] then d
  else if d.cache.generation = generation then
    { d with cache := d.cache.remember name inodeId fileType }
  else d

/-- `write_at` of one whole block at a block boundary: the number of bytes written and the new
contents. Past the end a block has to be allocated; `room` says whether that succeeds. -/
def writeBlockAt (room : Bool) (data : List UInt8) (off : Nat) (buf : List UInt8) : Nat × List UInt8 :=
  if off < data.length ∨ room then (buf.length, splice data off buf) else (0, data)

/-- Apply `f` to `buf[off..end]` in place. -/
def modifySlice (buf : List UInt8) (off stop : Nat) (f : List UInt8 → Option (List UInt8)) :
    Option (List UInt8) :=
  (f (slice buf off (stop - off))).map (splice buf off)

/-- Write back a changed block; the update counts when the whole block was written. -/
def storeBlock (room : Bool) (d : Dir) (off : Nat) (buf : List UInt8)
    (onSuccess : Dir → Dir) : Bool × Dir :=
  let written := writeBlockAt room d.data off (updateDirBlockChecksumIfNeeded di buf)
  let d' := { d with data := written.2 }
  if written.1 = blockSz then (true, onSuccess d') else (false, invalidateDirLookupCache di d')

/-- `prepare_directory_for_mutation`: drop the hash index of a depth-zero indexed directory. -/
def prepareDirectoryForMutation : Bool × Dir :=
  if !d.indexed then (true, d)
  else if !di.isDir || d.data.length < blockSz then (false, d)
  else
    let root := slice d.data 0 blockSz
    match fromBytes root with
    | none => (false, d)
    | some dot =>
      if dot.inode = 0 ∨ dot.nameBytes ≠ [0x2E] ∨ dot.recLen ≠ 12 then (false, d)
      else
        let dotdotOffset := dot.recLen
        match fromBytes (root.drop dotdotOffset) with
        | none => (false, d)
        | some dotdot =>
          if dotdot.inode = 0 ∨ dotdot.nameBytes ≠ [0x2E, 0x2E] ∨ dotdot.realLen ≠ 12 ∨
              dotdotOffset + dotdot.recLen ≠ blockSz then (false, d)
          else
            let dxInfoOffset := dotdotOffset + dotdot.realLen
            if dxInfoOffset + 8 > blockSz ∨ slice root dxInfoOffset 4 ≠ [0, 0, 0, 0] ∨
                getLe root (dxInfoOffset + 5) 1 ≠ 8 ∨ getLe root (dxInfoOffset + 6) 1 ≠ 0 then (false, d)
            else
              let tailSize := if di.hasMetadataCsum then 12 else 0
              let tailOffset := blockSz - tailSize
              if dxInfoOffset + 8 > tailOffset then (false, d)
              else
                let linearDotdotLen := tailOffset - dotdotOffset
                match modifySlice root dotdotOffset blockSz (setRecLen · linearDotdotLen) with
                | none => (false, d)
                | some root =>
                  let root := splice root dxInfoOffset (List.replicate (tailOffset - dxInfoOffset) 0)
                  let root :=
                    if tailSize ≠ 0 then
                      let root := splice root tailOffset (List.replicate tailSize 0)
                      let root := setLe root (tailOffset + 4) 2 12
                      let root := setLe root (tailOffset + 7) 1 0xDE
                      updateDirBlockChecksumIfNeeded di root
                    else root
                  let written := writeBlockAt false d.data 0 root
                  if written.1 ≠ blockSz then (false, { d with data := written.2 })
                  else (true, invalidateDirLookupCache di { d with data := written.2, indexed := false })

/-- The test every operation matches names with: a live entry of that name. -/
def DirEntry.isNamed (e : DirEntry) (name : List UInt8) : Bool :=
  e.inode ≠ 0 && e.nameBytes = name

/-- The block read into a zero-padded `BLOCK_SZ` buffer (`buf[read_len..].fill(0)`). -/
def padBlock (read : List UInt8) : List UInt8 := read ++ List.replicate (blockSz - read.length) 0

variable (name : List UInt8)

/-- The duplicate check of `add_dir_entry`. -/
def dupScan (_off : Nat) (read : List UInt8) : Scan Unit :=
  scanBlock 1 (fun _ _ e => if e.isNamed name then some () else none) read read.length none 0

/-- The insertion attempt of `add_dir_entry` in one block: split the first record with enough
slack. `found none` is the refusal of one of the encoders. -/
def insertScan (inodeId fileType neededLen : Nat) (off : Nat) (read : List UInt8) :
    Scan (Option (Nat × List UInt8)) :=
  let buf := padBlock read
  scanBlock 1
    (fun _ blockOffset e =>
      if !e.isChecksumTail && e.recLen ≥ e.realLen + neededLen then
        some (do
          let buf ← modifySlice buf blockOffset read.length (setRecLen · e.realLen)
          let buf ← modifySlice buf (blockOffset + e.realLen) read.length
            (writeTo · inodeId (e.recLen - e.realLen) name fileType)
          some (off, buf))
      else none)
    buf read.length none 0

/-- The fresh block `add_dir_entry` appends when every block is full; `none` if `write_to`
refuses. -/
def newDirBlock (inodeId fileType : Nat) : Option (List UInt8) :=
  let tailSize := if di.hasMetadataCsum then 12 else 0
  match writeTo (List.replicate blockSz 0) inodeId (blockSz - tailSize) name fileType with
  | none => none
  | some newBuf =>
    if tailSize ≠ 0 then
      let tailOff := blockSz - tailSize
      let newBuf := splice newBuf tailOff (List.replicate tailSize 0)
      let newBuf := setLe newBuf (tailOff + 4) 2 12
      some (setLe newBuf (tailOff + 7) 1 0xDE)
    else some newBuf

/-- `add_dir_entry`. -/
def addDirEntry (room : Bool) (d : Dir) (name : List UInt8) (inodeId fileType : Nat) :
    Bool × Dir :=
  match prepareDirectoryForMutation di d with
  | (false, d) => (false, d)
  | (true, d) =>
    let commit := fun d => commitDirLookupCacheEntry di d name inodeId fileType
    match recordLen name.length with
    | none => (false, d)
    | some neededLen =>
      match scanDir (dupScan name) d.data (blockOffsets d.data.length) with
      | .found _ => (false, d)
      | .malformed => (false, d)
      | .done _ =>
        match scanDir (insertScan name inodeId fileType neededLen) d.data (blockOffsets d.data.length) with
        | .malformed => (false, d)
        | .found none => (false, d)
        | .found (some (off, buf)) => storeBlock di room d off buf commit
        | .done _ =>
          match newDirBlock di name inodeId fileType with
          | none => (false, d)
          | some newBuf => storeBlock di room d d.data.length newBuf commit

/-- A scan whose guard stopped before the end of the block met a malformed entry. -/
def Scan.atEnd {β : Type} (readLen : Nat) : Scan β → Scan β
  | .done off => if off ≠ readLen then .malformed else .done off
  | r => r

/-- The search of `remove_dir_entry_only` in one block: give the record to its predecessor, or
clear the inode of the first record. -/
def removeScan (off : Nat) (read : List UInt8) :
    Scan (Option ((Nat × Nat) × Nat × List UInt8)) :=
  let buf := padBlock read
  (scanBlock 8
    (fun prevOffset blockOffset e =>
      if e.isNamed name then
        some (do
          let buf ← match prevOffset with
            | some previous => do
              let previousEntry ← fromBytes (slice buf previous (read.length - previous))
              if previousEntry.isChecksumTail then none
              else
                let mergedLen := previousEntry.recLen + e.recLen
                if mergedLen > read.length - previous then none
                else modifySlice buf previous read.length (setRecLen · (mergedLen % 2 ^ 16))
            | none => modifySlice buf blockOffset read.length (setInode · 0)
          some ((e.inode, e.fileType), off, buf))
      else none)
    buf read.length none 0).atEnd read.length

/-- `remove_dir_entry_only`. -/
def removeDirEntryOnly : Option (Nat × Nat) × Dir :=
  match prepareDirectoryForMutation di d with
  | (false, d) => (none, d)
  | (true, d) =>
    match scanDir (removeScan name) d.data (blockOffsets d.data.length) with
    | .found (some (removed, off, buf)) =>
      match storeBlock di false d off buf (invalidateDirLookupCache di) with
      | (true, d) => (some removed, d)
      | (false, d) => (none, d)
    | _ => (none, d)

/-- The search of `replace_dir_entry` in one block. -/
def replaceScan (inodeId fileType : Nat) (off : Nat) (read : List UInt8) :
    Scan (Option ((Nat × Nat) × Nat × List UInt8)) :=
  let buf := padBlock read
  (scanBlock 8
    (fun _ blockOffset e =>
      if e.isNamed name then
        some (do
          let buf ← modifySlice buf blockOffset read.length (setInode · inodeId)
          let buf ← modifySlice buf blockOffset read.length (setFileType · fileType)
          some ((e.inode, e.fileType), off, buf))
      else none)
    buf read.length none 0).atEnd read.length

/-- `replace_dir_entry`. -/
def replaceDirEntry (inodeId fileType : Nat) :
    Option (Nat × Nat) × Dir :=
  match prepareDirectoryForMutation di d with
  | (false, d) => (none, d)
  | (true, d) =>
    match scanDir (replaceScan name inodeId fileType) d.data (blockOffsets d.data.length) with
    | .found (some (replaced, off, buf)) =>
      match storeBlock di false d off buf
        (fun d => commitDirLookupCacheEntry di d name inodeId fileType) with
      | (true, d) => (some replaced, d)
      | (false, d) => (none, d)
    | _ => (none, d)

/-- The search of `lookup_dir_entry_checked` in one block. -/
def lookupScan (_off : Nat) (read : List UInt8) : Scan (Nat × Nat) :=
  scanBlock 1 (fun _ _ e => if e.isNamed name then some (e.inode, e.fileType) else none)
    read read.length none 0

/-- `lookup_dir_entry_checked`; `error` is a malformed directory. -/
def lookupDirEntryChecked :
    Except Unit (Option (Nat × Nat)) × Dir :=
  match cachedDirEntry di d name with
  | some entry => (.ok (some entry), d)
  | none =>
    let cacheGeneration := d.cache.generation
    match scanDir (lookupScan name) d.data (blockOffsets d.data.length) with
    | .found entry =>
      (.ok (some entry), rememberDirEntryIfCurrent di d cacheGeneration name entry.1 entry.2)
    | .malformed => (.error (), d)
    | .done _ => (.ok none, d)

end ShellCore.Ext4
