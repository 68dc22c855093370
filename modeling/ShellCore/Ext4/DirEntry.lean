import ShellCore.Lib.Bytes

/-!
# Directory entries

The variable-length records of an ext4 directory block: the checked decoder
`decode_header`/`from_bytes`, the encoders that update one record in place, and the `Record`
view of a valid entry that the directory proofs work with.
-/

namespace ShellCore.Ext4

open ByteBuf List

/-- `EXT4_DIR_ENTRY_HEADER_LEN`. -/
def dirEntryHeaderLen : Nat := 8

/-- `EXT4_DIR_ENTRY_MAX_NAME_LEN`. -/
def dirEntryMaxNameLen : Nat := 255

/-- `decode_header`: inode, record length, name length and file type of the entry at the start of
`buf`. -/
def decodeHeader (buf : List UInt8) : Option (Nat × Nat × Nat × Nat) :=
  if buf.length < dirEntryHeaderLen then none
  else
    let inode := getLe buf 0 4
    let recLen := getLe buf 4 2
    let nameLen := getLe buf 6 1
    let fileType := getLe buf 7 1
    if recLen < dirEntryHeaderLen ∨ recLen % 4 ≠ 0 ∨ recLen > buf.length ∨
        nameLen > recLen - dirEntryHeaderLen then none
    else some (inode, recLen, nameLen, fileType)

/-- A validated view of one entry, restricted to its record. -/
structure DirEntry where
  bytes : List UInt8
  inode : Nat
  recLen : Nat
  nameLen : Nat
  fileType : Nat
  deriving DecidableEq

namespace DirEntry

variable (buf : List UInt8)

/-- `from_bytes`. -/
def fromBytes : Option DirEntry :=
  match decodeHeader buf with
  | none => none
  | some (inode, recLen, nameLen, fileType) => some ⟨buf.take recLen, inode, recLen, nameLen, fileType⟩

/-- `name_bytes`. -/
def nameBytes (d : DirEntry) : List UInt8 := slice d.bytes dirEntryHeaderLen d.nameLen

/-- `record_len`: the aligned size of a record for a name of `nameLen` bytes (`& !3` rounds down
to a multiple of four). -/
def recordLen (nameLen : Nat) : Option Nat :=
  if nameLen > dirEntryMaxNameLen then none
  else some ((dirEntryHeaderLen + nameLen + 3) / 4 * 4)

/-- `real_len`; `name_len` is a byte, so the `expect` of the source cannot fail. -/
def realLen (d : DirEntry) : Nat := (recordLen d.nameLen).getD 0

/-- `is_checksum_tail`. -/
def isChecksumTail (d : DirEntry) : Bool :=
  d.inode = 0 && d.recLen = 12 && d.nameLen = 0 && d.fileType = 0xDE

/-- `write_to`; `none` is the `false` answer, which leaves the buffer alone. -/
def writeTo (inode recLen : Nat) (name : List UInt8) (fileType : Nat) :
    Option (List UInt8) :=
  match recordLen name.length with
  | none => none
  | some minLen =>
    if recLen < minLen ∨ recLen > buf.length ∨ recLen % 4 ≠ 0 then none
    else
      let record := replicate recLen 0
      let record := setLe record 0 4 inode
      let record := setLe record 4 2 recLen
      let record := setLe record 6 1 name.length
      let record := setLe record 7 1 fileType
      let record := splice record dirEntryHeaderLen name
      some (record ++ buf.drop recLen)

/-- `set_inode`. -/
def setInode (inode : Nat) : Option (List UInt8) :=
  if (decodeHeader buf).isNone then none else some (setLe buf 0 4 inode)

/-- `set_file_type`. -/
def setFileType (fileType : Nat) : Option (List UInt8) :=
  if (decodeHeader buf).isNone then none else some (setLe buf 7 1 fileType)

/-- `set_rec_len`. -/
def setRecLen (recLen : Nat) : Option (List UInt8) :=
  match decodeHeader buf with
  | none => none
  | some (_, _, nameLen, _) =>
    let minLen := (recordLen nameLen).getD 0
    if recLen < minLen ∨ recLen > buf.length ∨ recLen % 4 ≠ 0 then none
    else some (setLe buf 4 2 recLen)

theorem recordLen_eq {n} (h : n ≤ 255) : recordLen n = some ((8 + n + 3) / 4 * 4) := by
  rw [recordLen, dirEntryMaxNameLen, if_neg (by omega), dirEntryHeaderLen]

theorem fromBytes_bounds {buf d} (h : fromBytes buf = some d) :
    8 ≤ d.recLen ∧ d.recLen ≤ buf.length := by
  unfold fromBytes decodeHeader dirEntryHeaderLen at h
  split at h
  · cases h
  · rename_i hdec
    split at hdec
    · cases hdec
    · simp only at hdec
      split at hdec
      · cases hdec
      · cases hdec; cases h
        dsimp only; omega

end DirEntry

/-! ## The eight header bytes -/

/-- The header of an entry as it stands on disk. -/
def header (inode recLen nameLen fileType : Nat) : List UInt8 :=
  leBytes 4 inode ++ (leBytes 2 recLen ++ (leBytes 1 nameLen ++ leBytes 1 fileType))

@[simp] theorem length_header (i l n f : Nat) : (header i l n f).length = 8 := by
  simp [header]

section HeaderFields

variable {i l n f : Nat} {body : List UInt8}

theorem getLe_header_inode : getLe (header i l n f ++ body) 0 4 = i % 2 ^ 32 := by
  rw [header, append_assoc]
  exact getLe_append (a := []) rfl

theorem getLe_header_recLen : getLe (header i l n f ++ body) 4 2 = l % 2 ^ 16 := by
  rw [header, append_assoc, append_assoc]
  exact getLe_append (by simp)

theorem getLe_header_nameLen : getLe (header i l n f ++ body) 6 1 = n % 256 := by
  have hsplit : header i l n f ++ body =
      (leBytes 4 i ++ leBytes 2 l) ++ (leBytes 1 n ++ (leBytes 1 f ++ body)) := by
    simp [header]
  rw [hsplit]
  exact getLe_append (by simp)

theorem getLe_header_fileType : getLe (header i l n f ++ body) 7 1 = f % 256 := by
  have hsplit : header i l n f ++ body =
      (leBytes 4 i ++ (leBytes 2 l ++ leBytes 1 n)) ++ (leBytes 1 f ++ body) := by
    simp [header]
  rw [hsplit]
  exact getLe_append (by simp)

theorem setLe_header_inode (j : Nat) : setLe (header i l n f ++ body) 0 4 j = header j l n f ++ body := by
  rw [header, append_assoc, header, append_assoc]
  exact setLe_append (a := []) (x := leBytes 4 i) rfl (length_leBytes 4 i)

theorem setLe_header_recLen (m : Nat) : setLe (header i l n f ++ body) 4 2 m = header i m n f ++ body := by
  simp only [header, append_assoc]
  exact setLe_append (by simp) (by simp)

theorem setLe_header_nameLen (m : Nat) : setLe (header i l n f ++ body) 6 1 m = header i l m f ++ body := by
  have hsplit : ∀ k, header i l k f ++ body =
      (leBytes 4 i ++ leBytes 2 l) ++ (leBytes 1 k ++ (leBytes 1 f ++ body)) := by
    intro k; simp [header]
  rw [hsplit, hsplit]
  exact setLe_append (by simp) (by simp)

theorem setLe_header_fileType (g : Nat) : setLe (header i l n f ++ body) 7 1 g = header i l n g ++ body := by
  have hsplit : ∀ k, header i l n k ++ body =
      (leBytes 4 i ++ (leBytes 2 l ++ leBytes 1 n)) ++ (leBytes 1 k ++ body) := by
    intro k; simp [header]
  rw [hsplit, hsplit]
  exact setLe_append (by simp) (by simp)

/-- What the decoder makes of a header followed by `body`. -/
theorem decodeHeader_header (hi : i < 2 ^ 32) (hl : l < 2 ^ 16) (hn : n < 256) (hf : f < 256)
    (h8 : 8 ≤ l) (h4 : l % 4 = 0) (hb : l ≤ 8 + body.length) (hnl : n ≤ l - 8) :
    decodeHeader (header i l n f ++ body) = some (i, l, n, f) := by
  simp only [decodeHeader, getLe_header_inode, getLe_header_recLen, getLe_header_nameLen,
    getLe_header_fileType, Nat.mod_eq_of_lt hi, Nat.mod_eq_of_lt hl, Nat.mod_eq_of_lt hn,
    Nat.mod_eq_of_lt hf, length_append, length_header, dirEntryHeaderLen]
  rw [if_neg (by omega), if_neg (by omega)]

end HeaderFields

/-! ## Records -/

/-- A valid entry: the name, then the slack up to the record length. -/
structure Record where
  inode : Nat
  fileType : Nat
  name : List UInt8
  slack : List UInt8
  inode_lt : inode < 2 ^ 32
  fileType_lt : fileType < 256
  name_le : name.length ≤ 255
  aligned : (8 + name.length + slack.length) % 4 = 0
  recLen_lt : 8 + name.length + slack.length < 2 ^ 16

namespace Record

def recLen (r : Record) : Nat := 8 + r.name.length + r.slack.length

/-- The record on disk. -/
def bytes (r : Record) : List UInt8 :=
  header r.inode r.recLen r.name.length r.fileType ++ (r.name ++ r.slack)

/-- The view `from_bytes` gives of the record. -/
def entry (r : Record) : DirEntry := ⟨r.bytes, r.inode, r.recLen, r.name.length, r.fileType⟩

variable (r : Record)

include r

@[simp] theorem length_bytes : r.bytes.length = r.recLen := by
  simp [bytes, recLen]; omega

theorem recLen_ge : 8 ≤ r.recLen := by
  unfold recLen; omega

variable (rest : List UInt8)

theorem decodeHeader_bytes :
    decodeHeader (r.bytes ++ rest) = some (r.inode, r.recLen, r.name.length, r.fileType) := by
  have hname := r.name_le
  have halign := r.aligned
  rw [bytes, append_assoc]
  have hrec : r.recLen = 8 + r.name.length + r.slack.length := rfl
  exact decodeHeader_header r.inode_lt r.recLen_lt (by omega) r.fileType_lt r.recLen_ge halign
    (by simp; omega) (by omega)

/-- Decoding at the start of a record gives the record back. -/
@[simp] theorem fromBytes_bytes : DirEntry.fromBytes (r.bytes ++ rest) = some r.entry := by
  rw [DirEntry.fromBytes, decodeHeader_bytes]
  simp only [entry, Option.some.injEq, DirEntry.mk.injEq, and_true]
  exact take_left' r.length_bytes

@[simp] theorem nameBytes_entry : r.entry.nameBytes = r.name := by
  rw [DirEntry.nameBytes, entry]
  exact slice_append_at (by simp [dirEntryHeaderLen]) rfl

@[simp] theorem entry_inode : r.entry.inode = r.inode := rfl

@[simp] theorem entry_recLen : r.entry.recLen = r.recLen := rfl

@[simp] theorem entry_fileType : r.entry.fileType = r.fileType := rfl

/-- The aligned size of the record without reusable slack. -/
def realLen : Nat := (8 + r.name.length + 3) / 4 * 4

theorem entry_realLen : r.entry.realLen = r.realLen := by
  have hname : ¬ r.name.length > dirEntryMaxNameLen := by
    have := r.name_le
    unfold dirEntryMaxNameLen; omega
  simp [DirEntry.realLen, DirEntry.recordLen, entry, hname, realLen, dirEntryHeaderLen]

theorem realLen_le : r.realLen ≤ r.recLen := by
  have := r.aligned
  unfold realLen recLen; omega

/-- The record retargeted to another inode and type. -/
def retarget (inode fileType : Nat) (hi : inode < 2 ^ 32) (hf : fileType < 256) : Record :=
  { r with inode := inode, fileType := fileType, inode_lt := hi, fileType_lt := hf }

/-- The record with its slack replaced. -/
def withSlack (slack : List UInt8) (ha : (8 + r.name.length + slack.length) % 4 = 0)
    (hl : 8 + r.name.length + slack.length < 2 ^ 16) : Record :=
  { r with slack := slack, aligned := ha, recLen_lt := hl }

theorem setInode_bytes {j} (hj : j < 2 ^ 32) : DirEntry.setInode (r.bytes ++ rest) j =
      some ((r.retarget j r.fileType hj r.fileType_lt).bytes ++ rest) := by
  rw [DirEntry.setInode, decodeHeader_bytes, bytes, append_assoc, setLe_header_inode]
  simp [retarget, bytes, recLen]

theorem setFileType_bytes {g} (hg : g < 256) : DirEntry.setFileType (r.bytes ++ rest) g =
      some ((r.retarget r.inode g r.inode_lt hg).bytes ++ rest) := by
  rw [DirEntry.setFileType, decodeHeader_bytes, bytes, append_assoc, setLe_header_fileType]
  simp [retarget, bytes, recLen]

omit r

/-- Changing the record length moves the boundary between the slack and what follows. -/
theorem setRecLen_bytes {r s : Record} {rest rest'} (hi : s.inode = r.inode)
    (hf : s.fileType = r.fileType) (hn : s.name = r.name) (h : r.slack ++ rest = s.slack ++ rest') :
    DirEntry.setRecLen (r.bytes ++ rest) s.recLen = some (s.bytes ++ rest') := by
  have hlen : r.slack.length + rest.length = s.slack.length + rest'.length := by
    simpa using congrArg length h
  have hr : r.recLen = 8 + r.name.length + r.slack.length := rfl
  have hs : s.recLen = 8 + r.name.length + s.slack.length := by rw [recLen, hn]
  have halign : s.recLen % 4 = 0 := s.aligned
  simp only [DirEntry.setRecLen, decodeHeader_bytes, DirEntry.recordLen_eq r.name_le, Option.getD_some, length_append,
    length_bytes]
  rw [if_neg (by omega), bytes, append_assoc, append_assoc, h, setLe_header_recLen, bytes,
    hi, hf, hn]
  simp

end Record

/-- `write_to` lays down the header, the name and zeroed slack. -/
theorem writeTo_eq {buf name inode recLen fileType} (hn : name.length ≤ 255)
    (hmin : (8 + name.length + 3) / 4 * 4 ≤ recLen) (hbuf : recLen ≤ buf.length) (h4 : recLen % 4 = 0) :
    DirEntry.writeTo buf inode recLen name fileType =
      some (header inode recLen name.length fileType ++
        (name ++ replicate (recLen - 8 - name.length) 0) ++ buf.drop recLen) := by
  have hzero : replicate recLen (0 : UInt8) =
      header 0 0 0 0 ++ (replicate name.length 0 ++ replicate (recLen - 8 - name.length) 0) := by
    have h8 : header 0 0 0 0 = replicate 8 0 := by decide
    rw [h8, ← replicate_add, ← replicate_add]
    congr 1; omega
  simp only [DirEntry.writeTo, DirEntry.recordLen_eq hn]
  rw [if_neg (by omega), hzero, setLe_header_inode, setLe_header_recLen, setLe_header_nameLen,
    setLe_header_fileType, splice_append_at (by simp [dirEntryHeaderLen]) (by simp)]

end ShellCore.Ext4
