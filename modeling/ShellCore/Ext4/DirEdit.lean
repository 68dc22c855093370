import Mathlib
import ShellCore.Ext4.Dir

/-!
# Editing directory blocks

A directory block is a list of proper records followed, when the filesystem has metadata checksums,
by the checksum tail. The scans of the directory operations are evaluated on such blocks: each edit
of the source is an edit of the list of records.
-/

namespace ShellCore.Ext4

open ByteBuf Record List

/-! ## Blocks -/

/-- The checksum tail holding `crc`. -/
def tailRecord (crc : UInt32) : Record where
  inode := 0
  fileType := 0xDE
  name := []
  slack := leBytes 4 crc.toNat
  inode_lt := by decide
  fileType_lt := by decide
  name_le := by decide
  aligned := by simp
  recLen_lt := by simp

@[simp] theorem recLen_tailRecord (crc : UInt32) : (tailRecord crc).recLen = 12 := by
  simp [recLen, tailRecord]

@[simp] theorem isChecksumTail_tailRecord (crc : UInt32) : (tailRecord crc).entry.isChecksumTail = true := by
  simp [DirEntry.isChecksumTail, entry, tailRecord, recLen]

/-- The records after the proper ones, the tail holding `crc`. -/
def tailWith (di : DirInode) (crc : UInt32) : List Record :=
  if di.hasMetadataCsum then [tailRecord crc] else []

/-- The bytes of a directory block with proper records `rs`. -/
def blockBytes (di : DirInode) (rs : List Record) : List UInt8 :=
  encode (rs ++ tailWith di (dirBlockCrc di (encode rs)))

/-- The directory's filesystem fixes the checksum algorithm whenever it enables checksums. -/
structure DirInodeOk (di : DirInode) : Prop where
  isDir : di.isDir = true
  checksumType : di.roCompatFeatures &&& roCompatMetadataCsum ≠ 0 → di.checksumType = 1

/-- The records tile the block, and only the tail looks like a tail. -/
structure BlockOk (di : DirInode) (rs : List Record) : Prop where
  size : (blockBytes di rs).length = blockSz
  proper : ∀ r ∈ rs, r.entry.isChecksumTail = false

theorem length_encode_tailWith (di : DirInode) (c c' : UInt32) :
    (encode (tailWith di c)).length = (encode (tailWith di c')).length := by
  unfold tailWith
  split <;> simp

variable {di : DirInode}

theorem tailWith_skip {β : Type} {c} {f : DirEntry → Option β}
    (hf : ∀ e : DirEntry, e.isChecksumTail = true → f e = none) :
    ∀ r ∈ tailWith di c, f r.entry = none := by
  intro r hr
  unfold tailWith at hr
  split at hr
  · rw [mem_singleton] at hr
    subst hr
    exact hf _ (isChecksumTail_tailRecord c)
  · cases hr

theorem hasMetadataCsum_iff (h : DirInodeOk di) :
    di.hasMetadataCsum = true ↔ di.roCompatFeatures &&& roCompatMetadataCsum ≠ 0 := by
  constructor
  · intro hc
    simp only [DirInode.hasMetadataCsum, Bool.and_eq_true, decide_eq_true_eq] at hc
    exact hc.1
  · intro hc
    simp [DirInode.hasMetadataCsum, hc, h.checksumType hc]

variable {rs : List Record}

/-- Recomputing the checksum turns any tail into the right one. -/
theorem updateDirBlockChecksumIfNeeded_encode (h : DirInodeOk di)
    {c} (hsize : (encode (rs ++ tailWith di c)).length = blockSz) :
    updateDirBlockChecksumIfNeeded di (encode (rs ++ tailWith di c)) = blockBytes di rs := by
  unfold updateDirBlockChecksumIfNeeded
  rw [if_neg (by simp [h.isDir])]
  by_cases hc : di.hasMetadataCsum
  · have hfeat := (hasMetadataCsum_iff h).1 hc
    have hlen : (encode rs).length = blockSz - 12 := by
      rw [tailWith, if_pos hc, encode_append, length_append] at hsize
      simp at hsize
      omega
    have hbytes : ∀ x, encode (rs ++ tailWith di x) =
        encode rs ++ (header 0 12 0 0xDE ++ (leBytes 4 x.toNat ++ [])) := by
      intro x
      simp [tailWith, hc, bytes, tailRecord, recLen]
    have hfield : ∀ {w v} (a b : List UInt8), (header 0 12 0 0xDE : List UInt8) = a ++ (leBytes w v ++ b) →
        getLe (encode rs ++ (header 0 12 0 0xDE ++ (leBytes 4 c.toNat ++ []))) (blockSz - 12 + a.length) w =
          v % 256 ^ w := by
      intro w v a b hab
      rw [hab]
      have := @getLe_append (blockSz - 12 + a.length) w v (encode rs ++ a)
        (b ++ (leBytes 4 c.toNat ++ [])) (by simp [hlen])
      simpa using this
    have h4 := hfield (w := 2) (v := 12) (leBytes 4 0) (leBytes 1 0 ++ leBytes 1 0xDE) rfl
    have h6 := hfield (w := 1) (v := 0) (leBytes 4 0 ++ leBytes 2 12) (leBytes 1 0xDE) rfl
    have h7 := hfield (w := 1) (v := 0xDE) (leBytes 4 0 ++ (leBytes 2 12 ++ leBytes 1 0)) [] rfl
    simp only [length_append, length_leBytes] at h4 h6 h7
    rw [if_neg hfeat, if_neg (by omega), hbytes]
    simp only [h4, h6, h7]
    rw [if_neg (by decide)]
    have hclear : splice (encode rs ++ (header 0 12 0 0xDE ++ (leBytes 4 c.toNat ++ [])))
        (blockSz - 12 + 8) (replicate 4 0) =
        (encode rs ++ header 0 12 0 0xDE) ++ (replicate 4 0 ++ []) := by
      rw [← append_assoc]
      exact splice_append_at (by simp [hlen]) (by simp)
    have htake : ((encode rs ++ header 0 12 0 0xDE) ++ (replicate 4 0 ++ [])).take (blockSz - 12) =
        encode rs := by
      rw [← hlen, append_assoc, take_left]
    rw [hclear, htake, setLe_append (by simp [hlen]) (by simp), blockBytes, hbytes]
    simp
  · have hfeat : di.roCompatFeatures &&& roCompatMetadataCsum = 0 := by
      by_contra hne
      exact hc ((hasMetadataCsum_iff h).2 hne)
    rw [if_pos hfeat, blockBytes]
    simp [tailWith, hc]

/-! ## Editing one record of a block -/

namespace Record

variable (r : Record)

theorem aligned_take :
    (8 + r.name.length + (r.slack.take (r.realLen - 8 - r.name.length)).length) % 4 = 0 := by
  have := r.aligned
  simp only [length_take, realLen]
  omega

theorem recLen_take_lt :
    8 + r.name.length + (r.slack.take (r.realLen - 8 - r.name.length)).length < 2 ^ 16 := by
  have := r.recLen_lt
  simp only [length_take]
  omega

/-- The record cut to its aligned minimum. -/
def trim : Record :=
  r.withSlack (r.slack.take (r.realLen - 8 - r.name.length)) r.aligned_take r.recLen_take_lt

theorem length_slack_trim : 8 + r.name.length + r.trim.slack.length = r.realLen := by
  have := r.realLen_le
  simp only [trim, withSlack, length_take, realLen, recLen] at *
  omega

@[simp] theorem recLen_trim : r.trim.recLen = r.realLen := r.length_slack_trim

/-- A new record as `write_to` lays it down: zeroed slack. -/
def fresh (name : List UInt8) (inode fileType len : Nat) (hi : inode < 2 ^ 32) (hf : fileType < 256)
    (hn : name.length ≤ 255) (h4 : len % 4 = 0) (hmin : 8 + name.length ≤ len) (hlen : len < 2 ^ 16) :
    Record where
  inode := inode
  fileType := fileType
  name := name
  slack := replicate (len - 8 - name.length) 0
  inode_lt := hi
  fileType_lt := hf
  name_le := hn
  aligned := by simp; omega
  recLen_lt := by simp; omega

theorem recLen_fresh {name i f len} (hi : i < 2 ^ 32) (hf : f < 256)
    (hn : name.length ≤ 255) (h4 : len % 4 = 0) (hmin : 8 + name.length ≤ len) (hlen : len < 2 ^ 16) :
    (fresh name i f len hi hf hn h4 hmin hlen).recLen = len := by
  show 8 + name.length + (replicate (len - 8 - name.length) (0 : UInt8)).length = len
  rw [length_replicate]
  omega

/-- The record extended over the record after it. -/
def absorb (p r : Record) (h : p.recLen + r.recLen < 2 ^ 16) : Record :=
  p.withSlack (p.slack ++ r.bytes)
    (by
      have hp := p.aligned
      have hr : r.recLen % 4 = 0 := r.aligned
      simp only [length_append, length_bytes]; omega)
    (by
      have hp : p.recLen = 8 + p.name.length + p.slack.length := rfl
      simp only [length_append, length_bytes]; omega)

theorem recLen_absorb {p r : Record} (h : p.recLen + r.recLen < 2 ^ 16) :
    (p.absorb r h).recLen = p.recLen + r.recLen := by
  simp [absorb, withSlack, recLen]; omega

@[simp] theorem recLen_retarget {i f} (hi : i < 2 ^ 32) (hf : f < 256) :
    (r.retarget i f hi hf).recLen = r.recLen := rfl

end Record

section BlockEdits

variable {di : DirInode} {name : List UInt8} {inodeId fileType off : Nat} {pre post : List Record} {r : Record}

/-- An edit of the end of a buffer. -/
theorem modifySlice_append {a x s} {f : List UInt8 → Option (List UInt8)} {o n}
    (ho : o = a.length) (hn : n = (a ++ x).length) (hf : f x = some s) (hlen : x.length = s.length) :
    modifySlice (a ++ x) o n f = some (a ++ s) := by
  subst ho; subst hn
  have hslice : slice (a ++ x) a.length ((a ++ x).length - a.length) = x := by
    simpa using @slice_append _ a x []
  have hsplice : splice (a ++ x) a.length s = a ++ s := by
    simpa using @splice_append _ a x [] s hlen
  rw [modifySlice, hslice, hf, Option.map_some, hsplice]

theorem padBlock_of_length {b} (h : b.length = blockSz) : padBlock b = b := by
  simp [padBlock, h]

/-- The records of the block that holds `r`, split at `r`. -/
theorem blockBytes_split (di : DirInode) (pre post : List Record) (r : Record) :
    ∃ c, blockBytes di (pre ++ r :: post) = encode (pre ++ r :: (post ++ tailWith di c)) :=
  ⟨dirBlockCrc di (encode (pre ++ r :: post)), by rw [blockBytes, append_assoc, cons_append]⟩

theorem recLen_le_block (hok : BlockOk di (pre ++ r :: post)) : r.recLen ≤ blockSz := by
  have := hok.size
  simp [blockBytes] at this
  omega

theorem isNamed_entry (r : Record) (name : List UInt8) :
    r.entry.isNamed name = (decide (r.inode ≠ 0) && decide (r.name = name)) := by
  rw [DirEntry.isNamed, nameBytes_entry]
  rfl

theorem isNamed_of_tail {e : DirEntry} (h : e.isChecksumTail = true) (name : List UInt8) :
    e.isNamed name = false := by
  simp only [DirEntry.isChecksumTail, Bool.and_eq_true, decide_eq_true_eq] at h
  simp [DirEntry.isNamed, h]

/-- The binding a record contributes to the directory: a live record maps its name to inode and
type. -/
def Record.binding (r : Record) : Option (List UInt8 × Nat × Nat) :=
  if r.inode = 0 then none else some (r.name, r.inode, r.fileType)

/-- The bindings of consecutive records. -/
def bindings (rs : List Record) : List (List UInt8 × Nat × Nat) := rs.filterMap binding

@[simp] theorem bindings_append (rs ss : List Record) : bindings (rs ++ ss) = bindings rs ++ bindings ss := by
  simp [bindings]

@[simp] theorem bindings_nil : bindings [] = [] := rfl

@[simp] theorem bindings_cons (r : Record) (rs : List Record) :
    bindings (r :: rs) = r.binding.toList ++ bindings rs := by
  unfold bindings
  cases h : r.binding <;> simp [h]

@[simp] theorem binding_trim (r : Record) : r.trim.binding = r.binding := rfl

@[simp] theorem binding_absorb {p r : Record} (h : p.recLen + r.recLen < 2 ^ 16) :
    (p.absorb r h).binding = p.binding := rfl

/-- `buf` is a block with proper records `rs`, up to the checksum in its tail. -/
structure BlockImage (di : DirInode) (rs : List Record) (buf : List UInt8) : Prop where
  bytes : ∃ c, buf = encode (rs ++ tailWith di c)
  size : buf.length = blockSz
  proper : ∀ r ∈ rs, r.entry.isChecksumTail = false

theorem isChecksumTail_entry (r : Record) :
    r.entry.isChecksumTail = true ↔ r.inode = 0 ∧ r.recLen = 12 ∧ r.name = [] ∧ r.fileType = 0xDE := by
  simp only [DirEntry.isChecksumTail, Bool.and_eq_true, decide_eq_true_eq, and_assoc]
  simp [entry]

theorem proper_of_name {r : Record} (h : r.name ≠ []) : r.entry.isChecksumTail = false := by
  rw [← Bool.not_eq_true, isChecksumTail_entry]
  rintro ⟨-, -, hn, -⟩
  exact h hn

theorem proper_trim (r : Record) : r.trim.entry.isChecksumTail = false := by
  rw [← Bool.not_eq_true, isChecksumTail_entry]
  rintro ⟨-, hl, hn, -⟩
  have hname : r.name = [] := hn
  rw [recLen_trim, realLen, hname] at hl
  simp at hl

/-- A record with a name takes at least twelve bytes, so what absorbs it is larger than a tail. -/
theorem proper_absorb {p r : Record} (h : p.recLen + r.recLen < 2 ^ 16) (hn : r.name ≠ []) :
    (p.absorb r h).entry.isChecksumTail = false := by
  rw [← Bool.not_eq_true, isChecksumTail_entry]
  rintro ⟨-, hl, -, -⟩
  have hpos : 0 < r.name.length := length_pos_iff.2 hn
  have hp := p.recLen_ge
  have hlen := recLen_absorb h
  have hr : r.recLen = 8 + r.name.length + r.slack.length := rfl
  omega

/-- Records are replaced by others of the same size. -/
theorem BlockOk.image_edit (old new : List Record) (hok : BlockOk di (pre ++ (old ++ post)))
    (hnew : ∀ x ∈ new, x.entry.isChecksumTail = false) (hlen : (encode new).length = (encode old).length) (c : UInt32) :
    BlockImage di (pre ++ (new ++ post)) (encode ((pre ++ (new ++ post)) ++ tailWith di c)) where
  bytes := ⟨c, rfl⟩
  size := by
    have hsize := hok.size
    rw [blockBytes, encode_append, length_append, length_encode_tailWith di _ c] at hsize
    simp only [encode_append, length_append] at hsize ⊢
    omega
  proper x hx := by
    simp only [mem_append] at hx
    rcases hx with hx | hx | hx
    · exact hok.proper x (by simp [hx])
    · exact hnew x hx
    · exact hok.proper x (by simp [hx])

/-- The first record with room is cut, and the new record takes over its slack. -/
theorem insertScan_found {needed : Nat} (hok : BlockOk di (pre ++ r :: post))
    (hn : name.length ≤ 255) (hi : inodeId < 2 ^ 32) (hf : fileType < 256)
    (hneed : needed = (8 + name.length + 3) / 4 * 4)
    (hskip : ∀ x ∈ pre, ¬ x.recLen ≥ x.realLen + needed) (hfit : r.recLen ≥ r.realLen + needed)
    (hne : name ≠ []) :
    ∃ s buf, s.name = name ∧ s.inode = inodeId ∧ s.fileType = fileType ∧
      BlockImage di (pre ++ r.trim :: s :: post) buf ∧
      insertScan name inodeId fileType needed off (blockBytes di (pre ++ r :: post)) =
        .found (some (off, buf)) := by
  have hblock := recLen_le_block hok
  have halign : r.recLen % 4 = 0 := r.aligned
  have hreal : r.realLen % 4 = 0 := by unfold realLen; omega
  have hsmall : r.recLen < 2 ^ 16 := r.recLen_lt
  let s := fresh name inodeId fileType (r.recLen - r.realLen) hi hf hn (by omega) (by omega)
    (by omega)
  have hslen : s.recLen = r.recLen - r.realLen := recLen_fresh ..
  obtain ⟨c, hc⟩ := blockBytes_split di pre post r
  refine ⟨s, _, rfl, rfl, rfl, hok.image_edit [r] [r.trim, s] ?_ ?_ c, ?_⟩
  · exact forall_mem_cons.2 ⟨proper_trim r, forall_mem_singleton.2 (proper_of_name hne)⟩
  · simp [hslen]
    omega
  simp only [insertScan]
  rw [padBlock_of_length hok.size, hc]
  apply scanBlock_found (by decide)
  · intro x hx p o
    rw [if_neg]
    simp only [Bool.and_eq_true, decide_eq_true_eq, not_and, entry_realLen]
    intro _
    exact hskip x hx
  · have hproper := hok.proper r (by simp)
    -- the slack that stays with `r`, and the slack the new record is written over
    have hslack : r.slack ++ encode (post ++ tailWith di c) =
        r.trim.slack ++ (r.slack.drop (r.realLen - 8 - r.name.length) ++
          encode (post ++ tailWith di c)) := by
      rw [← append_assoc]
      simp [trim, withSlack]
    have hcut := setRecLen_bytes (r := r) (s := r.trim) rfl rfl rfl hslack
    rw [r.recLen_trim] at hcut
    have hdrop : (r.slack.drop (r.realLen - 8 - r.name.length)).length = r.recLen - r.realLen := by
      have := r.realLen_le
      simp only [length_drop, recLen, realLen] at *
      omega
    have hwrite := @writeTo_eq (r.slack.drop (r.realLen - 8 - r.name.length) ++
      encode (post ++ tailWith di c)) name inodeId (r.recLen - r.realLen) fileType hn (by omega)
      (by rw [length_append, hdrop]; omega) (by omega)
    rw [drop_left' hdrop] at hwrite
    have hsbytes : header inodeId (r.recLen - r.realLen) name.length fileType ++
        (name ++ replicate (r.recLen - r.realLen - 8 - name.length) 0) = s.bytes := by
      rw [bytes, hslen]
      rfl
    rw [hsbytes] at hwrite
    rw [if_pos (by simp [hproper, entry_realLen, hfit])]
    simp only [entry_realLen, entry_recLen]
    have hcutLen : (r.bytes ++ encode (post ++ tailWith di c)).length = (r.trim.bytes ++
        (r.slack.drop (r.realLen - 8 - r.name.length) ++ encode (post ++ tailWith di c))).length := by
      simp only [length_append, length_bytes, recLen_trim, hdrop]; omega
    have hwriteLen : (r.slack.drop (r.realLen - 8 - r.name.length) ++
        encode (post ++ tailWith di c)).length = (s.bytes ++ encode (post ++ tailWith di c)).length := by
      simp only [length_append, length_bytes, hdrop, hslen]
    rw [encode_append, encode_cons, modifySlice_append rfl rfl hcut hcutLen]
    simp only [bind, Option.bind]
    rw [← append_assoc, modifySlice_append (by simp)
      (by rw [length_append, hcutLen]; simp) hwrite hwriteLen]
    simp

/-- The block appended to a full directory holds the new record alone. -/
theorem newDirBlock_image (hn : name.length ≤ 255) (hi : inodeId < 2 ^ 32) (hf : fileType < 256)
    (hne : name ≠ []) :
    ∃ s buf, s.name = name ∧ s.inode = inodeId ∧ s.fileType = fileType ∧ BlockImage di [s] buf ∧
      newDirBlock di name inodeId fileType = some buf := by
  have hwrite : ∀ len, len % 4 = 0 → 266 ≤ len → len ≤ blockSz →
      ∃ s : Record, s.name = name ∧ s.inode = inodeId ∧ s.fileType = fileType ∧ s.recLen = len ∧
        DirEntry.writeTo (replicate blockSz 0) inodeId len name fileType =
          some (s.bytes ++ replicate (blockSz - len) 0) := by
    intro len h4 hmin hmax
    have hsmall : len < 2 ^ 16 := Nat.lt_of_le_of_lt hmax (by decide)
    let s := fresh name inodeId fileType len hi hf hn h4 (by omega) hsmall
    have hslen : s.recLen = len := recLen_fresh ..
    refine ⟨s, rfl, rfl, rfl, hslen, ?_⟩
    rw [writeTo_eq hn (by omega) (by rwa [length_replicate]) h4, drop_replicate]
    rw [bytes, hslen]
    rfl
  by_cases hc : di.hasMetadataCsum
  · obtain ⟨s, h1, h2, h3, hslen, hw⟩ := hwrite (blockSz - 12) (by decide) (by decide) (by decide)
    refine ⟨s, encode ([s] ++ tailWith di 0), h1, h2, h3, ⟨⟨0, rfl⟩, ?_, ?_⟩, ?_⟩
    · simp [tailWith, hc, hslen, blockSz]
    · intro x hx
      rw [mem_singleton.1 hx]
      exact proper_of_name (by rw [h1]; exact hne)
    · have hzero : replicate (blockSz - (blockSz - 12)) (0 : UInt8) =
          header 0 0 0 0 ++ replicate 4 0 := by decide
      have hclear : splice (header 0 0 0 0 ++ replicate 4 0) 0 (replicate 12 (0 : UInt8)) =
          header 0 0 0 0 ++ replicate 4 0 := by decide
      have htail : (tailRecord 0).bytes = header 0 12 0 0xDE ++ replicate 4 0 := by decide
      simp only [newDirBlock, hc, if_true, hw, hzero]
      rw [if_pos (by decide), splice_append_right (o := 0) (by simp [hslen]), hclear,
        setLe_append_right (o := 4) (by simp [hslen]), setLe_header_recLen,
        setLe_append_right (o := 7) (by simp [hslen]), setLe_header_fileType]
      simp [tailWith, hc, htail]
  · obtain ⟨s, h1, h2, h3, hslen, hw⟩ := hwrite blockSz (by decide) (by decide) (by decide)
    refine ⟨s, encode ([s] ++ tailWith di 0), h1, h2, h3, ⟨⟨0, rfl⟩, ?_, ?_⟩, ?_⟩
    · simp [tailWith, hc, hslen]
    · intro x hx
      rw [mem_singleton.1 hx]
      exact proper_of_name (by rw [h1]; exact hne)
    · simp [newDirBlock, hc, hw, tailWith]

/-! ## The named record -/

theorem binding_of_isNamed (h : r.entry.isNamed name = true) :
    r.binding = some (name, r.inode, r.fileType) := by
  simp only [isNamed_entry, Bool.and_eq_true, decide_eq_true_eq] at h
  rw [binding, if_neg h.1, h.2]

theorem name_of_isNamed (h : r.entry.isNamed name = true) : r.name = name := by
  simp only [isNamed_entry, Bool.and_eq_true, decide_eq_true_eq] at h
  exact h.2

theorem binding_ne_of_not_isNamed (h : r.entry.isNamed name = false) : ∀ v, r.binding ≠ some (name, v) := by
  intro v hb
  unfold binding at hb
  split at hb
  · cases hb
  · rename_i hi
    cases hb
    simp [isNamed_entry, hi] at h

/-- A scan whose action passes over every proper record and over tails ends at the end of the
block. -/
theorem scanBlock_blockBytes_done {β : Type} {visit : Option Nat → Nat → DirEntry → Option β}
    {margin} (hm : 1 ≤ margin) (hm8 : margin ≤ 8) (hskip : ∀ x ∈ rs, ∀ p o, visit p o x.entry = none)
    (htail : ∀ e : DirEntry, e.isChecksumTail = true → ∀ p o, visit p o e = none) :
    scanBlock margin visit (blockBytes di rs) (blockBytes di rs).length none 0 =
      .done (blockBytes di rs).length := by
  apply scanBlock_done hm hm8
  intro x hx p o
  rcases mem_append.1 hx with hx | hx
  · exact hskip x hx p o
  · exact tailWith_skip (f := fun e => visit p o e) (fun e he => htail e he p o) x hx

/-- The scans that look for a name end at the end of a block without it. -/
theorem scanBlock_named_done {β : Type} {act : Option Nat → Nat → DirEntry → β} {margin : Nat}
    (hm : 1 ≤ margin) (hm8 : margin ≤ 8)
    (hskip : ∀ x ∈ rs, x.entry.isNamed name = false) :
    scanBlock margin (fun p o e => if e.isNamed name then some (act p o e) else none)
      (blockBytes di rs) (blockBytes di rs).length none 0 = .done (blockBytes di rs).length := by
  apply scanBlock_blockBytes_done hm hm8
  · intro x hx p o
    simp [hskip x hx]
  · intro e he p o
    simp [isNamed_of_tail he]

/-- The scans that look for a name act on the first record that has it. -/
theorem scanBlock_named_found {β : Type} {act : Option Nat → Nat → DirEntry → β} {margin}
    (hm8 : margin ≤ 8) (hskip : ∀ x ∈ pre, x.entry.isNamed name = false)
    (hr : r.entry.isNamed name = true) :
    scanBlock margin (fun p o e => if e.isNamed name then some (act p o e) else none)
      (blockBytes di (pre ++ r :: post)) (blockBytes di (pre ++ r :: post)).length none 0 =
      .found (act (lastOffset none 0 pre) (encode pre).length r.entry) := by
  obtain ⟨c, hc⟩ := blockBytes_split di pre post r
  rw [hc]
  apply scanBlock_found hm8
  · intro x hx p o
    simp [hskip x hx]
  · simp [hr]

/-- A block without room for the new record is passed over. -/
theorem insertScan_done {needed} (hok : BlockOk di rs) (hfull : ∀ x ∈ rs, ¬ x.recLen ≥ x.realLen + needed) :
    insertScan name inodeId fileType needed off (blockBytes di rs) = .done (blockBytes di rs).length := by
  simp only [insertScan]
  rw [padBlock_of_length hok.size]
  apply scanBlock_blockBytes_done (by decide) (by decide)
  · intro x hx p o
    rw [if_neg]
    simp only [Bool.and_eq_true, decide_eq_true_eq, not_and, entry_realLen]
    intro _
    exact hfull x hx
  · intro e he p o
    simp [he]

theorem scanBlock_named_atEnd {β : Type} {act : Option Nat → Nat → DirEntry → β}
    (hok : BlockOk di rs) (hskip : ∀ x ∈ rs, x.entry.isNamed name = false) :
    (scanBlock 8 (fun p o e => if e.isNamed name then some (act p o e) else none)
      (padBlock (blockBytes di rs)) (blockBytes di rs).length none 0).atEnd (blockBytes di rs).length =
      .done (blockBytes di rs).length := by
  rw [padBlock_of_length hok.size, scanBlock_named_done (by decide) (by decide) hskip, Scan.atEnd,
    if_neg (by simp)]

/-- Replacing the target of the named record. -/
theorem replaceScan_found (hok : BlockOk di (pre ++ r :: post)) (hi : inodeId < 2 ^ 32)
    (hf : fileType < 256) (hskip : ∀ x ∈ pre, x.entry.isNamed name = false)
    (hr : r.entry.isNamed name = true) (hne : name ≠ []) :
    ∃ buf, BlockImage di (pre ++ r.retarget inodeId fileType hi hf :: post) buf ∧
      replaceScan name inodeId fileType off (blockBytes di (pre ++ r :: post)) =
        .found (some ((r.inode, r.fileType), off, buf)) := by
  obtain ⟨c, hc⟩ := blockBytes_split di pre post r
  rw [← name_of_isNamed hr] at hne
  refine ⟨_, hok.image_edit [r] [r.retarget inodeId fileType hi hf] (forall_mem_singleton.2 (proper_of_name hne))
    (by simp) c, ?_⟩
  · simp only [replaceScan]
    rw [padBlock_of_length hok.size, scanBlock_named_found (by decide) hskip hr, hc, encode_append, encode_cons]
    have hino := r.setInode_bytes (encode (post ++ tailWith di c)) hi
    have hft := (r.retarget inodeId r.fileType hi r.fileType_lt).setFileType_bytes
      (encode (post ++ tailWith di c)) hf
    rw [modifySlice_append rfl rfl hino (by simp)]
    simp only [bind, Option.bind]
    rw [modifySlice_append rfl (by simp) hft (by simp)]
    simp [Scan.atEnd, retarget]

/-- Removing the first record of a block clears its inode. -/
theorem removeScan_first (hok : BlockOk di (r :: post)) (hr : r.entry.isNamed name = true) (hne : r.name ≠ []) :
    ∃ buf, BlockImage di (r.retarget 0 r.fileType (by decide) r.fileType_lt :: post) buf ∧
      removeScan name off (blockBytes di (r :: post)) = .found (some ((r.inode, r.fileType), off, buf)) := by
  obtain ⟨c, hc⟩ := blockBytes_split di [] post r
  refine ⟨_, @BlockOk.image_edit di [] post [r] [r.retarget 0 r.fileType (by decide) r.fileType_lt] hok
    (forall_mem_singleton.2 (proper_of_name hne)) (by simp) c, ?_⟩
  · have hino := r.setInode_bytes (encode (post ++ tailWith di c)) (j := 0) (by decide)
    have hscan := @scanBlock_named_found di name [] post r
    simp only [nil_append] at hc hscan
    simp only [removeScan]
    rw [padBlock_of_length hok.size, hscan (by decide) (by simp) hr, hc]
    simp only [lastOffset, if_pos, encode_nil, encode_cons, length_nil]
    have hmod := @modifySlice_append [] _ _ (DirEntry.setInode · 0) 0 _ rfl rfl hino (by simp)
    simp only [nil_append] at hmod
    rw [hmod]
    simp [Scan.atEnd]

/-- Removing any other record gives its bytes to its predecessor. -/
theorem removeScan_merge {p : Record} (hok : BlockOk di (pre ++ p :: r :: post))
    (hskip : ∀ x ∈ pre, x.entry.isNamed name = false) (hp : p.entry.isNamed name = false)
    (hr : r.entry.isNamed name = true) (hne : r.name ≠ []) :
    ∃ hpr buf, BlockImage di (pre ++ p.absorb r hpr :: post) buf ∧
      removeScan name off (blockBytes di (pre ++ p :: r :: post)) =
        .found (some ((r.inode, r.fileType), off, buf)) := by
  obtain ⟨c, hc⟩ := blockBytes_split di pre (r :: post) p
  have hsize := hok.size
  have hsum : (encode pre).length + (p.recLen + (r.recLen + (encode (post ++ tailWith di c)).length)) =
      blockSz := by
    rw [hc] at hsize
    simpa using hsize
  have hpr : p.recLen + r.recLen < 2 ^ 16 := by
    unfold blockSz at hsum; omega
  have hlen : (p.absorb r hpr).recLen = p.recLen + r.recLen := recLen_absorb hpr
  refine ⟨hpr, _, hok.image_edit [p, r] [p.absorb r hpr] (forall_mem_singleton.2 (proper_absorb hpr hne))
    (by simp [hlen]) c, ?_⟩
  · have hscan := @scanBlock_named_found di name (pre ++ [p]) post r
    simp only [append_assoc, singleton_append] at hscan
    have hprev : lastOffset none 0 (pre ++ [p]) = some (encode pre).length := by simp [lastOffset]
    have hslice : slice (encode (pre ++ p :: (r :: post ++ tailWith di c))) (encode pre).length
        ((encode (pre ++ p :: (r :: post ++ tailWith di c))).length - (encode pre).length) =
        p.bytes ++ (r.bytes ++ encode (post ++ tailWith di c)) := by
      rw [encode_append, encode_cons, cons_append, encode_cons, length_append,
        Nat.add_sub_cancel_left]
      simpa using @slice_append _ (encode pre) (p.bytes ++ (r.bytes ++ encode (post ++ tailWith di c))) []
    have hmerge := @setRecLen_bytes p (p.absorb r hpr) (r.bytes ++ encode (post ++ tailWith di c))
      (encode (post ++ tailWith di c)) rfl rfl rfl (by simp [absorb, withSlack])
    rw [hlen] at hmerge
    simp only [removeScan]
    rw [padBlock_of_length hsize, hscan (by decide) ?_ hr, hprev, hc]
    · simp only [hslice, fromBytes_bytes, hok.proper p (by simp), bind, Option.bind,
        entry_recLen, Nat.mod_eq_of_lt hpr]
      rw [if_neg (by simp), if_neg (by simp)]
      rw [encode_append, encode_cons, cons_append, encode_cons,
        modifySlice_append rfl rfl hmerge (by simp [hlen]; omega)]
      simp [Scan.atEnd]
    · intro x hx
      rcases mem_append.1 hx with hx | hx
      · exact hskip x hx
      · rw [mem_singleton.1 hx]; exact hp

/-- Removing the named record drops its binding and nothing else. -/
theorem removeScan_found (hok : BlockOk di (pre ++ r :: post))
    (hskip : ∀ x ∈ pre, x.entry.isNamed name = false)
    (hr : r.entry.isNamed name = true) (hne : name ≠ []) :
    ∃ rs buf, bindings rs = bindings pre ++ bindings post ∧ BlockImage di rs buf ∧
      removeScan name off (blockBytes di (pre ++ r :: post)) =
        .found (some ((r.inode, r.fileType), off, buf)) := by
  have hrname : r.name ≠ [] := by rw [name_of_isNamed hr]; exact hne
  rcases eq_nil_or_concat' pre with rfl | ⟨front, p, rfl⟩
  · obtain ⟨buf, himage, hscan⟩ := @removeScan_first di name off post r hok hr hrname
    exact ⟨_, buf, by simp [binding, retarget], himage, hscan⟩
  · rw [append_assoc, singleton_append] at hok ⊢
    obtain ⟨hpr, buf, himage, hscan⟩ := @removeScan_merge di name off front post r p hok
      (fun x hx => hskip x (by simp [hx])) (hskip p (by simp)) hr hrname
    exact ⟨_, buf, by simp, himage, hscan⟩

end BlockEdits

end ShellCore.Ext4
