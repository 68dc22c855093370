import ShellCore.Ext4.Space

/-!
# Group descriptors and superblock counts on disk

What reads back from a descriptor after `update_group_counts`, and from the superblock after
`adjust_superblock_counts`.
-/

namespace ShellCore.Ext4

open ByteBuf List Ext4.Group BitmapKind

/-! ## Descriptors -/

/-- The fields `putGroup` writes to a descriptor of `len` bytes. -/
def groupFields (g : Group) (len : Nat) : List (Nat × Nat) :=
  [(0x0c, g.freeBlocksCount), (0x0e, g.freeInodesCount), (0x10, g.usedDirsCount), (0x12, g.flags.toNat),
    (0x1c, g.itableUnused)] ++
  if 64 ≤ len then
    [(0x2c, g.freeBlocksCount / 2 ^ 16), (0x2e, g.freeInodesCount / 2 ^ 16), (0x30, g.usedDirsCount / 2 ^ 16),
      (0x32, g.itableUnused / 2 ^ 16)]
  else []

/-- The fields `setBitmapChecksum` writes. -/
def csumFields (kind : BitmapKind) (checksum len : Nat) : List (Nat × Nat) :=
  (kind.csumOffsets.1, checksum) ::
    if kind.csumOffsets.2 + 2 ≤ len then [(kind.csumOffsets.2, checksum / 2 ^ 16)] else []

/-- All the fields of an update, the descriptor checksum apart. -/
def descWrites (g : Group) (csum : Option (BitmapKind × Nat)) (len : Nat) : List (Nat × Nat) :=
  groupFields g len ++ match csum with
    | none => []
    | some (kind, checksum) => csumFields kind checksum len

/-- The lengths a descriptor can have. -/
def DescLen (len : Nat) : Prop :=
  len = 32 ∨ 64 ≤ len

section Descriptor

variable {desc : List UInt8} {g : Group} {csum : Option (BitmapKind × Nat)} {len : Nat}

attribute [simp] groupFields descWrites csumFields

/-- The fields are inside the descriptor, do not overlap, and leave the block numbers and the descriptor
checksum alone. -/
theorem descWrites_layout (h : DescLen len) :
    (∀ f ∈ descWrites g csum len, 12 ≤ f.1 ∧ f.1 + 2 ≤ len ∧ (f.1 + 2 ≤ 0x1e ∨ 0x20 ≤ f.1)) ∧
      (descWrites g csum len).Pairwise fun f f' => f.1 + 2 ≤ f'.1 ∨ f'.1 + 2 ≤ f.1 := by
  rcases csum with - | ⟨kind, c⟩
  · rcases h with rfl | h
    · simp
    · simp [h]
      omega
  · rcases h with rfl | h
    · cases kind <;> simp [csumOffsets]
    · have h1 : 58 ≤ len := by omega
      have h2 : 60 ≤ len := by omega
      cases kind <;> simp [csumOffsets, h, h1, h2] <;> omega

variable (h : DescLen desc.length)

include h

/-- What an update reads back as. -/
theorem getLe_descWrites {f} (hf : f ∈ descWrites g csum desc.length) :
    getLe (setFields 2 (descWrites g csum desc.length) desc) f.1 2 = f.2 % 2 ^ 16 := by
  obtain ⟨hb, hp⟩ := @descWrites_layout g csum _ h
  exact getLe_setFields_mem (fun x hx => (hb x hx).2.1) hp hf

theorem length_descWrites : (setFields 2 (descWrites g csum desc.length) desc).length = desc.length :=
  length_setFields fun x hx => ((descWrites_layout h).1 x hx).2.1

/-- The value fits in the 16-bit field and its high half, where there is one. -/
def FitsField (len v : Nat) : Prop :=
  v < 2 ^ 16 ∨ 64 ≤ len ∧ v < 2 ^ 32

theorem descField_descWrites {lo hi v} (hv : FitsField desc.length v)
    (hlo : (lo, v) ∈ descWrites g csum desc.length)
    (hhi : 64 ≤ desc.length → (hi, v / 2 ^ 16) ∈ descWrites g csum desc.length) (hh : 32 ≤ hi ∧ hi + 2 ≤ 64) :
    descField (setFields 2 (descWrites g csum desc.length) desc) lo hi = v := by
  unfold descField
  rw [length_descWrites h, getLe_descWrites h hlo]
  rcases h with h32 | h64
  · rw [if_neg (by omega)]
    rcases hv with hv | ⟨hv, -⟩
    · simp only; omega
    · omega
  · rw [if_pos (by omega), getLe_descWrites (Or.inr h64) (hhi h64)]
    simp only
    rcases hv with hv | ⟨-, hv⟩ <;> omega

variable (hids : (new desc).blockBitmapId = g.blockBitmapId ∧ (new desc).inodeBitmapId = g.inodeBitmapId ∧
    (new desc).inodeTableId = g.inodeTableId)
  (hfit : ∀ v ∈ [g.freeBlocksCount, g.freeInodesCount, g.usedDirsCount, g.itableUnused], FitsField desc.length v)

include hids hfit in
/-- The group read back after an update. -/
theorem new_descWrites : new (setFields 2 (descWrites g csum desc.length) desc) = g := by
  obtain ⟨hb, -⟩ := @descWrites_layout g csum _ h
  have hkeep : ∀ o, o + 4 ≤ 12 → getLe (setFields 2 (descWrites g csum desc.length) desc) o 4 = getLe desc o 4 := by
    intro o ho
    refine getLe_setFields_disjoint (fun f hf => (hb f hf).2.1) fun f hf => ?_
    have := (hb f hf).1
    omega
  have hmem : ∀ f ∈ groupFields g desc.length, f ∈ descWrites g csum desc.length :=
    fun f hf => mem_append_left _ hf
  obtain ⟨hi1, hi2, hi3⟩ := hids
  have hflags := @getLe_descWrites desc g csum h (0x12, g.flags.toNat)
    (hmem _ (by simp))
  cases g with
  | mk bb ib it fb fi ud iu fl =>
    simp only [new, mk.injEq] at hi1 hi2 hi3 hflags ⊢
    refine ⟨(hkeep 0 (by decide)).trans hi1, (hkeep 4 (by decide)).trans hi2, (hkeep 8 (by decide)).trans hi3,
      ?_, ?_, ?_, ?_, ?_⟩
    iterate 4
      · exact descField_descWrites h (hfit _ (by simp)) (hmem _ (by simp))
          (fun h64 => hmem _ (by simp [h64])) (by decide)
    · rw [hflags, Nat.mod_eq_of_lt fl.toNat_lt]
      exact UInt16.ofNat_toNat

theorem putGroup_eq : putGroup g desc = setFields 2 (groupFields g desc.length) desc := by
  have hlen : (setFields 2 [(0x0c, g.freeBlocksCount), (0x0e, g.freeInodesCount), (0x10, g.usedDirsCount),
      (0x12, g.flags.toNat), (0x1c, g.itableUnused)] desc).length = desc.length := by
    apply length_setFields
    rcases h with h | h <;> simp <;> omega
  rw [putGroup, hlen, groupFields]
  split
  · simp only [setFields, foldl_append]
  · rw [append_nil]

variable {kind : BitmapKind} {bitmap : List UInt8}

theorem setBitmapChecksum_eq {seed} : setBitmapChecksum seed bitmap desc kind =
      setFields 2 (csumFields kind (crc32c seed bitmap).toNat desc.length) desc := by
  have hlo : kind.csumOffsets.1 + 2 ≤ desc.length := by
    rcases h with h | h <;> cases kind <;> simp [csumOffsets] <;> omega
  simp only [setBitmapChecksum, csumFields, length_setLe hlo]
  split <;> rfl

/-- The checksum stored for a bitmap. -/
def BitmapCsumStored (desc : List UInt8) (kind : BitmapKind) (checksum : Nat) : Prop :=
  getLe desc kind.csumOffsets.1 2 = checksum % 2 ^ 16 ∧
    (kind.csumOffsets.2 + 2 ≤ desc.length → getLe desc kind.csumOffsets.2 2 = checksum / 2 ^ 16 % 2 ^ 16)

/-- The other bitmap of a group. -/
def BitmapKind.other : BitmapKind → BitmapKind
  | .block => .inode
  | .inode => .block

theorem bitmapCsumStored_descWrites {c} :
    BitmapCsumStored (setFields 2 (descWrites g (some (kind, c)) desc.length) desc) kind c := by
  have hmem : ∀ f ∈ csumFields kind c desc.length, f ∈ descWrites g (some (kind, c)) desc.length :=
    fun f hf => mem_append_right _ hf
  refine ⟨getLe_descWrites h (hmem (_, c) (by simp)), fun hlen => ?_⟩
  rw [length_descWrites h] at hlen
  exact getLe_descWrites h (hmem (_, c / 2 ^ 16) (by simp [hlen]))

/-- The checksum of the other bitmap stays. -/
theorem bitmapCsumStored_other {c'}
    (hcsum : ∀ k c, csum = some (k, c) → k = kind) (hold : BitmapCsumStored desc kind.other c') :
    BitmapCsumStored (setFields 2 (descWrites g csum desc.length) desc) kind.other c' := by
  obtain ⟨hb, -⟩ := @descWrites_layout g csum _ h
  have hdis : ∀ o, o = kind.other.csumOffsets.1 ∨ o = kind.other.csumOffsets.2 →
      ∀ f ∈ descWrites g csum desc.length, o + 2 ≤ f.1 ∨ f.1 + 2 ≤ o := by
    intro o ho f hf
    rcases mem_append.1 hf with hf | hf
    · have hg : f.1 ∈ [0x0c, 0x0e, 0x10, 0x12, 0x1c, 0x2c, 0x2e, 0x30, 0x32] := by
        by_cases h64 : 64 ≤ desc.length
        · simp only [groupFields, if_pos h64, mem_append, mem_cons, not_mem_nil, or_false] at hf
          rcases hf with (rfl | rfl | rfl | rfl | rfl) | rfl | rfl | rfl | rfl <;> simp
        · simp only [groupFields, if_neg h64, append_nil, mem_cons, not_mem_nil, or_false] at hf
          rcases hf with rfl | rfl | rfl | rfl | rfl <;> simp
      simp only [mem_cons, not_mem_nil, or_false] at hg
      cases kind <;> simp only [other, csumOffsets] at ho <;> omega
    · cases csum with
      | none => cases hf
      | some kc =>
        obtain ⟨k, c⟩ := kc
        obtain rfl := hcsum k c rfl
        have hg : f.1 = k.csumOffsets.1 ∨ f.1 = k.csumOffsets.2 := by
          simp only [csumFields, mem_cons] at hf
          rcases hf with rfl | hf
          · exact Or.inl rfl
          · split at hf
            · rw [mem_singleton.1 hf]; exact Or.inr rfl
            · cases hf
        cases k <;> simp only [other, csumOffsets] at ho hg <;> omega
  unfold BitmapCsumStored at hold ⊢
  rw [length_descWrites h, getLe_setFields_disjoint (fun f hf => (hb f hf).2.1) (hdis _ (Or.inl rfl)),
    getLe_setFields_disjoint (fun f hf => (hb f hf).2.1) (hdis _ (Or.inr rfl))]
  exact hold

/-- The descriptor checksum covers its own field as zero. -/
theorem groupDescChecksum_setLe {seed group v} :
    groupDescChecksum seed group (setLe desc 0x1e 2 v) = groupDescChecksum seed group desc := by
  have hin : ∀ f ∈ [(0x1e, v)], f.1 + 2 ≤ desc.length := by rcases h with h | h <;> simp <;> omega
  have htake : (setLe desc 0x1e 2 v).take 0x1e = desc.take 0x1e := take_setFields hin (by simp)
  have hdrop : (setLe desc 0x1e 2 v).drop 0x20 = desc.drop 0x20 := drop_setFields hin (by simp)
  simp only [groupDescChecksum, htake, hdrop]

/-- The checksum field is none of the group's. -/
theorem new_setLe_checksum {v} : new (setLe desc 0x1e 2 v) = new desc := by
  have hlen : 0x1e + 2 ≤ desc.length := by rcases h with h | h <;> omega
  have hget : ∀ o w, o + w ≤ 0x1e ∨ 0x20 ≤ o → getLe (setLe desc 0x1e 2 v) o w = getLe desc o w :=
    fun o w ho => getLe_setLe_disjoint hlen (by omega)
  simp only [new, descField, length_setLe hlen]
  rw [hget 0 4 (by decide), hget 4 4 (by decide), hget 8 4 (by decide), hget 0x0c 2 (by decide),
    hget 0x2c 2 (by decide), hget 0x0e 2 (by decide), hget 0x2e 2 (by decide), hget 0x10 2 (by decide),
    hget 0x30 2 (by decide), hget 0x1c 2 (by decide), hget 0x32 2 (by decide), hget 0x12 2 (by decide)]

/-- The descriptor `update_group_counts` stores. -/
def newDesc (sb : SuperBlock) (groupId : Nat) (g : Group) (bitmap : List UInt8) (kind : BitmapKind)
    (desc : List UInt8) : List UInt8 :=
  let desc := putGroup g desc
  if sb.hasMetadataCsum then
    let desc := match sb.bitmapChecksumLen kind with
      | some n => setBitmapChecksum sb.metadataChecksumSeed (bitmap.take n) desc kind
      | none => desc
    setGroupDescChecksum sb.metadataChecksumSeed groupId desc
  else desc

/-- What reads back from it. -/
structure DescStored (sb : SuperBlock) (groupId : Nat) (g : Group) (bitmap : List UInt8) (kind : BitmapKind)
    (desc desc' : List UInt8) : Prop where
  length : desc'.length = desc.length
  group : new desc' = g
  bitmapCsum : sb.hasMetadataCsum = true → ∀ n, sb.bitmapChecksumLen kind = some n →
    BitmapCsumStored desc' kind (crc32c sb.metadataChecksumSeed (bitmap.take n)).toNat
  otherCsum : ∀ c, BitmapCsumStored desc kind.other c → BitmapCsumStored desc' kind.other c
  descCsum : sb.hasMetadataCsum = true →
    getLe desc' 0x1e 2 = groupDescChecksum sb.metadataChecksumSeed groupId desc'

theorem BitmapCsumStored.setLe_checksum {c v}
    (hs : BitmapCsumStored desc kind c) : BitmapCsumStored (setLe desc 0x1e 2 v) kind c := by
  have hlen : 0x1e + 2 ≤ desc.length := by rcases h with h | h <;> omega
  unfold BitmapCsumStored at hs ⊢
  rw [length_setLe hlen, getLe_setLe_disjoint hlen (by cases kind <;> decide),
    getLe_setLe_disjoint hlen (by cases kind <;> decide)]
  exact hs

include hids hfit in
theorem newDesc_stored {sb groupId} : DescStored sb groupId g bitmap kind desc (newDesc sb groupId g bitmap kind desc) := by
  have hput : putGroup g desc = setFields 2 (descWrites g none desc.length) desc := by
    rw [putGroup_eq h, descWrites, append_nil]
  by_cases hcsum : sb.hasMetadataCsum = true
  · -- the bitmap checksum, then the descriptor checksum over the result
    obtain ⟨csum, hk, hd, hc⟩ : ∃ csum : Option (BitmapKind × Nat), (∀ k c, csum = some (k, c) → k = kind) ∧
        (match sb.bitmapChecksumLen kind with
          | some n => setBitmapChecksum sb.metadataChecksumSeed (bitmap.take n) (putGroup g desc) kind
          | none => putGroup g desc) = setFields 2 (descWrites g csum desc.length) desc ∧
        ∀ n, sb.bitmapChecksumLen kind = some n →
          csum = some (kind, (crc32c sb.metadataChecksumSeed (bitmap.take n)).toNat) := by
      cases hn : sb.bitmapChecksumLen kind with
      | none => exact ⟨none, nofun, hput, nofun⟩
      | some n =>
        refine ⟨some (kind, (crc32c sb.metadataChecksumSeed (bitmap.take n)).toNat), ?_, ?_, ?_⟩
        · rintro k c h
          cases h
          rfl
        · have hlen : (putGroup g desc).length = desc.length := by rw [hput, length_descWrites h]
          simp only
          rw [setBitmapChecksum_eq (by rw [hlen]; exact h), hlen, putGroup_eq h]
          simp only [setFields, descWrites, foldl_append]
        · intro m hm
          cases hm
          rfl
    have hnew : newDesc sb groupId g bitmap kind desc = setGroupDescChecksum sb.metadataChecksumSeed groupId
        (setFields 2 (descWrites g csum desc.length) desc) := by
      simp only [newDesc, if_pos hcsum, hd]
    have hlen := @length_descWrites desc g csum h
    have hlen' : DescLen (setFields 2 (descWrites g csum desc.length) desc).length := by rw [hlen]; exact h
    have hroom : 0x1e + 2 ≤ (setFields 2 (descWrites g csum desc.length) desc).length := by
      rcases hlen' with h | h <;> omega
    rw [hnew]
    constructor
    case length => rw [setGroupDescChecksum, length_setLe hroom, hlen]
    case group => rw [setGroupDescChecksum, new_setLe_checksum hlen', new_descWrites h hids hfit]
    case bitmapCsum =>
      intro _ n hn
      rw [hc n hn] at hlen' ⊢
      exact (bitmapCsumStored_descWrites h).setLe_checksum hlen'
    case otherCsum =>
      intro c hold
      exact (bitmapCsumStored_other h hk hold).setLe_checksum hlen'
    case descCsum =>
      intro _
      rw [setGroupDescChecksum, groupDescChecksum_setLe hlen', getLe_setLe_self hroom]
      exact Nat.mod_eq_of_lt (Nat.mod_lt _ (by decide))
  · have hnew : newDesc sb groupId g bitmap kind desc = setFields 2 (descWrites g none desc.length) desc := by
      simp only [newDesc, if_neg hcsum, hput]
    rw [hnew]
    constructor
    case length => exact length_descWrites h
    case group => exact new_descWrites h hids hfit
    case bitmapCsum => exact fun hc => absurd hc hcsum
    case otherCsum => exact fun c hold => bitmapCsumStored_other h nofun hold
    case descCsum => exact fun hc => absurd hc hcsum

end Descriptor

/-! ## The superblock -/

/-- What reads back from the superblock. -/
structure SuperStored (csum : Bool) (raw' : List UInt8) (freeBlocks freeInodes : Nat) : Prop where
  length : raw'.length = 1024
  blocks : Fs.superFreeBlocks raw' = freeBlocks
  inodes : getLe raw' 0x10 4 = freeInodes
  checksum : csum = true → getLe raw' 0x3fc 4 = (crc32c (~~~0) (raw'.take 0x3fc)).toNat

theorem putSuperFreeBlocks_stored {raw value} (h : raw.length = 1024) (hv : value < 2 ^ 64) :
    (Fs.putSuperFreeBlocks raw value).length = 1024 ∧
      Fs.superFreeBlocks (Fs.putSuperFreeBlocks raw value) = value ∧
      getLe (Fs.putSuperFreeBlocks raw value) 0x10 4 = getLe raw 0x10 4 := by
  have hbound : ∀ f ∈ [(0x0c, value), (0x158, value / 2 ^ 32)], f.1 + 4 ≤ raw.length := by simp [h]
  have hpair : [(0x0c, value), (0x158, value / 2 ^ 32)].Pairwise fun f f' => f.1 + 4 ≤ f'.1 ∨ f'.1 + 4 ≤ f.1 := by
    simp
  have hlo := getLe_setFields_mem hbound hpair (f := (0x0c, value)) (by simp)
  have hhi := getLe_setFields_mem hbound hpair (f := (0x158, value / 2 ^ 32)) (by simp)
  refine ⟨(length_setFields hbound).trans h, ?_, getLe_setFields_disjoint hbound (by simp)⟩
  simp only at hlo hhi
  rw [Fs.superFreeBlocks, Fs.putSuperFreeBlocks, hlo, hhi]
  omega

theorem newSuper_stored {csum raw db di} (h : raw.length = 1024)
    (hb : Fs.adjust (Fs.superFreeBlocks raw) db (2 ^ 64 - 1) < 2 ^ 64)
    (hi : Fs.adjust (getLe raw 0x10 4) di (2 ^ 32 - 1) < 2 ^ 32) :
    SuperStored csum (Fs.newSuper csum raw db di) (Fs.adjust (Fs.superFreeBlocks raw) db (2 ^ 64 - 1))
      (Fs.adjust (getLe raw 0x10 4) di (2 ^ 32 - 1)) := by
  obtain ⟨hlen1, hblocks, hino⟩ := putSuperFreeBlocks_stored h hb
  simp only [Fs.newSuper, hino]
  generalize Fs.adjust (Fs.superFreeBlocks raw) db (2 ^ 64 - 1) = value at hb hlen1 hblocks ⊢
  generalize Fs.adjust (getLe raw 0x10 4) di (2 ^ 32 - 1) = v at hi ⊢
  generalize Fs.putSuperFreeBlocks raw value = raw₁ at hlen1 hblocks ⊢
  have hlen2 : (setLe raw₁ 0x10 4 v).length = 1024 := by rw [length_setLe (by omega), hlen1]
  have hstored : SuperStored false (setLe raw₁ 0x10 4 v) value v := by
    constructor
    case length => exact hlen2
    case blocks =>
      unfold Fs.superFreeBlocks at hblocks ⊢
      rw [getLe_setLe_disjoint (by omega) (by decide), getLe_setLe_disjoint (by omega) (by decide)]
      exact hblocks
    case inodes =>
      rw [getLe_setLe_self (by omega)]
      exact Nat.mod_eq_of_lt hi
    case checksum => nofun
  cases csum with
  | false => exact hstored
  | true =>
    simp only [if_true]
    have hget : ∀ o w, o + 4 ≤ 0x3fc → getLe (setLe (setLe raw₁ 0x10 4 v) 0x3fc 4 w) o 4 =
        getLe (setLe raw₁ 0x10 4 v) o 4 :=
      fun o w ho => getLe_setLe_disjoint (by omega) (Or.inl ho)
    constructor
    case length => rw [length_setLe (by omega), hlen2]
    case blocks =>
      rw [Fs.superFreeBlocks, hget 0x0c _ (by decide), hget 0x158 _ (by decide)]
      exact hstored.blocks
    case inodes =>
      rw [hget 0x10 _ (by decide)]
      exact hstored.inodes
    case checksum =>
      intro _
      have htake : ∀ w, (setLe (setLe raw₁ 0x10 4 v) 0x3fc 4 w).take 0x3fc = (setLe raw₁ 0x10 4 v).take 0x3fc :=
        fun w => take_setFields (by simp [hlen2] : ∀ f ∈ [(0x3fc, w)], f.1 + 4 ≤ _) (by simp)
      rw [htake, getLe_setLe_self (by omega)]
      exact Nat.mod_eq_of_lt (UInt32.toNat_lt _)

end ShellCore.Ext4
