import ShellCore.Ext4.SpaceDesc

/-!
# Space accounting

`Accounted` says that the three copies of every free count agree and that the stored checksums match.
Every change goes through `commitBitmap`, so its preservation is proved once, for any new bitmap with
the right number of clear bits.
-/

namespace ShellCore.Ext4

open Ext4.Group Nat

open List hiding getElem?_eq_some_iff

open Function ByteBuf SuperBlock

namespace Fs

/-- The blocks of the group descriptor table. -/
def gdtBlocks (fs : Fs) : List Nat :=
  (range ((fs.groups.length * fs.sb.descSize + blockSz - 1) / blockSz)).map (fs.sb.firstDataBlock + 1 + ·)

/-- The blocks the accounting is stored in: superblock, descriptor table and bitmaps. -/
def accountBlocks (fs : Fs) : List Nat :=
  0 :: (fs.gdtBlocks ++ (fs.groups.map blockBitmapId ++ fs.groups.map inodeBitmapId))

/-- The sum of the groups' free counts. -/
def sumFree (fs : Fs) (kind : BitmapKind) : Nat :=
  (fs.groups.map fun g => g.freeCount kind).sum

end Fs

/-- The layout of an image: every block and inode belongs to a group, a bitmap fits in a block, and the
accounting blocks are different blocks. -/
structure Geometry (fs : Fs) : Prop where
  blocksPerGroup : 0 < fs.sb.blocksPerGroup ∧ fs.sb.blocksPerGroup ≤ 8 * blockSz
  inodesPerGroup : 0 < fs.sb.inodesPerGroup ∧ fs.sb.inodesPerGroup ≤ 8 * blockSz
  totalBlocks_lt : fs.sb.totalBlocks < 2 ^ 32
  totalInodes_lt : fs.sb.totalInodes < 2 ^ 32
  blocks_cover : fs.sb.totalBlocks ≤ fs.sb.firstDataBlock + fs.groups.length * fs.sb.blocksPerGroup
  inodes_cover : fs.sb.totalInodes ≤ fs.groups.length * fs.sb.inodesPerGroup
  descSize : 32 ≤ fs.sb.descSize ∧ fs.sb.descSize ∣ blockSz
  /-- Descriptors have the checksums of `metadata_csum` or none. The crc16 of `gdt_csum` is not kept up. -/
  checksums : fs.sb.hasMetadataCsum = true ∨ fs.sb.roCompatFeatures &&& 0x0410 = 0
  nodup : fs.accountBlocks.Nodup
  length : ∀ b ∈ fs.accountBlocks, (fs.blocks b).length = blockSz

/-- The accounting of one group. -/
structure GroupOk (fs : Fs) (groupId : Nat) (g : Group) : Prop where
  /-- The descriptor on disk reads back as the group in memory. -/
  desc : new (fs.desc groupId) = g
  /-- The free counts are the numbers of clear bits. -/
  count : ∀ kind, ∃ bm, fs.bitmap kind groupId g = some bm ∧
    Bitmap.countFree bm (fs.sb.validBits kind groupId) = g.freeCount kind
  /-- The checksum of a stored bitmap matches. -/
  bitmapCsum : fs.sb.hasMetadataCsum = true → ∀ kind, g.uninit kind = false →
    ∀ n, fs.sb.bitmapChecksumLen kind = some n → BitmapCsumStored (fs.desc groupId) kind
      (crc32c fs.sb.metadataChecksumSeed ((fs.blocks (g.bitmapId kind)).take n)).toNat
  descCsum : fs.sb.hasMetadataCsum = true →
    getLe (fs.desc groupId) 0x1e 2 = groupDescChecksum fs.sb.metadataChecksumSeed groupId (fs.desc groupId)

/-- The copies of the free counts agree and the checksums match. -/
structure Accounted (fs : Fs) : Prop where
  geometry : Geometry fs
  group : ∀ i g, fs.groups[i]? = some g → GroupOk fs i g
  super : SuperStored fs.sb.hasMetadataCsum fs.rawSuper (fs.sumFree .block) (fs.sumFree .inode)

/-! ## Layout -/

namespace Geometry

variable {fs : Fs} {i j : Nat} {g h : Group} (geo : Geometry fs)

include geo

theorem congr {fs'} (hsb : fs'.sb = fs.sb) (hgroups : fs'.groups.length = fs.groups.length)
    (hacc : fs'.accountBlocks = fs.accountBlocks) (hlen : ∀ b ∈ fs.accountBlocks, (fs'.blocks b).length = blockSz) :
    Geometry fs' where
  blocksPerGroup := hsb ▸ geo.blocksPerGroup
  inodesPerGroup := hsb ▸ geo.inodesPerGroup
  totalBlocks_lt := hsb ▸ geo.totalBlocks_lt
  totalInodes_lt := hsb ▸ geo.totalInodes_lt
  blocks_cover := by rw [hsb, hgroups]; exact geo.blocks_cover
  inodes_cover := by rw [hsb, hgroups]; exact geo.inodes_cover
  descSize := hsb ▸ geo.descSize
  checksums := hsb ▸ geo.checksums
  nodup := hacc ▸ geo.nodup
  length := hacc ▸ hlen

theorem descLen : DescLen fs.sb.descSize := by
  obtain ⟨h32, k, hk⟩ := geo.descSize
  have hb : blockSz = 4096 := rfl
  by_contra hne
  unfold DescLen at hne
  push Not at hne
  obtain ⟨h1, h2⟩ := hne
  have hlt : fs.sb.descSize ≤ 63 := by omega
  interval_cases hs : fs.sb.descSize <;> omega

theorem desc_inside : (fs.sb.groupDescPos i).2 + fs.sb.descSize ≤ blockSz := by
  obtain ⟨h32, k, hk⟩ := geo.descSize
  unfold groupDescPos
  simp only
  have hk0 : 0 < k := by
    rcases Nat.eq_zero_or_pos k with rfl | h
    · rw [mul_zero] at hk
      exact absurd hk (by decide)
    · exact h
  rw [hk, mul_comm i, mul_mod_mul_left]
  have hlt : i % k + 1 ≤ k := mod_lt _ hk0
  calc fs.sb.descSize * (i % k) + fs.sb.descSize = fs.sb.descSize * (i % k + 1) := by ring
    _ ≤ fs.sb.descSize * k := mul_le_mul_left _ hlt

omit geo in
/-- Descriptors in one block do not overlap. -/
theorem desc_disjoint (hne : i ≠ j) (hblk : (fs.sb.groupDescPos i).1 = (fs.sb.groupDescPos j).1) :
    (fs.sb.groupDescPos i).2 + fs.sb.descSize ≤ (fs.sb.groupDescPos j).2 ∨
      (fs.sb.groupDescPos j).2 + fs.sb.descSize ≤ (fs.sb.groupDescPos i).2 := by
  simp only [groupDescPos, show blockSz = 4096 from rfl] at hblk ⊢
  rcases lt_or_gt_of_ne hne with hlt | hlt
  · have h : (i + 1) * fs.sb.descSize ≤ j * fs.sb.descSize := mul_le_mul_right _ hlt
    rw [add_mul, one_mul] at h
    omega
  · have h : (j + 1) * fs.sb.descSize ≤ i * fs.sb.descSize := mul_le_mul_right _ hlt
    rw [add_mul, one_mul] at h
    omega

theorem gdt_mem (hi : i < fs.groups.length) : (fs.sb.groupDescPos i).1 ∈ fs.gdtBlocks := by
  have h32 := geo.descSize.1
  have h : (i + 1) * fs.sb.descSize ≤ fs.groups.length * fs.sb.descSize := mul_le_mul_right _ hi
  rw [add_mul, one_mul] at h
  refine mem_map.2 ⟨i * fs.sb.descSize / blockSz, mem_range.2 ?_, rfl⟩
  simp only [show blockSz = 4096 from rfl]
  omega

variable (hg : fs.groups[i]? = some g)

include hg

variable (kind : BitmapKind)

omit geo in
theorem bitmap_mem :
    g.bitmapId kind ∈ fs.groups.map blockBitmapId ++ fs.groups.map inodeBitmapId := by
  have hmem := mem_of_getElem? hg
  cases kind with
  | block => exact mem_append_left _ (mem_map_of_mem hmem)
  | inode => exact mem_append_right _ (mem_map_of_mem hmem)

theorem bitmap_ne_gdt (hj : j < fs.groups.length)
    (kind : BitmapKind) : g.bitmapId kind ≠ (fs.sb.groupDescPos j).1 := by
  have hnodup := (nodup_cons.1 geo.nodup).2
  intro he
  exact (nodup_append.1 hnodup).2.2 _ (geo.gdt_mem hj) _ (bitmap_mem hg kind) he.symm

theorem bitmap_ne_zero : g.bitmapId kind ≠ 0 := by
  intro he
  exact (nodup_cons.1 geo.nodup).1 (mem_append_right _ (he ▸ bitmap_mem hg kind))

omit hg geo in
theorem gdt_ne_zero : (fs.sb.groupDescPos i).1 ≠ 0 := by
  simp only [groupDescPos]
  generalize i * fs.sb.descSize / blockSz = q
  omega

/-- Different bitmaps are in different blocks. -/
theorem bitmap_inj (hh : fs.groups[j]? = some h)
    {kind kind'} (he : g.bitmapId kind = h.bitmapId kind') : kind = kind' ∧ i = j := by
  have hnodup := (nodup_append.1 (nodup_cons.1 geo.nodup).2).2.1
  obtain ⟨hA, hB, hAB⟩ := nodup_append.1 hnodup
  have hgm := mem_of_getElem? hg
  have hhm := mem_of_getElem? hh
  have hinj : ∀ f : Group → Nat, (fs.groups.map f).Nodup → f g = f h → i = j := by
    intro f hn hf
    obtain ⟨hi, -⟩ := List.getElem?_eq_some_iff.1 hg
    have hgi : (fs.groups.map f)[i]? = some (f g) := by rw [List.getElem?_map, hg]; rfl
    have hgj : (fs.groups.map f)[j]? = some (f h) := by rw [List.getElem?_map, hh]; rfl
    exact (List.getElem?_inj (by rw [length_map]; exact hi) hn).1 (by rw [hgi, hgj, hf])
  cases kind <;> cases kind'
  · exact ⟨rfl, hinj _ hA he⟩
  · exact absurd he (hAB _ (mem_map_of_mem hgm) _ (mem_map_of_mem hhm))
  · exact absurd he.symm (hAB _ (mem_map_of_mem hhm) _ (mem_map_of_mem hgm))
  · exact ⟨rfl, hinj _ hB he⟩

theorem bitmap_length : (fs.blocks (g.bitmapId kind)).length = blockSz :=
  geo.length _ (mem_cons_of_mem _ (mem_append_right _ (bitmap_mem hg kind)))

omit hg

theorem gdt_length (hi : i < fs.groups.length) : (fs.blocks (fs.sb.groupDescPos i).1).length = blockSz :=
  geo.length _ (mem_cons_of_mem _ (mem_append_left _ (geo.gdt_mem hi)))

theorem super_length : (fs.blocks 0).length = blockSz :=
  geo.length 0 mem_cons_self

theorem desc_length (hi : i < fs.groups.length) : (fs.desc i).length = fs.sb.descSize :=
  length_slice (by rw [geo.gdt_length hi]; exact geo.desc_inside)

theorem validBits_le : fs.sb.validBits kind i ≤ 8 * blockSz := by
  cases kind with
  | block => exact le_trans (min_le_right _ _) geo.blocksPerGroup.2
  | inode => exact le_trans (min_le_right _ _) geo.inodesPerGroup.2

end Geometry

/-! ## The effect of a commit -/

/-- What a commit stores. -/
structure Committed (fs : Fs) (kind : BitmapKind) (i : Nat) (g : Group) (buf : List UInt8) (delta : Int)
    (fs' : Fs) : Prop where
  sb : fs'.sb = fs.sb
  groups : fs'.groups = fs.groups.set i g
  device : fs'.device = fs.device
  bitmap : fs'.blocks (g.bitmapId kind) = buf
  desc : fs'.blocks (fs.sb.groupDescPos i).1 = splice (fs.blocks (fs.sb.groupDescPos i).1)
    (fs.sb.groupDescPos i).2 (newDesc fs.sb i g buf kind (fs.desc i))
  super : fs'.blocks 0 = splice (fs.blocks 0) 1024 (Fs.newSuper fs.sb.hasMetadataCsum fs.rawSuper
    (if kind = .block then delta else 0) (if kind = .inode then delta else 0))
  frame : ∀ b, b ≠ g.bitmapId kind → b ≠ (fs.sb.groupDescPos i).1 → b ≠ 0 → fs'.blocks b = fs.blocks b

variable {fs : Fs} {kind : BitmapKind}

theorem updateGroupCounts_eq {i g buf} :
    fs.updateGroupCounts i g buf kind = fs.writeBlock (fs.sb.groupDescPos i).1
      (splice (fs.blocks (fs.sb.groupDescPos i).1) (fs.sb.groupDescPos i).2
        (newDesc fs.sb i g buf kind (fs.desc i))) := by
  unfold Fs.updateGroupCounts Fs.updateGroupDesc newDesc
  by_cases hcsum : fs.sb.hasMetadataCsum = true
  · cases fs.sb.bitmapChecksumLen kind with
    | none | some n => simp only [hcsum, if_true]
  · simp only [if_neg hcsum]

theorem commitBitmap_spec {i g buf delta}
    (h1 : g.bitmapId kind ≠ (fs.sb.groupDescPos i).1) (h2 : g.bitmapId kind ≠ 0) :
    Committed fs kind i g buf delta (fs.commitBitmap kind i g buf delta) := by
  have h3 : (fs.sb.groupDescPos i).1 ≠ 0 := Geometry.gdt_ne_zero
  have hform : fs.commitBitmap kind i g buf delta =
      { fs with
        groups := fs.groups.set i g
        blocks := update (update (update fs.blocks (g.bitmapId kind) buf)
          (fs.sb.groupDescPos i).1 (splice (fs.blocks (fs.sb.groupDescPos i).1)
            (fs.sb.groupDescPos i).2 (newDesc fs.sb i g buf kind (fs.desc i)))) 0
          (splice (fs.blocks 0) 1024 (Fs.newSuper fs.sb.hasMetadataCsum fs.rawSuper
            (if kind = .block then delta else 0) (if kind = .inode then delta else 0))) } := by
    unfold Fs.commitBitmap
    simp only [updateGroupCounts_eq, Fs.adjustSuperblockCounts, Fs.writeBlock, Fs.rawSuper, Fs.desc,
      update_of_ne h1.symm, update_of_ne h2.symm, update_of_ne h3.symm]
    cases kind <;> rfl
  rw [hform]
  constructor
  case sb => rfl
  case groups => rfl
  case device => rfl
  case bitmap =>
    simp only
    rw [update_of_ne h2, update_of_ne h1, update_self]
  case desc =>
    simp only
    rw [update_of_ne h3, update_self]
  case super =>
    simp only
    rw [update_self]
  case frame =>
    intro b hb1 hb2 hb3
    simp only
    rw [update_of_ne hb3, update_of_ne hb2, update_of_ne hb1]

/-! ## Bitmaps -/

theorem foldlM_length {α : Type} {l : List α} {f : List UInt8 → α → Option (List UInt8)} {n}
    (hf : ∀ bm x bm', bm.length = n → f bm x = some bm' → bm'.length = n) :
    ∀ {bm bm' : List UInt8}, bm.length = n → l.foldlM f bm = some bm' → bm'.length = n := by
  induction l with
  | nil =>
    intro bm bm' hn h
    cases h
    exact hn
  | cons x l ih =>
    intro bm bm' hn h
    rw [foldlM_cons, Option.bind_eq_bind, Option.bind_eq_some_iff] at h
    obtain ⟨bm₁, h1, h2⟩ := h
    exact ih (hf bm x bm₁ hn h1) h2

variable {bm bm' : List UInt8}

theorem setBitmapBits_length {start stop : Nat}
    (h : Fs.setBitmapBits bm start stop = some bm') : bm'.length = bm.length := by
  refine foldlM_length (fun b x b' hn hb => ?_) rfl h
  split at hb
  · cases hb
    rw [Bitmap.length_set, hn]
  · cases hb

variable {sb : SuperBlock}

theorem blankBitmap_length {i bm}
    (h : Fs.blankBitmap sb kind i = some bm) : bm.length = blockSz := by
  unfold Fs.blankBitmap at h
  split at h
  · cases h
  · split at h
    · cases h
    · rw [setBitmapBits_length h, length_replicate]

theorem reserveSuperBackup_length {i}
    (h : Fs.reserveSuperBackup sb i bm = some bm') : bm'.length = bm.length := by
  unfold Fs.reserveSuperBackup at h
  simp only at h
  split at h
  · exact setBitmapBits_length h
  · cases h
    rfl

theorem reserveGroupMetadata_length {i n : Nat} {groups : List Group}
    (h : Fs.reserveGroupMetadata sb i n groups bm = some bm') : bm'.length = bm.length := by
  refine foldlM_length (fun b g b' hn hb => ?_) rfl h
  simp only [Option.bind_eq_bind, Option.bind_eq_some_iff] at hb
  obtain ⟨c1, hc1, c2, hc2, hc3⟩ := hb
  rw [setBitmapBits_length hc3, setBitmapBits_length hc2, setBitmapBits_length hc1, hn]

theorem materialize_spec {i n bm} (h : fs.materialize kind i n = some bm) :
    bm.length = blockSz ∧ Bitmap.countFree bm (fs.sb.validBits kind i) = n := by
  have hguard : ∀ {p : Prop} [Decidable p] {u : Unit}, (guard p : Option Unit) = some u → p := by
    intro p _ u hp
    by_contra hn
    rw [guard, if_neg hn] at hp
    cases hp
  cases kind with
  | block =>
    simp only [Fs.materialize, Fs.materializeBlockBitmap, Option.bind_eq_bind, Option.bind_eq_some_iff] at h
    obtain ⟨-, -, b1, h1, b2, h2, -, -, b3, h3, u, h4, h5⟩ := h
    cases h5
    refine ⟨?_, hguard h4⟩
    rw [reserveGroupMetadata_length h3, reserveSuperBackup_length h2, blankBitmap_length h1]
  | inode =>
    simp only [Fs.materialize, Fs.materializeInodeBitmap, Option.bind_eq_bind, Option.bind_eq_some_iff] at h
    obtain ⟨b1, h1, b2, h2, u, h4, h5⟩ := h
    cases h5
    refine ⟨?_, hguard h4⟩
    unfold Fs.reserveFirstInodes at h2
    split at h2
    · rw [setBitmapBits_length h2, blankBitmap_length h1]
    · cases h2
      exact blankBitmap_length h1

/-- The block numbers of a group. -/
def Group.ids (g : Group) : Nat × Nat × Nat :=
  (g.blockBitmapId, g.inodeBitmapId, g.inodeTableId)

/-- The bitmap built for a group depends on the layout only. -/
theorem materialize_congr {fs fs' : Fs} (hsb : fs'.sb = fs.sb)
    (hids : fs'.groups.map Group.ids = fs.groups.map Group.ids) (kind : BitmapKind) (i n : Nat) :
    fs'.materialize kind i n = fs.materialize kind i n := by
  have hmeta : ∀ (m : Nat) (bm : List UInt8), Fs.reserveGroupMetadata fs.sb i m fs'.groups bm =
      Fs.reserveGroupMetadata fs.sb i m fs.groups bm := by
    intro m bm
    have hfold : ∀ groups : List Group, Fs.reserveGroupMetadata fs.sb i m groups bm =
        (groups.map Group.ids).foldlM (fun bm d => do
          let bm ← Fs.reservePhysicalRange fs.sb i d.1 1 bm
          let bm ← Fs.reservePhysicalRange fs.sb i d.2.1 1 bm
          Fs.reservePhysicalRange fs.sb i d.2.2 m bm) bm := by
      intro groups
      rw [foldlM_map]
      rfl
    rw [hfold, hfold, hids]
  cases kind with
  | block => simp only [Fs.materialize, Fs.materializeBlockBitmap, hsb, hmeta]
  | inode => simp only [Fs.materialize, Fs.materializeInodeBitmap, hsb]

/-! ## Sums -/

theorem sum_map_set {α : Type} {l : List α} {i x y} (f : α → Nat) (h : l[i]? = some x) :
    ((l.set i y).map f).sum + f x = (l.map f).sum + f y := by
  induction l generalizing i with
  | nil => simp at h
  | cons a l ih =>
    cases i with
    | zero =>
      simp only [List.getElem?_cons_zero, Option.some.injEq] at h
      subst h
      simp only [set_cons_zero, map_cons, sum_cons]
      omega
    | succ i =>
      have := ih (i := i) (by simpa using h)
      simp only [set_cons_succ, map_cons, sum_cons]
      omega

/-- Counts bounded by the size of their group add up to no more than the total. -/
theorem sum_le_total {α : Type} {l : List α} {f : α → Nat} {s total size}
    (h : ∀ i x, l[i]? = some x → f x ≤ min (total - (s + i) * size) size) : (l.map f).sum ≤ total - s * size := by
  induction l generalizing s with
  | nil => simp
  | cons a l ih =>
    have h0 := h 0 a rfl
    have hrest := @ih (s + 1) fun i x hx => by
      have := h (i + 1) x (by simpa using hx)
      rwa [show s + 1 + i = s + (i + 1) by omega]
    rw [add_zero] at h0
    rw [map_cons, sum_cons]
    have hmul : (s + 1) * size = s * size + size := by rw [add_mul, one_mul]
    omega

theorem sub_satU32 {t n} (h : t < 2 ^ 32) : t - satU32 n = t - n := by
  unfold satU32
  omega

/-- The number of blocks or inodes. -/
def SuperBlock.total (sb : SuperBlock) : BitmapKind → Nat
  | .block => sb.totalBlocks
  | .inode => sb.totalInodes

theorem sumFree_le (hb : fs.sb.totalBlocks < 2 ^ 32) (hi : fs.sb.totalInodes < 2 ^ 32)
    (kind : BitmapKind) (h : ∀ i g, fs.groups[i]? = some g → g.freeCount kind ≤ fs.sb.validBits kind i) :
    fs.sumFree kind ≤ fs.sb.total kind := by
  unfold Fs.sumFree
  cases kind with
  | block =>
    have hsum := @sum_le_total _ fs.groups (fun g => g.freeCount .block) 0
      (fs.sb.totalBlocks - fs.sb.firstDataBlock) fs.sb.blocksPerGroup fun i g hg => by
        have hle := h i g hg
        simp only [validBits, groupBlockCount, sub_satU32 hb] at hle
        rw [zero_add]
        generalize i * fs.sb.blocksPerGroup = n at hle ⊢
        unfold satU32 at hle
        omega
    simp only [total]
    omega
  | inode =>
    have hsum := @sum_le_total _ fs.groups (fun g => g.freeCount .inode) 0
      fs.sb.totalInodes fs.sb.inodesPerGroup fun i g hg => by
        have hle := h i g hg
        rw [zero_add]
        simpa only [validBits, groupInodeCount, sub_satU32 hi] using hle
    simp only [total]
    omega

theorem adjust_eq {v v' limit : Nat} {delta : Int} (h : (v' : Int) = v + delta) (hle : v' ≤ limit) :
    Fs.adjust v delta limit = v' := by
  unfold Fs.adjust
  split <;> omega

/-! ## Preservation -/

/-- The new group `g'` and bitmap `buf` of a commit. -/
structure GroupStep (fs : Fs) (kind : BitmapKind) (i : Nat) (g g' : Group) (buf : List UInt8) (delta : Int) :
    Prop where
  ids : g'.ids = g.ids
  init : g'.uninit kind = false
  otherUninit : g'.uninit kind.other = g.uninit kind.other
  otherCount : g'.freeCount kind.other = g.freeCount kind.other
  length : buf.length = blockSz
  count : Bitmap.countFree buf (fs.sb.validBits kind i) = g'.freeCount kind
  fits : ∀ v ∈ [g'.freeBlocksCount, g'.freeInodesCount, g'.usedDirsCount, g'.itableUnused],
    FitsField fs.sb.descSize v
  delta : (g'.freeCount kind : Int) = g.freeCount kind + delta

theorem Group.bitmapId_of_ids {g g' : Group} (h : g'.ids = g.ids) (kind : BitmapKind) :
    g'.bitmapId kind = g.bitmapId kind := by
  simp only [Group.ids, Prod.mk.injEq] at h
  cases kind with
  | block => exact h.1
  | inode => exact h.2.1

theorem BitmapKind.eq_or_other (kind kind' : BitmapKind) : kind' = kind ∨ kind' = kind.other := by
  cases kind <;> cases kind' <;> simp [BitmapKind.other]

theorem BitmapKind.other_ne (kind : BitmapKind) : kind.other ≠ kind := by
  cases kind <;> decide

section Commit

variable {fs fs' : Fs} {kind : BitmapKind} {i : Nat} {g g' : Group} {buf : List UInt8} {delta : Int}

/-- The free counts are at most the sizes of the groups. -/
theorem freeCount_le (h : ∀ j g, fs.groups[j]? = some g → GroupOk fs j g) (kind : BitmapKind) :
    ∀ j g, fs.groups[j]? = some g → g.freeCount kind ≤ fs.sb.validBits kind j := by
  intro j g hg
  obtain ⟨bm, -, hcount⟩ := (h j g hg).count kind
  rw [← hcount]
  exact Bitmap.countFree_le _ _

variable (hg : fs.groups[i]? = some g) (hs : GroupStep fs kind i g g' buf delta)

include hg hs

theorem Committed.stored (geo : Geometry fs) (hold : new (fs.desc i) = g) :
    DescStored fs.sb i g' buf kind (fs.desc i) (newDesc fs.sb i g' buf kind (fs.desc i)) := by
  obtain ⟨hi, -⟩ := List.getElem?_eq_some_iff.1 hg
  have hlen := geo.desc_length hi
  have hids := hs.ids
  simp only [Group.ids, Prod.mk.injEq] at hids
  refine newDesc_stored (by rw [hlen]; exact geo.descLen) ?_ (by rw [hlen]; exact hs.fits)
  rw [hold]
  exact ⟨hids.1.symm, hids.2.1.symm, hids.2.2.symm⟩

variable (hc : Committed fs kind i g' buf delta fs')

include hc

theorem Committed.ids : fs'.groups.map Group.ids = fs.groups.map Group.ids := by
  rw [hc.groups, map_set, hs.ids]
  refine ext_getElem? fun j => ?_
  rw [List.getElem?_set]
  split
  · rename_i hij
    subst hij
    obtain ⟨hi, -⟩ := List.getElem?_eq_some_iff.1 hg
    rw [if_pos (by rw [length_map]; exact hi), List.getElem?_map, hg]
    rfl
  · rfl

theorem Committed.accountBlocks : fs'.accountBlocks = fs.accountBlocks := by
  have hids := hc.ids hg hs
  have h1 : fs'.groups.map blockBitmapId = fs.groups.map blockBitmapId := by
    have := congrArg (map Prod.fst) hids
    simpa [map_map, comp_def, Group.ids] using this
  have h2 : fs'.groups.map inodeBitmapId = fs.groups.map inodeBitmapId := by
    have := congrArg (map fun d => d.2.1) hids
    simpa [map_map, comp_def, Group.ids] using this
  have hlen : fs'.groups.length = fs.groups.length := by rw [hc.groups, length_set]
  unfold Fs.accountBlocks Fs.gdtBlocks
  rw [h1, h2, hlen, hc.sb]

variable (geo : Geometry fs)

include geo

/-- The other bitmaps stay. -/
theorem Committed.bitmap_other {j} {h : Group} (hh : fs.groups[j]? = some h) {kind'} (hne : kind' ≠ kind ∨ j ≠ i) :
    fs'.blocks (h.bitmapId kind') = fs.blocks (h.bitmapId kind') := by
  obtain ⟨hi, -⟩ := List.getElem?_eq_some_iff.1 hg
  refine hc.frame _ ?_ (geo.bitmap_ne_gdt hh hi kind') (geo.bitmap_ne_zero hh kind')
  rw [bitmapId_of_ids hs.ids]
  intro he
  obtain ⟨hk, hij⟩ := geo.bitmap_inj hh hg he
  rcases hne with h | h
  · exact h hk
  · exact h hij

variable (hlen : (newDesc fs.sb i g' buf kind (fs.desc i)).length = fs.sb.descSize)

include hlen

omit hs in
theorem Committed.desc_self : fs'.desc i = newDesc fs.sb i g' buf kind (fs.desc i) := by
  obtain ⟨hi, -⟩ := List.getElem?_eq_some_iff.1 hg
  unfold Fs.desc
  rw [hc.sb, hc.desc]
  conv_lhs => rw [← hlen]
  exact slice_splice_self (by rw [hlen, geo.gdt_length hi]; exact geo.desc_inside)

theorem Committed.desc_other {j : Nat} (hj : j < fs.groups.length) (hne : j ≠ i) : fs'.desc j = fs.desc j := by
  obtain ⟨hi, -⟩ := List.getElem?_eq_some_iff.1 hg
  unfold Fs.desc
  rw [hc.sb]
  by_cases hblk : (fs.sb.groupDescPos j).1 = (fs.sb.groupDescPos i).1
  · rw [hblk, hc.desc]
    refine slice_splice_disjoint (by rw [hlen, geo.gdt_length hi]; exact geo.desc_inside) ?_
    rw [hlen]
    exact Geometry.desc_disjoint hne hblk
  · have hbm : (fs.sb.groupDescPos j).1 ≠ g'.bitmapId kind := by
      rw [bitmapId_of_ids hs.ids]
      exact (geo.bitmap_ne_gdt hg hj kind).symm
    rw [hc.frame _ hbm hblk Geometry.gdt_ne_zero]

theorem Committed.geometry (hsup : (fs'.blocks 0).length = blockSz) : Geometry fs' := by
  obtain ⟨hi, -⟩ := List.getElem?_eq_some_iff.1 hg
  refine geo.congr hc.sb (by rw [hc.groups, length_set]) (hc.accountBlocks hg hs) fun b hb => ?_
  by_cases h1 : b = g'.bitmapId kind
  · rw [h1, hc.bitmap]; exact hs.length
  · by_cases h2 : b = (fs.sb.groupDescPos i).1
    · rw [h2, hc.desc, length_splice, geo.gdt_length hi]
      rw [hlen, geo.gdt_length hi]
      exact geo.desc_inside
    · by_cases h3 : b = 0
      · rwa [h3]
      · rw [hc.frame b h1 h2 h3]
        exact geo.length b hb

omit geo hlen

variable (ha : Accounted fs)

include ha

/-- The accounting of the groups after a commit. -/
theorem Committed.groupOk : ∀ j h, fs'.groups[j]? = some h → GroupOk fs' j h := by
  have geo := ha.geometry
  obtain ⟨hi, -⟩ := List.getElem?_eq_some_iff.1 hg
  have hok := ha.group i g hg
  have hd := Committed.stored hg hs geo hok.desc
  have hlen := hd.length.trans (geo.desc_length hi)
  have hmat := materialize_congr hc.sb (hc.ids hg hs)
  have hself := hc.desc_self hg geo hlen
  intro j h hh
  rw [hc.groups, List.getElem?_set] at hh
  split at hh
  · rename_i hij
    subst hij
    obtain rfl : g' = h := Option.some.inj hh
    constructor
    case desc => rw [hself]; exact hd.group
    case count =>
      intro kind'
      rcases BitmapKind.eq_or_other kind kind' with rfl | rfl
      · refine ⟨buf, ?_, ?_⟩
        · rw [Fs.bitmap, hs.init, if_neg (by decide), hc.bitmap]
        · rw [hc.sb]; exact hs.count
      · obtain ⟨bm, hbm, hcount⟩ := hok.count kind.other
        refine ⟨bm, ?_, ?_⟩
        · rw [← hbm, Fs.bitmap, Fs.bitmap, hs.otherUninit, hs.otherCount, hmat, bitmapId_of_ids hs.ids,
            hc.bitmap_other hg hs geo hg (Or.inl kind.other_ne)]
        · rw [hc.sb, hcount, hs.otherCount]
    case bitmapCsum =>
      rw [hc.sb, hself]
      intro hcsum kind' hinit n hn
      rcases BitmapKind.eq_or_other kind kind' with rfl | rfl
      · rw [hc.bitmap]
        exact hd.bitmapCsum hcsum n hn
      · rw [bitmapId_of_ids hs.ids, hc.bitmap_other hg hs geo hg (Or.inl kind.other_ne)]
        exact hd.otherCsum _ (hok.bitmapCsum hcsum kind.other (hs.otherUninit ▸ hinit) n hn)
    case descCsum => rw [hc.sb, hself]; exact hd.descCsum
  · rename_i hij
    obtain ⟨hj, -⟩ := List.getElem?_eq_some_iff.1 hh
    have hokj := ha.group j h hh
    have hne : j ≠ i := fun he => hij he.symm
    have hdesc := hc.desc_other hg hs geo hlen hj hne
    have hbm : ∀ kind', fs'.blocks (h.bitmapId kind') = fs.blocks (h.bitmapId kind') :=
      fun kind' => hc.bitmap_other hg hs geo hh (Or.inr hne)
    constructor
    case desc => rw [hdesc]; exact hokj.desc
    case count =>
      intro kind'
      obtain ⟨bm, h1, h2⟩ := hokj.count kind'
      refine ⟨bm, ?_, by rw [hc.sb]; exact h2⟩
      rw [← h1, Fs.bitmap, Fs.bitmap, hmat, hbm]
    case bitmapCsum =>
      rw [hc.sb, hdesc]
      intro hcsum kind' hinit n hn
      rw [hbm]
      exact hokj.bitmapCsum hcsum kind' hinit n hn
    case descCsum => rw [hc.sb, hdesc]; exact hokj.descCsum

/-- A commit keeps the accounting. -/
theorem Committed.accounted : Accounted fs' := by
  have geo := ha.geometry
  have hok := hc.groupOk hg hs ha
  obtain ⟨hi, -⟩ := List.getElem?_eq_some_iff.1 hg
  have hlen := (Committed.stored hg hs geo (ha.group i g hg).desc).length.trans (geo.desc_length hi)
  have hsup := ha.super
  -- the sums over the groups change as the counts in the superblock do
  have hsum : ∀ k, (fs'.sumFree k : Int) = fs.sumFree k + if kind = k then delta else 0 := by
    intro k
    have h := @sum_map_set _ fs.groups i g g' (fun x => x.freeCount k) hg
    rw [← hc.groups] at h
    unfold Fs.sumFree
    rcases BitmapKind.eq_or_other kind k with rfl | rfl
    · have := hs.delta
      rw [if_pos rfl]
      generalize (fs'.groups.map fun x => x.freeCount k).sum = a at h ⊢
      omega
    · rw [if_neg kind.other_ne.symm]
      simp only [hs.otherCount] at h
      generalize (fs'.groups.map fun x => x.freeCount kind.other).sum = a at h ⊢
      omega
  have hbound : ∀ k, fs'.sumFree k ≤ fs.sb.total k := by
    intro k
    have h := sumFree_le (by rw [hc.sb]; exact geo.totalBlocks_lt) (by rw [hc.sb]; exact geo.totalInodes_lt) k
      (freeCount_le hok k)
    rwa [hc.sb] at h
  have hb := hbound .block
  have hi := hbound .inode
  simp only [total] at hb hi
  have hblocks := hsum .block
  have hinodes := hsum .inode
  have hsuper := hc.super
  have htotal := geo.totalBlocks_lt
  have htotal' := geo.totalInodes_lt
  generalize (if kind = .block then delta else 0) = db, (if kind = .inode then delta else 0) = di
    at hblocks hinodes hsuper
  have hblocks : Fs.adjust (Fs.superFreeBlocks fs.rawSuper) db (2 ^ 64 - 1) = fs'.sumFree .block := by
    rw [hsup.blocks]
    exact adjust_eq hblocks (by omega)
  have hinodes : Fs.adjust (getLe fs.rawSuper 0x10 4) di (2 ^ 32 - 1) = fs'.sumFree .inode := by
    rw [hsup.inodes]
    exact adjust_eq hinodes (by omega)
  have hnew := @newSuper_stored fs.sb.hasMetadataCsum fs.rawSuper db di hsup.length (by rw [hblocks]; omega)
    (by rw [hinodes]; omega)
  rw [hblocks, hinodes] at hnew
  have hfits : 1024 + (Fs.newSuper fs.sb.hasMetadataCsum fs.rawSuper db di).length ≤ (fs.blocks 0).length := by
    rw [hnew.length, geo.super_length]
    decide
  refine ⟨hc.geometry hg hs geo hlen ?_, hok, ?_⟩
  · rw [hsuper, length_splice hfits, geo.super_length]
  · have hraw : fs'.rawSuper = Fs.newSuper fs.sb.hasMetadataCsum fs.rawSuper db di := by
      have h := slice_splice_self hfits
      rwa [hnew.length, ← hsuper] at h
    rw [hraw, hc.sb]
    exact hnew

end Commit

end ShellCore.Ext4
