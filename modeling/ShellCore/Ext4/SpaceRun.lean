import ShellCore.Ext4.SpaceInv

/-!
# Runs of the allocator

Each operation keeps the accounting, on two conditions: a number is not deallocated in a group whose
bitmap has not been built yet while the stored bytes happen to have its bit set, and `dealloc_block` is
not called on a block that holds the accounting itself, whose cached page it would drop.
-/

namespace ShellCore.Ext4

open Nat

open List hiding getElem?_eq_some_iff length_set

open ByteBuf Bitmap

namespace Fs

/-- The bit is clear in the group's bitmap. -/
def FreeBit (fs : Fs) (kind : BitmapKind) (i bit : Nat) : Prop :=
  ∃ g bm, fs.groups[i]? = some g ∧ fs.bitmap kind i g = some bm ∧ bit < fs.sb.validBits kind i ∧
    test bm bit = false

/-- A block of the file system that is not allocated. -/
def FreeBlock (fs : Fs) (b : Nat) : Prop :=
  fs.sb.firstDataBlock ≤ b ∧ b < fs.sb.totalBlocks ∧
    fs.FreeBit .block ((b - fs.sb.firstDataBlock) / fs.sb.blocksPerGroup)
      ((b - fs.sb.firstDataBlock) % fs.sb.blocksPerGroup)

/-- An inode of the file system that is not allocated. -/
def FreeInode (fs : Fs) (n : Nat) : Prop :=
  1 ≤ n ∧ n ≤ fs.sb.totalInodes ∧
    fs.FreeBit .inode ((n - 1) / fs.sb.inodesPerGroup) ((n - 1) % fs.sb.inodesPerGroup)

/-- If the group has no bitmap yet, the stored bytes do not have the bit set. -/
def RawClear (fs : Fs) (kind : BitmapKind) (i bit : Nat) : Prop :=
  ∀ g, fs.groups[i]? = some g → g.uninit kind = true → test (fs.blocks (g.bitmapId kind)) bit = false

end Fs

/-- The condition on an operation. -/
def SpaceOp.Safe (fs : Fs) : SpaceOp → Prop
  | .deallocBlock b => b ∉ fs.accountBlocks ∧ fs.RawClear .block
      ((b - fs.sb.firstDataBlock) / fs.sb.blocksPerGroup) ((b - fs.sb.firstDataBlock) % fs.sb.blocksPerGroup)
  | .deallocInode n => fs.RawClear .inode ((n - 1) / fs.sb.inodesPerGroup) ((n - 1) % fs.sb.inodesPerGroup)
  | _ => True

/-- An allocation returns a number that was free; the deallocation of a free number changes nothing. -/
def SpaceOp.Answer (fs : Fs) (r : Option Nat) (fs' : Fs) : SpaceOp → Prop
  | .allocBlock => ∀ b, r = some b → fs.FreeBlock b
  | .allocInode => ∀ n, r = some n → fs.FreeInode n
  | .deallocBlock b => fs.FreeBlock b → fs' = fs
  | .deallocInode n => fs.FreeInode n → fs' = fs
  | .writeBack _ => True

/-- Every operation meets its condition when it is made. -/
def SafeRun (fs : Fs) : List SpaceOp → Prop
  | [] => True
  | op :: ops => op.Safe fs ∧ ∀ r fs', op.step fs = some (r, fs') → SafeRun fs' ops

/-- The accounting holds in every state of the run, and every operation returns and answers correctly. -/
def RunCorrect (fs : Fs) : List SpaceOp → Prop
  | [] => Accounted fs
  | op :: ops => Accounted fs ∧ ∃ r fs', op.step fs = some (r, fs') ∧ op.Answer fs r fs' ∧ RunCorrect fs' ops

/-! ## Allocation -/

section Steps

variable {fs fs' : Fs} {kind : BitmapKind} {i bit : Nat} {g : Group} {buf : List UInt8}

theorem descField_fits {desc lo hi} (h : DescLen desc.length) (hhi : 32 ≤ hi ∧ hi + 2 ≤ 64) :
    FitsField desc.length (descField desc lo hi) := by
  have h1 := getLe_lt desc lo 2
  have h2 := getLe_lt desc hi 2
  unfold FitsField descField
  rcases h with h | h
  · rw [if_neg (by omega)]
    omega
  · rw [if_pos (by omega)]
    omega

/-- The fields of a group read from its descriptor fit back into it. -/
theorem GroupOk.fits (hok : GroupOk fs i g) (geo : Geometry fs) (hi : i < fs.groups.length) :
    FitsField fs.sb.descSize g.usedDirsCount ∧ FitsField fs.sb.descSize g.itableUnused := by
  have hlen := geo.desc_length hi
  have hd : DescLen (fs.desc i).length := by rw [hlen]; exact geo.descLen
  rw [← hok.desc, ← hlen]
  exact ⟨descField_fits hd (by decide), descField_fits hd (by decide)⟩

theorem bitmap_length (geo : Geometry fs) (hg : fs.groups[i]? = some g) (hbm : fs.bitmap kind i g = some buf) :
    buf.length = blockSz := by
  unfold Fs.bitmap at hbm
  split at hbm
  · exact (materialize_spec hbm).1
  · cases hbm
    exact geo.bitmap_length hg kind

theorem fitsField_of_le {len v} (h : v ≤ 8 * blockSz) : FitsField len v :=
  Or.inl (by have : blockSz = 4096 := rfl; omega)

theorem uninit_cleared (flags : UInt16) (kind : BitmapKind) :
    (flags &&& ~~~kind.uninitFlag) &&& kind.uninitFlag = 0 := by
  rw [UInt16.and_assoc, show ~~~kind.uninitFlag &&& kind.uninitFlag = 0 by cases kind <;> rfl, UInt16.and_zero]

theorem uninit_other (flags : UInt16) (kind : BitmapKind) :
    (flags &&& ~~~kind.uninitFlag) &&& kind.other.uninitFlag = flags &&& kind.other.uninitFlag := by
  rw [UInt16.and_assoc,
    show ~~~kind.uninitFlag &&& kind.other.uninitFlag = kind.other.uninitFlag by cases kind <;> rfl]

theorem take_flags (g : Group) (kind : BitmapKind) (v b : Nat) :
    (g.take kind v b).flags = if g.uninit kind then g.flags &&& ~~~kind.uninitFlag else g.flags := by
  cases kind <;> rfl

variable (ha : Accounted fs) (hg : fs.groups[i]? = some g)

include ha hg

/-- The free bits of a bitmap are those that the group counts. -/
theorem bitmap_counted (hbm : fs.bitmap kind i g = some buf) :
    buf.length = blockSz ∧ fs.sb.validBits kind i ≤ 8 * blockSz ∧
      countFree buf (fs.sb.validBits kind i) = g.freeCount kind ∧ ∀ kind, g.freeCount kind ≤ 8 * blockSz := by
  obtain ⟨bm, hbm', hcount⟩ := (ha.group i g hg).count kind
  cases hbm.symm.trans hbm'
  exact ⟨bitmap_length ha.geometry hg hbm, ha.geometry.validBits_le kind, hcount,
    fun kind => le_trans (freeCount_le ha.group kind i g hg) (ha.geometry.validBits_le kind)⟩

/-- The step of an allocation. -/
theorem take_step (hbm : fs.bitmap kind i g = some buf)
    (hbit : bit < fs.sb.validBits kind i) (hfree : test buf bit = false) :
    GroupStep fs kind i g (g.take kind (fs.sb.validBits kind i) bit) (set buf bit) (-1) := by
  obtain ⟨hi, -⟩ := List.getElem?_eq_some_iff.1 hg
  obtain ⟨hlen, hvalid, hcount, hle⟩ := bitmap_counted ha hg hbm
  have hbyte : bit / 8 < buf.length := by rw [hlen]; omega
  have hset := countFree_set hbyte hbit hfree
  have hfit := (ha.group i g hg).fits ha.geometry hi
  constructor
  case ids => cases kind <;> rfl
  case init =>
    rw [Group.uninit, take_flags]
    split
    · rw [uninit_cleared]; rfl
    · rename_i h
      simpa [Group.uninit] using h
  case otherUninit =>
    rw [Group.uninit, take_flags]
    split
    · rw [uninit_other]; rfl
    · rfl
  case otherCount => cases kind <;> rfl
  case length => rw [length_set, hlen]
  case count => cases kind <;> simp only [Group.take, Group.freeCount] at hcount ⊢ <;> omega
  case fits =>
    simp only [forall_mem_cons, not_mem_nil, false_imp_iff, implies_true, and_true]
    cases kind with
    | block => exact ⟨fitsField_of_le (le_trans (sub_le _ _) (hle .block)), fitsField_of_le (hle .inode), hfit⟩
    | inode =>
      refine ⟨fitsField_of_le (hle .block), fitsField_of_le (le_trans (sub_le _ _) (hle .inode)), hfit.1, ?_⟩
      dsimp only [Group.take]
      split
      · exact fitsField_of_le (le_trans (sub_le _ _) hvalid)
      · exact hfit.2
  case delta => cases kind <;> simp only [Group.take, Group.freeCount] at hcount ⊢ <;> omega

theorem commit_committed {g' delta} (hs : GroupStep fs kind i g g' buf delta) :
    Committed fs kind i g' buf delta (fs.commitBitmap kind i g' buf delta) := by
  obtain ⟨hi, -⟩ := List.getElem?_eq_some_iff.1 hg
  have hid := Group.bitmapId_of_ids hs.ids kind
  refine commitBitmap_spec ?_ ?_
  · rw [hid]; exact ha.geometry.bitmap_ne_gdt hg hi kind
  · rw [hid]; exact ha.geometry.bitmap_ne_zero hg kind

theorem allocIn_accounted (h : fs.allocIn kind i g = some (bit, fs')) : Accounted fs' ∧ fs.FreeBit kind i bit := by
  unfold Fs.allocIn at h
  split at h
  · cases h
  · split at h
    · cases h
    · rename_i buf hbm
      simp only at h
      split at h
      · cases h
      · rename_i b hb
        cases h
        obtain ⟨hlt, hfree⟩ := firstFree_spec hb
        have hs := take_step ha hg hbm hlt hfree
        exact ⟨(commit_committed ha hg hs).accounted hg hs ha, g, buf, hg, hbm, hlt, hfree⟩

omit hg in
theorem allocLoop_accounted {l}
    (hl : ∀ p ∈ l, fs.groups[p.2]? = some p.1) (h : fs.allocLoop kind l = some (i, bit, fs')) :
    Accounted fs' ∧ fs.FreeBit kind i bit := by
  induction l with
  | nil => cases h
  | cons p l ih =>
    obtain ⟨g, j⟩ := p
    have hg := hl (g, j) mem_cons_self
    rw [Fs.allocLoop] at h
    split at h
    · rename_i b fs₁ halloc
      cases h
      exact allocIn_accounted ha hg halloc
    · exact ih (fun p hp => hl p (mem_cons_of_mem _ hp)) h

/-! ## Deallocation -/

theorem give_step (hinit : g.uninit kind = false)
    (hbit : bit < fs.sb.validBits kind i) (hused : test (fs.blocks (g.bitmapId kind)) bit = true) :
    GroupStep fs kind i g (g.give kind) (clear (fs.blocks (g.bitmapId kind)) bit) 1 := by
  obtain ⟨hi, -⟩ := List.getElem?_eq_some_iff.1 hg
  have hbm : fs.bitmap kind i g = some (fs.blocks (g.bitmapId kind)) := by rw [Fs.bitmap, hinit, if_neg (by decide)]
  obtain ⟨hlen, hvalid, hcount, hle⟩ := bitmap_counted ha hg hbm
  have hbyte : bit / 8 < (fs.blocks (g.bitmapId kind)).length := by rw [hlen]; omega
  have hclear := countFree_clear hbyte hbit hused
  have hnew := countFree_le (clear (fs.blocks (g.bitmapId kind)) bit) (fs.sb.validBits kind i)
  have hfit := (ha.group i g hg).fits ha.geometry hi
  have hgive : (g.give kind).freeCount kind = g.freeCount kind + 1 := by cases kind <;> rfl
  constructor
  case ids => cases kind <;> rfl
  case init => cases kind <;> exact hinit
  case otherUninit => cases kind <;> rfl
  case otherCount => cases kind <;> rfl
  case length => rw [length_clear, hlen]
  case count => rw [hclear, hcount, hgive]
  case fits =>
    simp only [forall_mem_cons, not_mem_nil, false_imp_iff, implies_true, and_true]
    cases kind <;> simp only [Group.give, Group.freeCount] at hcount ⊢
    · exact ⟨fitsField_of_le (by omega), fitsField_of_le (hle .inode), hfit⟩
    · exact ⟨fitsField_of_le (hle .block), fitsField_of_le (by omega), hfit⟩
  case delta => rw [hgive]; omega

omit hg

/-- A deallocation leaves everything as it is, or releases a bit that was not free. -/
theorem release_accounted (hi : i < fs.groups.length) (hraw : fs.RawClear kind i bit) :
    fs.release kind i bit = some (false, fs) ∨
      ∃ fs', fs.release kind i bit = some (true, fs') ∧ Accounted fs' ∧ fs'.accountBlocks = fs.accountBlocks ∧
        ¬fs.FreeBit kind i bit := by
  obtain ⟨g, hg⟩ : ∃ g, fs.groups[i]? = some g := ⟨_, List.getElem?_eq_getElem hi⟩
  unfold Fs.release
  rw [hg]
  simp only
  by_cases hbit : bit ≥ fs.sb.validBits kind i
  · left; rw [if_pos hbit]
  · rw [if_neg hbit]
    by_cases htest : test (fs.blocks (g.bitmapId kind)) bit = true
    · have hinit : g.uninit kind = false := by
        by_contra hne
        rw [Bool.not_eq_false] at hne
        rw [hraw g hg hne] at htest
        cases htest
      have hs := give_step ha hg hinit (by omega) htest
      right
      have hc := commit_committed ha hg hs
      refine ⟨_, by rw [if_neg (by simp [htest])], hc.accounted hg hs ha, hc.accountBlocks hg hs, ?_⟩
      · rintro ⟨g', bm, hg', hbm, -, hfree⟩
        cases hg.symm.trans hg'
        rw [Fs.bitmap, hinit, if_neg (by decide)] at hbm
        cases hbm
        cases htest.symm.trans hfree
    · left
      rw [if_pos (by simp [htest])]

/-- The accounting depends on its own blocks only. -/
theorem Accounted.congr (hsb : fs'.sb = fs.sb) (hgroups : fs'.groups = fs.groups)
    (hblocks : ∀ b ∈ fs.accountBlocks, fs'.blocks b = fs.blocks b) : Accounted fs' := by
  have geo := ha.geometry
  have hacc : fs'.accountBlocks = fs.accountBlocks := by
    unfold Fs.accountBlocks Fs.gdtBlocks
    rw [hsb, hgroups]
  have hmat := materialize_congr hsb (congrArg (map Group.ids) hgroups)
  constructor
  case geometry => exact geo.congr hsb (congrArg length hgroups) hacc fun b hb => by rw [hblocks b hb]; exact geo.length b hb
  case group =>
    intro j g hg
    rw [hgroups] at hg
    obtain ⟨hj, -⟩ := List.getElem?_eq_some_iff.1 hg
    have hok := ha.group j g hg
    have hdesc : fs'.desc j = fs.desc j := by
      unfold Fs.desc
      rw [hsb, hblocks _ (mem_cons_of_mem _ (mem_append_left _ (geo.gdt_mem hj)))]
    have hbm : ∀ kind, fs'.blocks (g.bitmapId kind) = fs.blocks (g.bitmapId kind) := fun kind =>
      hblocks _ (mem_cons_of_mem _ (mem_append_right _ (Geometry.bitmap_mem hg kind)))
    constructor
    case desc => rw [hdesc]; exact hok.desc
    case count =>
      intro kind
      obtain ⟨bm, h1, h2⟩ := hok.count kind
      refine ⟨bm, ?_, by rw [hsb]; exact h2⟩
      rw [← h1, Fs.bitmap, Fs.bitmap, hmat, hbm]
    case bitmapCsum =>
      rw [hsb, hdesc]
      intro hcsum kind hinit n hn
      rw [hbm]
      exact hok.bitmapCsum hcsum kind hinit n hn
    case descCsum => rw [hsb, hdesc]; exact hok.descCsum
  case super =>
    have hraw : fs'.rawSuper = fs.rawSuper := by
      unfold Fs.rawSuper
      rw [hblocks 0 mem_cons_self]
    have hsum : ∀ k, fs'.sumFree k = fs.sumFree k := by
      intro k
      unfold Fs.sumFree
      rw [hgroups]
    rw [hsb, hraw, hsum, hsum]
    exact ha.super

omit ha in
/-- The group and the bit of a number are those that it was made from. -/
theorem div_mod_number {n off} (h : bit < n) :
    (i * n + bit + off - off) / n = i ∧ (i * n + bit + off - off) % n = bit := by
  rw [Nat.add_sub_cancel, add_comm, add_mul_div_right _ _ (by omega), div_eq_of_lt h, add_mul_mod_self_right, mod_eq_of_lt h]
  exact ⟨zero_add i, rfl⟩

theorem allocBlock_correct : Accounted fs.allocBlock.2 ∧ ∀ b, fs.allocBlock.1 = some b → fs.FreeBlock b := by
  unfold Fs.allocBlock
  cases h : fs.allocLoop .block fs.groups.zipIdx with
  | none => exact ⟨ha, nofun⟩
  | some q =>
    obtain ⟨i, bit, fs'⟩ := q
    obtain ⟨ha', hfree⟩ := allocLoop_accounted ha (fun p hp => mem_zipIdx_iff_getElem?.1 hp) h
    refine ⟨ha', ?_⟩
    rintro b hb
    obtain rfl : i * fs.sb.blocksPerGroup + bit + fs.sb.firstDataBlock = b := Option.some.inj hb
    obtain ⟨g, bm, hg, hbm, hbit, htest⟩ := hfree
    have hlt := ha.geometry.totalBlocks_lt
    have hvalid : bit < fs.sb.groupBlockCount i := hbit
    simp only [SuperBlock.groupBlockCount, sub_satU32 hlt] at hvalid
    obtain ⟨h1, h2⟩ := Nat.lt_min.1 hvalid
    have hsat : satU32 (i * fs.sb.blocksPerGroup) = i * fs.sb.blocksPerGroup := by
      generalize i * fs.sb.blocksPerGroup = n at h1 ⊢
      unfold satU32 at h1 ⊢
      omega
    rw [hsat] at h1
    refine ⟨le_add_left _ _, by omega, ?_⟩
    rw [(div_mod_number h2).1, (div_mod_number h2).2]
    exact ⟨g, bm, hg, hbm, hbit, htest⟩

theorem allocInode_correct : Accounted fs.allocInode.2 ∧ ∀ n, fs.allocInode.1 = some n → fs.FreeInode n := by
  unfold Fs.allocInode
  cases h : fs.allocLoop .inode fs.groups.zipIdx with
  | none => exact ⟨ha, nofun⟩
  | some q =>
    obtain ⟨i, bit, fs'⟩ := q
    obtain ⟨ha', hfree⟩ := allocLoop_accounted ha (fun p hp => mem_zipIdx_iff_getElem?.1 hp) h
    refine ⟨ha', ?_⟩
    rintro n hn
    obtain rfl : i * fs.sb.inodesPerGroup + bit + 1 = n := Option.some.inj hn
    obtain ⟨g, bm, hg, hbm, hbit, htest⟩ := hfree
    have hvalid : bit < fs.sb.groupInodeCount i := hbit
    simp only [SuperBlock.groupInodeCount, sub_satU32 ha.geometry.totalInodes_lt] at hvalid
    obtain ⟨h1, h2⟩ := Nat.lt_min.1 hvalid
    refine ⟨le_add_left _ _, by omega, ?_⟩
    rw [(div_mod_number h2).1, (div_mod_number h2).2]
    exact ⟨g, bm, hg, hbm, hbit, htest⟩

theorem deallocInode_correct {n} (hs : (SpaceOp.deallocInode n).Safe fs) :
    ∃ fs', fs.deallocInode n = some fs' ∧ Accounted fs' ∧ (fs.FreeInode n → fs' = fs) := by
  unfold Fs.deallocInode
  by_cases hr : n = 0 ∨ n > fs.sb.totalInodes
  · exact ⟨fs, if_pos hr, ha, fun _ => rfl⟩
  · have hi : (n - 1) / fs.sb.inodesPerGroup < fs.groups.length := by
      rw [div_lt_iff_lt_mul ha.geometry.inodesPerGroup.1]
      have := ha.geometry.inodes_cover
      omega
    rw [if_neg hr]
    rcases release_accounted ha hi hs with h | ⟨fs', h, ha', -, hnot⟩
    · exact ⟨fs, by rw [h]; rfl, ha, fun _ => rfl⟩
    · exact ⟨fs', by rw [h]; rfl, ha', fun hf => absurd hf.2.2 hnot⟩

theorem deallocBlock_correct {b} (hs : (SpaceOp.deallocBlock b).Safe fs) :
    ∃ fs', fs.deallocBlock b = some fs' ∧ Accounted fs' ∧ (fs.FreeBlock b → fs' = fs) := by
  unfold Fs.deallocBlock
  by_cases hr : b < fs.sb.firstDataBlock ∨ b ≥ fs.sb.totalBlocks
  · exact ⟨fs, if_pos hr, ha, fun _ => rfl⟩
  · have hi : (b - fs.sb.firstDataBlock) / fs.sb.blocksPerGroup < fs.groups.length := by
      rw [div_lt_iff_lt_mul ha.geometry.blocksPerGroup.1]
      have := ha.geometry.blocks_cover
      omega
    obtain ⟨hacc, hraw⟩ := hs
    rw [if_neg hr]
    rcases release_accounted ha hi hraw with h | ⟨fs', h, ha', hblocks, hnot⟩
    · exact ⟨fs, by simp only [h], ha, fun _ => rfl⟩
    · refine ⟨fs'.invalidateBlockCache b, by simp only [h], ?_, fun hf => absurd hf.2.2 hnot⟩
      -- the dropped page is not one of the accounting
      refine ha'.congr rfl rfl fun b' hb' => Function.update_of_ne ?_ _ _
      rintro rfl
      exact hacc (hblocks ▸ hb')

/-- One operation. -/
theorem SpaceOp.step_correct {op : SpaceOp} (hs : op.Safe fs) :
    ∃ r fs', op.step fs = some (r, fs') ∧ op.Answer fs r fs' ∧ Accounted fs' := by
  cases op with
  | allocBlock =>
    obtain ⟨ha', hfree⟩ := allocBlock_correct ha
    exact ⟨_, _, rfl, hfree, ha'⟩
  | deallocBlock b =>
    obtain ⟨fs', hstep, ha', hsame⟩ := deallocBlock_correct ha hs
    exact ⟨none, fs', by rw [SpaceOp.step, hstep]; rfl, hsame, ha'⟩
  | allocInode =>
    obtain ⟨ha', hfree⟩ := allocInode_correct ha
    exact ⟨_, _, rfl, hfree, ha'⟩
  | deallocInode n =>
    obtain ⟨fs', hstep, ha', hsame⟩ := deallocInode_correct ha hs
    exact ⟨none, fs', by rw [SpaceOp.step, hstep]; rfl, hsame, ha'⟩
  | writeBack b => exact ⟨none, fs.writeBack b, rfl, trivial, ha.congr rfl rfl fun _ _ => rfl⟩

omit ha

/-- Every run from a consistent image whose deallocations meet the condition keeps the accounting. -/
theorem accounted_run {ops : List SpaceOp} (ha : Accounted fs) (hs : SafeRun fs ops) : RunCorrect fs ops := by
  induction ops generalizing fs with
  | nil => exact ha
  | cons op ops ih =>
    obtain ⟨hsafe, hrest⟩ := hs
    obtain ⟨r, fs', hstep, hans, ha'⟩ := SpaceOp.step_correct ha hsafe
    exact ⟨ha, r, fs', hstep, hans, ih ha' (hrest r fs' hstep)⟩

end Steps

/-! ## A small image -/

/-- One group of 16 blocks and 8 inodes. The inode bitmap has not been built: inodes 1 and 2 are
reserved, the others are free, whatever the bytes of its block are. -/
def smallGroup : Group where
  blockBitmapId := 2
  inodeBitmapId := 3
  inodeTableId := 4
  freeBlocksCount := 0
  freeInodesCount := 6
  usedDirsCount := 0
  itableUnused := 0
  flags := 1

/-- The image with that group and `metadata_csum`; all bits of both stored bitmaps are set. -/
def smallImage : Fs where
  sb := {
    totalBlocks := 16, totalInodes := 8, blockSize := 4096, inodeSize := 256, blocksPerGroup := 16
    inodesPerGroup := 8, firstDataBlock := 0, incompatFeatures := 0x2000, compatFeatures := 0
    roCompatFeatures := 0x400, uuid := [], checksumSeed := 7, checksumType := 1, reservedGdtBlocks := 0
    firstIno := 3, backupBgs := [], descSize := 32 }
  groups := [smallGroup]
  blocks := fun
    | 0 => replicate 1024 0 ++ (Fs.newSuper true (replicate 16 0 ++ (leBytes 4 6 ++ replicate 1004 0)) 0 0 ++
        replicate 2048 0)
    | 1 => setGroupDescChecksum 7 0 (setBitmapChecksum 7 [0xff, 0xff] (leBytes 4 2 ++ leBytes 4 3 ++ leBytes 4 4 ++
        leBytes 2 0 ++ leBytes 2 6 ++ leBytes 2 0 ++ leBytes 2 1 ++ replicate 12 0) .block) ++ replicate 4064 0
    | _ => replicate 4096 0xff
  device := fun _ => replicate 4096 0xff

theorem smallImage_accounted : Accounted smallImage where
  geometry := by
    constructor
    case nodup => decide
    case length =>
      intro b hb
      have hb : b ∈ [0, 1, 2, 3] := hb
      simp only [mem_cons, not_mem_nil, or_false] at hb
      rcases hb with rfl | rfl | rfl | rfl <;> decide +kernel
    all_goals decide
  group := by
    intro i g hg
    obtain ⟨rfl, rfl⟩ : i = 0 ∧ g = smallGroup := by
      rcases i with - | i
      · exact ⟨rfl, (Option.some.inj hg).symm⟩
      · cases hg
    constructor
    case desc => decide +kernel
    case count =>
      intro kind
      cases kind with
      | block => exact ⟨replicate 4096 0xff, rfl, by decide +kernel⟩
      | inode =>
        have hbuilt : (smallImage.materialize .inode 0 6).isSome = true := by decide +kernel
        obtain ⟨bm, hbm⟩ := Option.isSome_iff_exists.1 hbuilt
        exact ⟨bm, hbm, (materialize_spec hbm).2⟩
    case bitmapCsum =>
      intro _ kind hu n hn
      cases kind with
      | block =>
        obtain rfl : 2 = n := Option.some.inj hn
        exact ⟨by decide +kernel, by decide +kernel⟩
      | inode => cases hu
    case descCsum => decide +kernel
  super := by
    constructor
    case length => decide +kernel
    case blocks => decide +kernel
    case inodes => decide +kernel
    case checksum => decide +kernel

theorem accounted_run_smallImage :
    RunCorrect smallImage [.deallocBlock 9, .allocInode, .allocBlock, .writeBack 0] := by
  refine accounted_run smallImage_accounted ⟨⟨by decide, ?_⟩, fun r fs' _ => ?_⟩
  · intro g hg hu
    obtain rfl : smallGroup = g := Option.some.inj hg
    exact absurd hu (by decide)
  · exact ⟨trivial, fun _ _ _ => ⟨trivial, fun _ _ _ => ⟨trivial, fun _ _ _ => trivial⟩⟩⟩

/-- Inode 6 of the image is free, but its deallocation counts it once more. -/
theorem deallocInode_uninit_smallImage :
    Accounted smallImage ∧ smallImage.FreeInode 6 ∧
      ∃ fs', (SpaceOp.deallocInode 6).step smallImage = some (none, fs') ∧ ¬Accounted fs' := by
  refine ⟨smallImage_accounted, ⟨by decide, by decide, ?_⟩, smallImage.commitBitmap .inode 0
    (smallGroup.give .inode) (clear (replicate 4096 0xff) 5) 1, rfl, fun h => ?_⟩
  · have hbuilt : ((smallImage.materialize .inode 0 6).any fun bm => !test bm 5) = true := by decide +kernel
    obtain ⟨bm, hbm, htest⟩ := (Option.any_eq_true _ _).1 hbuilt
    have hclear : test bm 5 = false := by simpa using htest
    exact ⟨smallGroup, bm, rfl, hbm, by decide, hclear⟩
  · -- the group is still marked as uninitialised, and the bitmap built for it has six clear bits, not seven
    have hc := @commitBitmap_spec smallImage .inode 0 (smallGroup.give .inode)
      (clear (replicate 4096 0xff) 5) 1 (by decide) (by decide)
    obtain ⟨bm, hbm, -⟩ := (h.group 0 (smallGroup.give .inode) (by rw [hc.groups]; rfl)).count .inode
    rw [Fs.bitmap, if_pos (by decide), materialize_congr hc.sb (by rw [hc.groups]; rfl)] at hbm
    have hnone : smallImage.materialize .inode 0 ((smallGroup.give .inode).freeCount .inode) = none := by
      decide +kernel
    cases hnone.symm.trans hbm

end ShellCore.Ext4
