import ShellCore.Ext4.SpaceRun

/-!
# Block bitmaps built on demand

The bitmap of a group without one on disk is built from the layout. Each step of the construction sets the bits of a
range, so a bit is set exactly if one of the ranges has it; inside the group none of the saturated sums is cut off.
-/

namespace ShellCore.Ext4

open Option hiding or_assoc

open Bitmap

namespace SuperBlock

variable (sb : SuperBlock)

/-- The group has the superblock and the descriptor table, or copies of them. -/
def HasBackup (i : Nat) : Prop :=
  if sb.compatFeatures &&& 0x0200 ≠ 0 then i = 0 ∨ i ∈ sb.backupBgs
  else if sb.roCompatFeatures &&& 0x0001 ≠ 0 then i = 0 ∨ ∃ k, i = 3 ^ k ∨ i = 5 ^ k ∨ i = 7 ^ k
  else True

/-- The first block of a group. -/
def groupStart (i : Nat) : Nat := sb.firstDataBlock + i * sb.blocksPerGroup

/-- The superblock, the descriptor table and the blocks reserved for its growth. -/
def backupBlocks : Nat := 1 + (sb.groupNum * sb.descSize + blockSz - 1) / blockSz + sb.reservedGdtBlocks

def inodeTableBlocks : Nat := (sb.inodesPerGroup * sb.inodeSize + sb.blockSize - 1) / sb.blockSize

end SuperBlock

open SuperBlock

/-- The block of group `i` holds metadata: a copy of the superblock and what follows it, or the bitmaps or the inode
table of any group. -/
def Fs.Metadata (fs : Fs) (i b : Nat) : Prop :=
  (fs.sb.HasBackup i ∧ b < fs.sb.groupStart i + fs.sb.backupBlocks) ∨
    ∃ g ∈ fs.groups, b = g.blockBitmapId ∨ b = g.inodeBitmapId ∨
      g.inodeTableId ≤ b ∧ b < g.inodeTableId + fs.sb.inodeTableBlocks

/-! ## Groups with copies -/

theorem stripFactor_eq_one {f g} (hf : 1 < f) (hg : 0 < g) : Fs.stripFactor f g = 1 ↔ ∃ k, g = f ^ k := by
  induction g using Nat.strong_induction_on with
  | _ g ih =>
    rw [Fs.stripFactor]
    split
    case isTrue h =>
      obtain ⟨q, rfl⟩ := Nat.dvd_of_mod_eq_zero h.2.2
      have hq : 0 < q := Nat.pos_of_mul_pos_left hg
      rw [Nat.mul_div_cancel_left q (by omega), ih q (lt_mul_of_one_lt_left hq hf) hq]
      constructor
      · rintro ⟨k, rfl⟩
        exact ⟨k + 1, (Nat.pow_succ').symm⟩
      · rintro ⟨k, hk⟩
        cases k with
        | zero =>
          have := lt_mul_of_one_lt_left hq hf
          rw [Nat.pow_zero] at hk
          omega
        | succ k =>
          rw [Nat.pow_succ'] at hk
          exact ⟨k, Nat.eq_of_mul_eq_mul_left (by omega) hk⟩
    case isFalse h =>
      constructor
      · rintro rfl
        exact ⟨0, rfl⟩
      · rintro ⟨k, rfl⟩
        cases k with
        | zero => rfl
        | succ k => exact absurd ⟨hf, hg, by rw [Nat.pow_succ']; exact Nat.mul_mod_right ..⟩ h

theorem isPowerOfGroup_iff {f g} (hf : 1 < f) (hg : 0 < g) :
    Fs.isPowerOfGroup g f = true ↔ g ≠ 1 ∧ ∃ k, g = f ^ k := by
  unfold Fs.isPowerOfGroup
  split
  case isTrue hlt =>
    refine iff_of_false Bool.false_ne_true ?_
    rintro ⟨hne, k, rfl⟩
    cases k with
    | zero => exact hne rfl
    | succ k => exact absurd hlt (Nat.not_lt.2 (Nat.le_self_pow (Nat.succ_ne_zero k) f))
  case isFalse hge =>
    rw [decide_eq_true_eq, stripFactor_eq_one hf hg]
    exact ⟨fun h => ⟨by omega, h⟩, fun h => h.2⟩

theorem groupHasSuperBackup_iff (sb : SuperBlock) (i : Nat) : Fs.groupHasSuperBackup sb i = true ↔ sb.HasBackup i := by
  unfold Fs.groupHasSuperBackup HasBackup
  by_cases h0 : i = 0
  · refine iff_of_true (if_pos h0) ?_
    split
    · exact .inl h0
    · split
      · exact .inl h0
      · trivial
  · rw [if_neg h0]
    split
    · simp [h0]
    · split
      case isTrue hsparse => simp [hsparse]
      case isFalse hsparse =>
        have hpos : 0 < i := Nat.pos_of_ne_zero h0
        simp only [Bool.or_eq_true, decide_eq_true_eq, isPowerOfGroup_iff (by decide : 1 < 3) hpos,
          isPowerOfGroup_iff (by decide : 1 < 5) hpos, isPowerOfGroup_iff (by decide : 1 < 7) hpos, h0, false_or]
        by_cases h1 : i = 1
        · exact iff_of_true (.inl (.inl (.inl h1))) ⟨0, .inl h1⟩
        · simp only [h1, ne_eq, not_false_eq_true, true_and, false_or, exists_or, or_assoc]

/-! ## Ranges of bits -/

variable {fs : Fs} {sb : SuperBlock} {bm bm' : List UInt8} {i j : Nat}

theorem setBitmapBits_test {start stop} (h : Fs.setBitmapBits bm start stop = some bm') (j : Nat) :
    test bm' j = true ↔ test bm j = true ∨ start ≤ j ∧ j < stop := by
  have hfold : ∀ (l : List Nat) (bm : List UInt8), l.foldlM (fun bm bit => if bit / 8 < bm.length then
      some (set bm bit) else none) bm = some bm' → (test bm' j = true ↔ test bm j = true ∨ j ∈ l) := by
    intro l
    induction l with
    | nil =>
      intro bm h
      cases h
      simp
    | cons bit l ih =>
      intro bm h
      rw [List.foldlM_cons] at h
      obtain ⟨bm₁, hset, h⟩ := bind_eq_some_iff.1 h
      obtain ⟨hlt, hset⟩ := ite_none_right_eq_some.1 hset
      cases hset
      rw [ih _ h, test_set hlt, Bool.or_eq_true, decide_eq_true_eq, List.mem_cons, or_assoc, or_left_comm,
        eq_comm (a := bit)]
  rw [hfold _ _ h, List.mem_range'_1]
  refine or_congr_right ⟨fun hj => ?_, fun hj => ?_⟩ <;> omega

variable (h32 : sb.totalBlocks < 2 ^ 32)

include h32

/-- A block of the group is marked if the range has it. -/
theorem reservePhysicalRange_test {start count}
    (h : Fs.reservePhysicalRange sb i start count bm = some bm') (hj : j < sb.groupBlockCount i) :
    test bm' j = true ↔
      test bm j = true ∨ start ≤ sb.groupStart i + j ∧ sb.groupStart i + j < start + count := by
  unfold Fs.reservePhysicalRange at h
  rw [setBitmapBits_test h]
  unfold groupBlockCount satU32 at hj ⊢
  unfold groupStart
  refine or_congr_right ⟨fun hin => ?_, fun hin => ?_⟩ <;> omega

omit h32 in
/-- What is beyond the group stays as it is. -/
theorem reservePhysicalRange_outside {start count} (h : Fs.reservePhysicalRange sb i start count bm = some bm')
    (hj : test bm j = true) : test bm' j = true :=
  (setBitmapBits_test h j).2 (.inl hj)

theorem reserveSuperBackup_test (h : Fs.reserveSuperBackup sb i bm = some bm') (hj : j < sb.groupBlockCount i) :
    test bm' j = true ↔ test bm j = true ∨ sb.HasBackup i ∧ j < sb.backupBlocks := by
  unfold Fs.reserveSuperBackup at h
  dsimp only at h
  rw [← groupHasSuperBackup_iff]
  split at h
  case isTrue hb =>
    rw [reservePhysicalRange_test h32 h hj]
    refine or_congr_right ?_
    simp only [hb, true_and]
    unfold groupBlockCount at hj
    unfold groupStart backupBlocks
    unfold satU32 at hj ⊢
    constructor <;> intro hin <;> omega
  case isFalse hb =>
    cases h
    simp [hb]

theorem reserveGroupMetadata_test {n groups}
    (h : Fs.reserveGroupMetadata sb i n groups bm = some bm') (hj : j < sb.groupBlockCount i) :
    test bm' j = true ↔ test bm j = true ∨ ∃ g ∈ groups, sb.groupStart i + j = g.blockBitmapId ∨
      sb.groupStart i + j = g.inodeBitmapId ∨
        g.inodeTableId ≤ sb.groupStart i + j ∧ sb.groupStart i + j < g.inodeTableId + n := by
  have hone : ∀ a : Nat, a ≤ sb.groupStart i + j ∧ sb.groupStart i + j < a + 1 ↔ sb.groupStart i + j = a := by omega
  unfold Fs.reserveGroupMetadata at h
  induction groups generalizing bm with
  | nil =>
    cases h
    simp
  | cons g groups ih =>
    rw [List.foldlM_cons] at h
    obtain ⟨b₃, hg, h⟩ := bind_eq_some_iff.1 h
    obtain ⟨b₁, h₁, hg⟩ := bind_eq_some_iff.1 hg
    obtain ⟨b₂, h₂, h₃⟩ := bind_eq_some_iff.1 hg
    refine (ih h).trans ?_
    rw [reservePhysicalRange_test h32 h₃ hj, reservePhysicalRange_test h32 h₂ hj, reservePhysicalRange_test h32 h₁ hj,
      hone, hone]
    simp only [List.exists_mem_cons_iff, or_assoc]

omit h32

/-- The bits beyond the group stay set. -/
theorem reserveGroupMetadata_outside {n groups}
    (h : Fs.reserveGroupMetadata sb i n groups bm = some bm') (hj : test bm j = true) : test bm' j = true := by
  unfold Fs.reserveGroupMetadata at h
  induction groups generalizing bm with
  | nil =>
    cases h
    exact hj
  | cons g groups ih =>
    rw [List.foldlM_cons] at h
    obtain ⟨b₃, hg, h⟩ := bind_eq_some_iff.1 h
    obtain ⟨b₁, h₁, hg⟩ := bind_eq_some_iff.1 hg
    obtain ⟨b₂, h₂, h₃⟩ := bind_eq_some_iff.1 hg
    exact ih h (reservePhysicalRange_outside h₃ (reservePhysicalRange_outside h₂ (reservePhysicalRange_outside h₁ hj)))

/-- When `materialize_block_bitmap` succeeds, a bit of the group is set exactly if its block holds metadata, the padding
up to the checksummed length is set, and the clear bits of the group are as many as the descriptor says. -/
theorem materializeBlockBitmap_exact {n : Nat} (h32 : fs.sb.totalBlocks < 2 ^ 32)
    (h : fs.materializeBlockBitmap i n = some bm) :
    (∀ j, j < fs.sb.groupBlockCount i → (test bm j = true ↔ fs.Metadata i (fs.sb.groupStart i + j))) ∧
      (∃ len, fs.sb.bitmapChecksumLen .block = some len ∧
        ∀ j, fs.sb.groupBlockCount i ≤ j → j < len * 8 → test bm j = true) ∧
      countFree bm (fs.sb.groupBlockCount i) = n := by
  have hcount := (@materialize_spec fs .block _ _ _ h).2
  simp only [Fs.materializeBlockBitmap, bind_eq_bind, bind_eq_some_iff] at h
  obtain ⟨-, -, b₁, hblank, b₂, hbackup, -, -, b₃, hmeta, -, -, h⟩ := h
  cases h
  unfold Fs.blankBitmap at hblank
  cases hlen : fs.sb.bitmapChecksumLen .block with
  | none => simp [hlen] at hblank
  | some len =>
    simp only [hlen] at hblank
    obtain ⟨-, hblank⟩ := ite_none_left_eq_some.1 hblank
    have hzero : ∀ j, test (List.replicate blockSz 0) j = false := by
      intro j
      rw [test_eq, List.getD_eq_getElem?_getD, List.getElem?_replicate]
      split <;> simp
    refine ⟨fun j hj => ?_, ⟨len, rfl, fun j hge hlt => ?_⟩, hcount⟩
    · have hpad : ¬(fs.sb.groupBlockCount i ≤ j ∧ j < len * 8) := by omega
      rw [reserveGroupMetadata_test h32 hmeta hj, reserveSuperBackup_test h32 hbackup hj, setBitmapBits_test hblank, hzero]
      simp only [Bool.false_eq_true, false_or, validBits, hpad, Fs.Metadata, Nat.add_lt_add_iff_left]
      rfl
    · have hset := (setBitmapBits_test hblank j).2 (.inr ⟨hge, hlt⟩)
      refine reserveGroupMetadata_outside hmeta ?_
      unfold Fs.reserveSuperBackup at hbackup
      dsimp only at hbackup
      split at hbackup
      · exact reservePhysicalRange_outside hbackup hset
      · cases hbackup
        exact hset

/-- `materializeBlockBitmap_exact` on a group of sixteen blocks whose first five hold metadata. -/
theorem materializeBlockBitmap_smallImage : ∃ bm, smallImage.materializeBlockBitmap 0 11 = some bm ∧
    (test bm 4 = true ↔ smallImage.Metadata 0 4) ∧ (test bm 5 = true ↔ smallImage.Metadata 0 5) := by
  have hbuilt : (smallImage.materializeBlockBitmap 0 11).isSome = true := by decide +kernel
  obtain ⟨bm, hbm⟩ := isSome_iff_exists.1 hbuilt
  have h := (materializeBlockBitmap_exact (by decide) hbm).1
  exact ⟨bm, hbm, h 4 (by decide), h 5 (by decide)⟩

end ShellCore.Ext4
