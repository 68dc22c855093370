import ShellCore.Ext4.Extent
import ShellCore.Lib.Walk
import ShellCore.Mm.Address

/-!
# Block lookup on any image

`find_physical_block` on contents that nobody has checked. It is safe if the index nodes that it follows are on the device
and none is met twice, no extent that it looks at ends beyond the logical blocks, and the extent that it finds lies inside
the filesystem.
-/

namespace ShellCore.Ext4

open ByteBuf Walk

open Mm (Arith)

/-- A node as the search holds it: `i_block` or a device block, so that all of its entries are inside it. -/
structure Node where
  data : List UInt8
  size : data.length = 60 ∨ data.length = blockSz

/-- The inode with its `i_block` of 60 bytes. -/
structure Inode extends InodeDisk where
  size : iBlock.length = 60

def Inode.root (di : Inode) : Node := ⟨di.iBlock, .inl di.size⟩

/-- The device, where a read may panic, and `total_blocks` of the superblock. -/
structure Image where
  read : Nat → Option Node
  totalBlocks : Nat

/-- The search has not come to an end, has panicked, or has returned. -/
inductive Found where
  | unfinished
  | panicked
  | block (b : Nat)
deriving DecidableEq

/-- `logical_end`, a sum that overflows if the extent reaches beyond the logical blocks. -/
def ExtentLeaf.checkedEnd (m : Arith) (e : ExtentLeaf) : Option Nat :=
  if m = .checked ∧ 2 ^ 32 ≤ e.eeBlock + e.actualLen then none else some e.logicalEnd

/-- The physical block that the extent gives to a logical block, as a `u32`. -/
def ExtentLeaf.maps (e : ExtentLeaf) (logical : Nat) : Nat := (e.startPhys + (logical - e.eeBlock)) % 2 ^ 32

def ExtentLeaf.Hits (e : ExtentLeaf) (logical : Nat) : Prop := e.eeBlock ≤ logical ∧ logical < e.logicalEnd

namespace Node

def actualEntries (x : Node) : Nat := min (ehEntries x.data) (slotCap x.data)

def leaves (x : Node) : List ExtentLeaf := (List.range x.actualEntries).map fun i => leafAt x.data (slotOff i)

def IsLeaf (x : Node) : Prop := ehMagic x.data = extentMagic ∧ ehDepth x.data = 0

/-- The block to which an index node sends the search. -/
def child (logical : Nat) (x : Node) : Option Nat :=
  if ehMagic x.data ≠ extentMagic ∨ ehDepth x.data = 0 then none
  else some (indexAt x.data (slotOff (indexScan x.data logical 0 x.actualEntries 0))).leafPhys

end Node

open Node

/-- The loop over the extents of a leaf. -/
def scanLeaves (m : Arith) (logical : Nat) : List ExtentLeaf → Found
  | [] => .block 0
  | e :: rest =>
    if logical ≥ e.eeBlock then
      match e.checkedEnd m with
      | none => .panicked
      | some stop => if logical < stop then .block (e.maps logical) else scanLeaves m logical rest
    else scanLeaves m logical rest

/-- The loop of `find_physical_block` for at most `fuel` nodes. -/
def searchFrom (m : Arith) (img : Image) (logical : Nat) : Nat → Node → Found
  | 0, _ => .unfinished
  | fuel + 1, x =>
    if ehMagic x.data ≠ extentMagic then .block 0
    else if ehDepth x.data = 0 then scanLeaves m logical x.leaves
    else
      match img.read (indexAt x.data (slotOff (indexScan x.data logical 0 x.actualEntries 0))).leafPhys with
      | none => .panicked
      | some y => searchFrom m img logical fuel y

/-- `find_physical_block` with its panics. -/
def search (m : Arith) (img : Image) (fuel : Nat) (di : Inode) (logical : Nat) : Found :=
  if di.usesInlineSymlinkStorage then .block 0
  else if di.iFlags &&& extentsFl ≠ 0 then searchFrom m img logical fuel di.root
  else if logical < 12 then .block (getLe di.iBlock (logical * 4) 4)
  else .block 0

variable (img : Image)

/-- What a lookup may return. -/
def Image.Inside (r : Found) : Prop := ∃ b, r = .block b ∧ (b ≠ 0 → b < img.totalBlocks)

/-- After finitely many reads the lookup returns nothing, or a block of the filesystem. -/
def Image.SafeLookup (m : Arith) (di : Inode) (logical : Nat) : Prop :=
  ∃ fuel, img.Inside (search m img fuel di logical)

/-- The extents that are looked at end among the logical blocks, and the one that is found lies inside the filesystem. -/
def Image.LeafSound (m : Arith) (logical : Nat) (l : List ExtentLeaf) : Prop :=
  ∀ pre e post, l = pre ++ e :: post → (∀ x ∈ pre, ¬x.Hits logical) → e.eeBlock ≤ logical →
    (m = .checked → e.eeBlock + e.actualLen < 2 ^ 32) ∧
      (logical < e.logicalEnd → e.maps logical ≠ 0 → e.maps logical < img.totalBlocks)

/-- The nodes that the search meets from `root` on. -/
structure Image.NodesSound (img : Image) (m : Arith) (logical : Nat) (root : Node) : Prop where
  onDevice : ∀ k b, pointer (child logical) img.read root k = some b → (img.read b).isSome
  leaf : ∀ k x, place (child logical) img.read root k = some x → x.IsLeaf → img.LeafSound m logical x.leaves

/-- No index node is met twice. -/
def Image.Acyclic (logical : Nat) (root : Node) : Prop :=
  ∀ i j b, pointer (child logical) img.read root i = some b →
    pointer (child logical) img.read root j = some b → i = j

section

variable {img : Image} {m : Arith} {logical : Nat} {x y root : Node} {b : Nat}

theorem inside_block : img.Inside (.block b) ↔ (b ≠ 0 → b < img.totalBlocks) := by
  constructor
  · rintro ⟨_, heq, hb⟩
    cases heq
    exact hb
  · exact fun hb => ⟨b, rfl, hb⟩

theorem not_inside_panicked : ¬img.Inside .panicked := by
  rintro ⟨b, heq, -⟩
  cases heq

theorem scanLeaves_inside {l} : img.Inside (scanLeaves m logical l) ↔ img.LeafSound m logical l := by
  induction l with
  | nil =>
    refine iff_of_true (inside_block.2 fun h => absurd rfl h) ?_
    intro pre e post heq
    cases pre <;> cases heq
  | cons e rest ih =>
    -- what is asked of the first extent, and of the others if it does not cover the block
    have hcons : img.LeafSound m logical (e :: rest) ↔ (e.eeBlock ≤ logical → (m = .checked → e.eeBlock + e.actualLen < 2 ^ 32) ∧
        (logical < e.logicalEnd → e.maps logical ≠ 0 → e.maps logical < img.totalBlocks)) ∧
        (¬e.Hits logical → img.LeafSound m logical rest) := by
      constructor
      · intro h
        refine ⟨h [] e rest rfl (by simp), fun hcov pre e' post heq hpre => ?_⟩
        exact h (e :: pre) e' post (by rw [heq]; rfl) (List.forall_mem_cons.2 ⟨hcov, hpre⟩)
      · rintro ⟨hfirst, hrest⟩ pre e' post heq hpre
        cases pre with
        | nil =>
          cases heq
          exact hfirst
        | cons e₀ pre =>
          cases heq
          obtain ⟨hcov, hpre⟩ := List.forall_mem_cons.1 hpre
          exact hrest hcov pre e' post rfl hpre
    rw [hcons, scanLeaves]
    by_cases hle : e.eeBlock ≤ logical
    · rw [if_pos hle, ExtentLeaf.checkedEnd]
      by_cases hover : m = .checked ∧ 2 ^ 32 ≤ e.eeBlock + e.actualLen
      · rw [if_pos hover]
        exact iff_of_false not_inside_panicked fun h => absurd ((h.1 hle).1 hover.1) (not_lt.2 hover.2)
      · have hfits : m = .checked → e.eeBlock + e.actualLen < 2 ^ 32 := fun hm => not_le.1 fun h => hover ⟨hm, h⟩
        rw [if_neg hover]
        dsimp only
        by_cases hend : logical < e.logicalEnd
        · rw [if_pos hend, inside_block]
          exact ⟨fun hb => ⟨fun _ => ⟨hfits, fun _ => hb⟩, fun hcov => absurd ⟨hle, hend⟩ hcov⟩, fun h => (h.1 hle).2 hend⟩
        · rw [if_neg hend, ih]
          exact ⟨fun h => ⟨fun _ => ⟨hfits, fun h' => absurd h' hend⟩, fun _ => h⟩, fun h => h.2 fun hcov => hend hcov.2⟩
    · rw [if_neg hle, ih]
      exact ⟨fun h => ⟨fun h' => absurd h' hle, fun _ => h⟩, fun h => h.2 fun hcov => hle hcov.1⟩

theorem searchFrom_of_none (h : x.child logical = none) (fuel : Nat) :
    img.Inside (searchFrom m img logical (fuel + 1) x) ↔ img.NodesSound m logical x := by
  have hpointer : ∀ k, pointer (child logical) img.read x k = none :=
    fun k => pointer_none_mono (i := 0) (by simpa [pointer, place] using h) (Nat.zero_le k)
  have hplace : ∀ k y, place (child logical) img.read x k = some y → y = x := by
    intro k y hy
    cases k with
    | zero => exact (Option.some.inj hy).symm
    | succ k =>
      rw [place, show (place _ _ x k).bind _ = none from hpointer k] at hy
      cases hy
  have hsound : img.NodesSound m logical x ↔ (x.IsLeaf → img.LeafSound m logical x.leaves) := by
    refine ⟨fun hs => hs.leaf 0 x rfl, fun hs => ⟨fun k b hb => ?_, fun k y hy => ?_⟩⟩
    · rw [hpointer k] at hb
      cases hb
    · rw [hplace k y hy]
      exact hs
  rw [hsound, searchFrom]
  by_cases hmagic : ehMagic x.data = extentMagic
  · have hdepth : ehDepth x.data = 0 := by
      by_contra hd
      simp [child, hmagic, hd] at h
    rw [if_neg (not_not.2 hmagic), if_pos hdepth, scanLeaves_inside]
    exact ⟨fun hs _ => hs, fun hs => hs ⟨hmagic, hdepth⟩⟩
  · rw [if_pos hmagic]
    exact iff_of_true (inside_block.2 fun h => absurd rfl h) fun hleaf => absurd hleaf.1 hmagic

theorem searchFrom_of_some (h : x.child logical = some b) (fuel : Nat) :
    searchFrom m img logical (fuel + 1) x = (img.read b).elim .panicked (searchFrom m img logical fuel) := by
  obtain ⟨hnode, hb⟩ := Option.ite_none_left_eq_some.1 h
  rw [not_or, not_not] at hnode
  rw [searchFrom, if_neg (not_not.2 hnode.1), if_neg hnode.2, Option.some.inj hb]
  cases img.read b <;> rfl

/-- The nodes from the second on. -/
theorem nodesSound_of_some (h : x.child logical = some b) (hb : img.read b = some y) :
    img.NodesSound m logical x ↔ img.NodesSound m logical y := by
  have hplace : ∀ k, place (child logical) img.read x (k + 1) = place (child logical) img.read y k :=
    place_succ h hb
  have hpointer : ∀ k, pointer (child logical) img.read x (k + 1) = pointer (child logical) img.read y k :=
    fun k => by rw [pointer, hplace, pointer]
  constructor
  · intro hs
    exact ⟨fun k b' hb' => hs.onDevice (k + 1) b' ((hpointer k).trans hb'), fun k z hz => hs.leaf (k + 1) z ((hplace k).trans hz)⟩
  · intro hs
    refine ⟨fun k b' hb' => ?_, fun k z hz hleaf => ?_⟩
    · cases k with
      | zero =>
        obtain rfl := Option.some.inj (h.symm.trans hb')
        rw [hb]
        rfl
      | succ k => exact hs.onDevice k b' ((hpointer k).symm.trans hb')
    · cases k with
      | zero =>
        cases hz
        simp [child, hleaf.1, hleaf.2] at h
      | succ k => exact hs.leaf k z ((hplace k).symm.trans hz) hleaf

/-- A search that returns has come to the end of its walk. -/
theorem ends_of_inside {fuel} (h : img.Inside (searchFrom m img logical fuel x)) :
    img.NodesSound m logical x ∧ ∃ k, pointer (child logical) img.read x k = none := by
  induction fuel generalizing x with
  | zero =>
    obtain ⟨b, heq, -⟩ := h
    cases heq
  | succ fuel ih =>
    cases hc : x.child logical with
    | none => exact ⟨(searchFrom_of_none hc fuel).1 h, 0, hc⟩
    | some b =>
      rw [searchFrom_of_some hc] at h
      cases hb : img.read b with
      | none =>
        rw [hb] at h
        exact absurd h not_inside_panicked
      | some y =>
        rw [hb] at h
        obtain ⟨hs, k, hk⟩ := ih h
        refine ⟨(nodesSound_of_some hc hb).2 hs, k + 1, ?_⟩
        rw [pointer, place_succ hc hb]
        exact hk

theorem inside_of_ends {k} (hs : img.NodesSound m logical x)
    (hk : pointer (child logical) img.read x k = none) : img.Inside (searchFrom m img logical (k + 1) x) := by
  induction k generalizing x with
  | zero => exact (searchFrom_of_none hk 0).2 hs
  | succ k ih =>
    cases hc : x.child logical with
    | none => exact (searchFrom_of_none hc _).2 hs
    | some b =>
      obtain ⟨y, hb⟩ := Option.isSome_iff_exists.1 (hs.onDevice 0 b hc)
      rw [searchFrom_of_some hc, hb]
      refine ih ((nodesSound_of_some hc hb).1 hs) ?_
      rw [pointer, place_succ hc hb] at hk
      exact hk

theorem searchFrom_inside_iff :
    (∃ fuel, img.Inside (searchFrom m img logical fuel x)) ↔ img.NodesSound m logical x ∧ img.Acyclic logical x := by
  have hfinite : ∀ y b, child logical y = some b → b ∈ Set.Iio (2 ^ 48) := by
    intro y b hb
    obtain ⟨-, hb⟩ := Option.ite_none_left_eq_some.1 hb
    have := (indexAt y.data (slotOff (indexScan y.data logical 0 y.actualEntries 0))).eiLeafLo_lt
    have := (indexAt y.data (slotOff (indexScan y.data logical 0 y.actualEntries 0))).eiLeafHi_lt
    rw [← Option.some.inj hb, Set.mem_Iio, ExtentIndex.leafPhys]
    omega
  have hends : _ ↔ img.Acyclic logical x := ends_iff_acyclic (Set.finite_Iio _) hfinite
  constructor
  · rintro ⟨fuel, h⟩
    obtain ⟨hs, hk⟩ := ends_of_inside h
    exact ⟨hs, hends.1 hk⟩
  · rintro ⟨hs, hacyclic⟩
    obtain ⟨k, hk⟩ := hends.2 hacyclic
    exact ⟨k + 1, inside_of_ends hs hk⟩

end

/-- A lookup is safe if the inode names no block outside the filesystem directly, and the nodes of its extent tree are sound
and met once. -/
theorem safeLookup_iff (m : Arith) (di : Inode) (logical : Nat) :
    img.SafeLookup m di logical ↔ di.usesInlineSymlinkStorage = true ∨
      (di.iFlags &&& extentsFl = 0 ∧
        (logical < 12 → getLe di.iBlock (logical * 4) 4 ≠ 0 → getLe di.iBlock (logical * 4) 4 < img.totalBlocks)) ∨
      (di.iFlags &&& extentsFl ≠ 0 ∧ img.NodesSound m logical di.root ∧ img.Acyclic logical di.root) := by
  unfold Image.SafeLookup search
  by_cases hinline : di.usesInlineSymlinkStorage
  · simp [hinline, inside_block]
  · by_cases hext : di.iFlags &&& extentsFl = 0
    · by_cases hlogical : logical < 12 <;> simp [hinline, hext, hlogical, inside_block]
    · simp only [hinline, hext, ne_eq, not_false_eq_true, if_true, if_false, false_and, true_and, false_or, Bool.false_eq_true]
      exact searchFrom_inside_iff

/-- An index node with one entry, for block 5. -/
def indexToFive (size : Nat) : List UInt8 :=
  extentHeader 1 4 1 0 ++ (leBytes 4 0 ++ leBytes 4 5) ++ List.replicate (size - 20) 0

theorem length_indexToFive {size} (h : 20 ≤ size) : (indexToFive size).length = size := by
  simp only [indexToFive, extentHeader, List.length_append, length_leBytes, List.length_replicate]
  omega

def nodeToFive : Node := ⟨indexToFive blockSz, .inr (length_indexToFive (by decide))⟩

/-- Block 5 holds an index node that points to block 5. -/
def cyclicImage : Image := ⟨fun b => if b = 5 then some nodeToFive else none, 100⟩

def cyclicInode : Inode := ⟨⟨0x8000, blockSz, extentsFl, 8, indexToFive 60⟩, length_indexToFive (by decide)⟩

/-- The search comes back to block 5 for ever. -/
theorem not_safeLookup_cyclic : ¬cyclicImage.SafeLookup .checked cyclicInode 0 := by
  have hroot : cyclicInode.root.child 0 = some 5 := by decide +kernel
  have hnode : nodeToFive.child 0 = some 5 := by decide +kernel
  have hread : cyclicImage.read 5 = some nodeToFive := rfl
  rintro ⟨fuel, h⟩
  have hacyclic := (searchFrom_inside_iff.1 ⟨fuel, h⟩).2
  have hsecond : pointer (child 0) cyclicImage.read cyclicInode.root 1 = some 5 := by
    rw [pointer, place_succ hroot hread]
    exact hnode
  exact absurd (hacyclic 0 1 5 hroot hsecond) (by decide)

end ShellCore.Ext4
