import ShellCore.Ext4.ExtentTree

/-!
# The byte-level insertion computes `insTree`

By induction on the depth: the recursive call is made on a child block of the tree, its effect is
confined to the blocks below that child and to newly allocated ones, so the siblings still hold their
trees, and the node at hand is edited as `insTree` says.
-/

namespace ShellCore.Ext4

open ByteBuf BinarySearch InsResult List ExtentLeaf

/-- The blocks of a child. -/
def blocksOf {d : Nat} (c : ExtentIndex × Tree d) : List Nat :=
  c.1.eiLeafLo :: Tree.footprint d c.2

/-- A child is in its block. -/
def ChildOk (blocks : Nat → List UInt8) {d : Nat} (c : ExtentIndex × Tree d) : Prop :=
  c.1.eiLeafHi = 0 ∧ c.1.eiLeafLo ≠ 0 ∧ (blocks c.1.eiLeafLo).length = blockSz ∧
    RepTree blocks d (blocks c.1.eiLeafLo) c.2

variable {blocks blocks' : Nat → List UInt8}

/-- A tree depends on the blocks of its footprint only. -/
theorem RepTree.congr :
    ∀ {d : Nat} {data : List UInt8} {t : Tree d}, (∀ b ∈ Tree.footprint d t, blocks' b = blocks b) →
      RepTree blocks d data t → RepTree blocks' d data t := by
  intro d
  induction d with
  | zero => intro data t _ h; exact h
  | succ d ih =>
    intro data t hb h
    obtain ⟨max, cs⟩ := t
    obtain ⟨hnode, hne, hcs⟩ := h
    refine ⟨hnode, hne, ?_⟩
    intro c hc
    obtain ⟨hhi, hlo, hlen, hrep⟩ := hcs c hc
    have hsame : blocks' c.1.eiLeafLo = blocks c.1.eiLeafLo :=
      hb _ (mem_flatMap.2 ⟨c, hc, mem_cons_self⟩)
    rw [hsame]
    refine ⟨hhi, hlo, hlen, ih ?_ hrep⟩
    intro b hbc
    exact hb b (mem_flatMap.2 ⟨c, hc, mem_cons_of_mem _ hbc⟩)

theorem ChildOk.congr {d : Nat} {c : ExtentIndex × Tree d}
    (h : ChildOk blocks c) (hb : ∀ b ∈ blocksOf c, blocks' b = blocks b) : ChildOk blocks' c := by
  obtain ⟨hhi, hlo, hlen, hrep⟩ := h
  have hsame : blocks' c.1.eiLeafLo = blocks c.1.eiLeafLo := hb _ mem_cons_self
  unfold ChildOk
  rw [hsame]
  exact ⟨hhi, hlo, hlen, hrep.congr fun b hbc => hb b (mem_cons_of_mem _ hbc)⟩

/-! ## Footprints -/

/-- The block of the right part of a split. -/
def InsResult.newBlock {d : Nat} : InsResult d → Option Nat
  | .done _ => none
  | .split _ blk _ _ => some blk

/-- The blocks an insertion result occupies below its root. -/
def InsResult.footprint {d : Nat} : InsResult d → List Nat
  | .done t => Tree.footprint d t
  | .split l blk _ r => Tree.footprint d l ++ blk :: Tree.footprint d r

theorem placeEntries_footprint {α : Type} {d max xs} {mk : Nat → List α → Tree d}
    {key : α → Nat} {free free' res} {g : α → List Nat}
    (hmk : ∀ m ys, Tree.footprint d (mk m ys) = ys.flatMap g)
    (h : placeEntries max xs mk key free = .ok (res, free')) :
    ∃ used, free = used ++ free' ∧ res.footprint.Perm (xs.flatMap g ++ used) ∧
      ∀ blk ∈ res.newBlock, blk ∈ used := by
  rcases placeEntries_cases h with ⟨rfl, rfl⟩ | ⟨blk, l, k, r, rfl, rfl, rfl, -⟩
  · exact ⟨[], rfl, by simp [footprint, hmk], by simp [newBlock]⟩
  · refine ⟨[blk], rfl, ?_, by simp [newBlock]⟩
    simp only [footprint, hmk, flatMap_append, append_assoc]
    exact Perm.append_left _ (perm_append_singleton _ _).symm

theorem mkIndex_eiLeafLo {key blk} (h : blk < 2 ^ 32) : (mkIndex key blk).eiLeafLo = blk :=
  Nat.mod_eq_of_lt h

/-- The entry for a block that holds a node. -/
theorem childOk_mkIndex {d key blk} {t : Tree d} (hlt : blk < 2 ^ 32) (hpos : blk ≠ 0) (hlen : (blocks blk).length = blockSz)
    (hrep : RepTree blocks d (blocks blk) t) : ChildOk blocks (mkIndex key blk, t) := by
  unfold ChildOk
  rw [mkIndex_eiLeafLo hlt]
  exact ⟨rfl, hpos, hlen, hrep⟩

/-- An insertion uses a prefix of the free blocks for new nodes and keeps the others. -/
theorem insTree_footprint {logical physical} :
    ∀ {d : Nat} {t : Tree d} {free free' : List Nat} {res : InsResult d}, (∀ b ∈ free, b < 2 ^ 32) →
      insTree logical physical d t free = .ok (res, free') →
      ∃ used, free = used ++ free' ∧ res.footprint.Perm (Tree.footprint d t ++ used) ∧
        ∀ blk ∈ res.newBlock, blk ∈ used := by
  intro d
  induction d with
  | zero =>
    intro t free free' res _ h
    obtain ⟨max, es⟩ := t
    have hnil : ∀ ys : List ExtentLeaf, ys.flatMap (fun _ => ([] : List Nat)) = [] := by
      intro ys; simp [flatMap_eq_nil_iff]
    have hleaf : ∀ m (ys : List ExtentLeaf), Tree.footprint 0 (LeafNode.mk m ys) =
        ys.flatMap fun _ => ([] : List Nat) := by
      intro m ys; simp [Tree.footprint, hnil]
    simp only [insTree] at h
    split at h
    · split at h
      · cases h
        exact ⟨[], rfl, by simp [footprint, Tree.footprint], by simp [newBlock]⟩
      · obtain ⟨used, hfree, hperm, hblk⟩ := placeEntries_footprint hleaf h
        exact ⟨used, hfree, by simpa [Tree.footprint, hnil] using hperm, hblk⟩
    · obtain ⟨used, hfree, hperm, hblk⟩ := placeEntries_footprint hleaf h
      exact ⟨used, hfree, by simpa [Tree.footprint, hnil] using hperm, hblk⟩
  | succ d ih =>
    intro t free free' res hlt h
    obtain ⟨max, cs⟩ := t
    simp only [insTree] at h
    split at h
    · cases h
    · rename_i c hc
      have hcs := aim_split hc
      split at h
      · cases h
      · rename_i t' free₁ hchild
        cases h
        obtain ⟨used, hfree, hperm, -⟩ := ih hlt hchild
        refine ⟨used, hfree, ?_, by simp [newBlock]⟩
        simp only [footprint, Tree.footprint, perm_iff_count] at hperm ⊢
        intro b
        have hb := hperm b
        conv_rhs => rw [hcs]
        simp only [flatMap_append, flatMap_cons, count_append, count_cons] at hb ⊢
        omega
      · rename_i l blk key r free₁ hchild
        obtain ⟨used₁, hfree₁, hperm₁, hnew₁⟩ := ih hlt hchild
        obtain ⟨used₂, hfree₂, hperm₂, hnew₂⟩ := placeEntries_footprint
          (g := fun c : ExtentIndex × Tree d => c.1.eiLeafLo :: Tree.footprint d c.2) (fun _ _ => rfl) h
        have hblk : blk < 2 ^ 32 := by
          refine hlt blk ?_
          rw [hfree₁]
          exact mem_append_left _ (hnew₁ blk rfl)
        refine ⟨used₁ ++ used₂, by rw [hfree₁, hfree₂, append_assoc], hperm₂.trans ?_,
          fun b hb => mem_append_right _ (hnew₂ b hb)⟩
        simp only [footprint, Tree.footprint, perm_iff_count] at hperm₁ ⊢
        intro b
        have hb := hperm₁ b
        conv_rhs => rw [hcs]
        simp only [flatMap_append, flatMap_cons, count_append, count_cons,
          mkIndex_eiLeafLo hblk] at hb ⊢
        omega

/-! ## Storing an entry -/

section Place

variable {α : Type} {enc : α → List UInt8} {data : List UInt8} {depth max phys pos : Nat} {xs : List α} {x : α}
  {ctx : ExtentCtx} {st : ExtState}

/-- Storing an entry in a node with room. -/
theorem placeSlot_room {aimOffset} (h : NodeBytes data depth max (xs.map enc))
    (hx : (enc x).length = 12) (hpos : pos ≤ xs.length) (hroom : xs.length < max) :
    ∃ data', NodeBytes data' depth max ((xs.take pos ++ x :: xs.drop pos).map enc) ∧
      data'.length = data.length ∧
      placeSlot ctx phys data (slotOff pos) aimOffset (enc x) st =
        .ok (none, data', writeBackBlock ctx phys data' st) := by
  have hsplit : xs.map enc = (xs.take pos).map enc ++ (xs.drop pos).map enc := by
    rw [← map_append, take_append_drop]
  have hlen : ((xs.take pos).map enc).length = pos := by simp; omega
  have hent : ehEntries data = xs.length := by rw [h.ehEntries_eq, length_map]
  have hmax := h.ehMax_eq
  rw [hsplit] at h
  obtain ⟨hnode, hdlen⟩ := h.insertSlot hx (by rw [← hsplit, length_map]; exact hroom)
  rw [hlen] at hnode hdlen
  refine ⟨_, by simpa using hnode, hdlen, ?_⟩
  rw [placeSlot, hent, hmax, if_pos hroom]

/-- Storing an entry in a full node. -/
theorem placeSlot_full (h : NodeBytes data depth max (xs.map enc)) (hx : (enc x).length = 12)
    (hpos : 1 ≤ pos) (hle : pos ≤ xs.length) (hfull : xs.length = max) {insertOffset} :
    match st.free with
    | [] => placeSlot ctx phys data insertOffset (slotOff (pos - 1)) (enc x) st = .error .noFreeBlock
    | blk :: free => ∃ data' buf,
      NodeBytes data' depth max (((xs.take pos ++ x :: xs.drop pos).take ((xs.length + 1) / 2)).map enc) ∧
      NodeBytes buf depth 340 (((xs.take pos ++ x :: xs.drop pos).drop ((xs.length + 1) / 2)).map enc) ∧
      data'.length = data.length ∧ buf.length = blockSz ∧
      placeSlot ctx phys data insertOffset (slotOff (pos - 1)) (enc x) st =
        .ok (some (blk, getLe (((xs.take pos ++ x :: xs.drop pos).drop ((xs.length + 1) / 2)).map enc).flatten
            0 4), data',
          writeBackBlock ctx blk buf ((writeBackBlock ctx phys data' st).blockAdded free)) := by
  have hent : ehEntries data = xs.length := by rw [h.ehEntries_eq, length_map]
  have hmax := h.ehMax_eq
  have hcomb : NodeBytes.combinedSlots (xs.map enc) pos (enc x) = (xs.take pos ++ x :: xs.drop pos).map enc := by
    simp [NodeBytes.combinedSlots]
  have hsplit := @NodeBytes.splitNode data (enc x) depth max (xs.map enc) h pos phys ctx st
    (by rw [length_map, hfull]) hx hpos (by rw [length_map]; exact hle)
  rw [length_map, hcomb, ← map_take, ← map_drop] at hsplit
  cases hfree : st.free with
  | nil =>
    rw [hfree] at hsplit
    simp only [placeSlot, hent, hmax, hfull, lt_irrefl, if_false, hsplit]
  | cons blk free =>
    rw [hfree] at hsplit
    obtain ⟨data', buf, h1, h2, h3, h4, h5⟩ := hsplit
    refine ⟨data', buf, h1, h2, h3, h4, ?_⟩
    rw [placeSlot, hent, hmax, if_neg (by omega), h5]

end Place

/-! ## The outcome of an insertion -/

/-- The tree left in the node at hand. -/
def InsResult.tree {d : Nat} : InsResult d → Tree d
  | .done t => t
  | .split l _ _ _ => l

/-- The split reported to the parent: the new block and its first key. -/
def InsResult.newSplit {d : Nat} : InsResult d → Option (Nat × Nat)
  | .done _ => none
  | .split _ blk key _ => some (blk, key)

/-- The tree split off, with its block. -/
def InsResult.right {d : Nat} : InsResult d → Option (Nat × Tree d)
  | .done _ => none
  | .split _ blk _ r => some (blk, r)

theorem InsResult.mem_footprint_of_tree {d b} (res : InsResult d) (h : b ∈ Tree.footprint d res.tree) :
    b ∈ res.footprint := by
  cases res with
  | done t => exact h
  | split l blk key r => exact mem_append_left _ h

theorem InsResult.mem_footprint_of_right {d s} (res : InsResult d) (hs : s ∈ res.right) :
    ∀ b ∈ s.1 :: Tree.footprint d s.2, b ∈ res.footprint := by
  intro b hb
  cases res with
  | done t => cases hs
  | split l blk key r =>
    cases hs
    exact mem_append_right _ hb

/-- The insertion at block `phys` left `res` in memory, with `free'` still free, and changed nothing but
`phys`, the blocks `below` and the newly allocated ones. -/
structure Inserted {d : Nat} (st : ExtState) (phys : Nat) (data : List UInt8) (below : List Nat)
    (res : InsResult d) (free' : List Nat) (data' : List UInt8) (st' : ExtState) : Prop where
  rep : RepTree st'.blocks d data' res.tree
  length : data'.length = data.length
  stored : phys ≠ 0 → RepTree st'.blocks d (st'.blocks phys) res.tree ∧ (st'.blocks phys).length = blockSz
  right : ∀ s ∈ res.right, RepTree st'.blocks d (st'.blocks s.1) s.2 ∧ (st'.blocks s.1).length = blockSz
  free : st'.free = free'
  frame : ∀ b, b ≠ phys → b ∉ below → (b ∈ st.free → b ∈ free') → st'.blocks b = st.blocks b

/-- The code fails as the tree insertion does, or leaves its result. -/
def Outcome {d : Nat} (st : ExtState) (phys : Nat) (data : List UInt8) (below : List Nat)
    (spec : Except ExtPanic (InsResult d × List Nat))
    (code : Except ExtPanic (Option (Nat × Nat) × List UInt8 × ExtState)) : Prop :=
  match spec with
  | .error e => code = .error e
  | .ok (res, free') => ∃ data' st', code = .ok (res.newSplit, data', st') ∧
      Inserted st phys data below res free' data' st'

/-- Storing an entry has the outcome of `placeEntries`. -/
theorem placeSlot_inserted {α : Type} {d} {enc : α → List UInt8} {key : α → Nat}
    {mk : Nat → List α → Tree d} {good : (Nat → List UInt8) → α → Prop}
    (henc : ∀ y, (enc y).length = 12) (hkey : ∀ y, getLe (enc y) 0 4 = key y)
    (hmk : ∀ blocks data max ys, NodeBytes data d max (ys.map enc) → 1 ≤ max → ys ≠ [] →
      (∀ y ∈ ys, good blocks y) → RepTree blocks d data (mk max ys))
    {data : List UInt8} {max phys pos insertOffset aimOffset} {xs : List α} {x ctx}
    {st : ExtState} (h : NodeBytes data d max (xs.map enc)) (hmax : 1 ≤ max)
    (hblk : phys ≠ 0 → data.length = blockSz) (hnodup : st.free.Nodup) (hzero : ∀ b ∈ st.free, b ≠ 0)
    (hphys : phys ∉ st.free) (hpos : pos ≤ xs.length)
    (hins : xs.length < max → insertOffset = slotOff pos)
    (haim : xs.length = max → 1 ≤ pos ∧ aimOffset = slotOff (pos - 1))
    (hgood : ∀ blocks, (∀ b, b ≠ phys → b ∉ st.free → blocks b = st.blocks b) →
      ∀ y ∈ xs.take pos ++ x :: xs.drop pos, good blocks y) :
    Outcome st phys data [] (placeEntries max (xs.take pos ++ x :: xs.drop pos) mk key st.free)
      (placeSlot ctx phys data insertOffset aimOffset (enc x) st) := by
  set ys := xs.take pos ++ x :: xs.drop pos with hys
  have hylen : ys.length = xs.length + 1 := by simp [hys]; omega
  have hle : xs.length ≤ max := by simpa using h.room
  have hyne : ys ≠ [] := by intro he; rw [he] at hylen; cases hylen
  by_cases hroom : xs.length < max
  · obtain ⟨data', hnode, hlen, heq⟩ := @placeSlot_room _ enc _ _ _ phys _ _ x ctx st
      aimOffset h (henc x) hpos hroom
    have hplace : placeEntries max ys mk key st.free = .ok (.done (mk max ys), st.free) :=
      if_pos (by omega)
    rw [hplace]
    rw [← hins hroom] at heq
    refine ⟨data', _, heq, ?_⟩
    have hsame : ∀ b, b ≠ phys → (writeBackBlock ctx phys data' st).blocks b = st.blocks b :=
      fun b hb => writeBackBlock_of_ne hb
    have hall := hgood (writeBackBlock ctx phys data' st).blocks fun b hb _ => hsame b hb
    constructor
    case rep => exact hmk _ _ _ _ hnode hmax hyne hall
    case length => exact hlen
    case stored =>
      intro hp
      obtain ⟨hw, hwlen⟩ := hnode.writeBack ctx st (hlen.trans (hblk hp)) hp
      exact ⟨hmk _ _ _ _ hw hmax hyne hall, hwlen⟩
    case right => nofun
    case free => exact writeBackBlock_free _ _ _ _
    case frame => exact fun b hb _ _ => hsame b hb
  · have hfull : xs.length = max := by omega
    obtain ⟨hpos1, rfl⟩ := haim hfull
    have hsplit := @placeSlot_full _ enc _ _ _ phys _ _ x ctx st h (henc x) hpos1 hpos hfull insertOffset
    unfold placeEntries Outcome
    rw [if_neg (by omega)]
    cases hfree : st.free with
    | nil =>
      rw [hfree] at hsplit
      exact hsplit
    | cons blk free =>
      rw [hfree] at hsplit
      obtain ⟨data', buf, hl, hr, hlen, hblen, heq⟩ := hsplit
      have hmid : (xs.length + 1) / 2 = ys.length / 2 := by rw [hylen]
      rw [← hys, hmid] at hl hr heq
      rw [hfree] at hnodup hzero hphys hgood
      have hblk0 : blk ≠ 0 := hzero blk (by simp)
      have hpb : phys ≠ blk := fun he => hphys (by simp [he])
      have htake : ys.take (ys.length / 2) ≠ [] := by
        simp only [ne_eq, take_eq_nil_iff, not_or]
        exact ⟨by omega, hyne⟩
      have hdrop : ys.drop (ys.length / 2) ≠ [] := by
        simp only [ne_eq, drop_eq_nil_iff]; omega
      have hfirst : getLe ((ys.drop (ys.length / 2)).map enc).flatten 0 4 =
          ((ys.drop (ys.length / 2)).head?.map key).getD 0 := by
        obtain ⟨y, zs, hyz⟩ := exists_cons_of_ne_nil hdrop
        rw [hyz]
        simp only [map_cons, flatten_cons, head?_cons, Option.map_some, Option.getD_some]
        rw [← hkey y]
        exact getLe_append_left (by rw [henc]; decide)
      rw [hfirst] at heq
      refine ⟨data', _, heq, ?_⟩
      set st₁ := (writeBackBlock ctx phys data' st).blockAdded free with hst₁
      have hsame : ∀ b, b ≠ phys → b ≠ blk → (writeBackBlock ctx blk buf st₁).blocks b = st.blocks b := by
        intro b hb hb'
        rw [writeBackBlock_of_ne hb']
        exact writeBackBlock_of_ne hb
      have hall := hgood (writeBackBlock ctx blk buf st₁).blocks fun b hb hb' =>
        hsame b hb fun he => hb' (by simp [he])
      constructor
      case rep => exact hmk _ _ _ _ hl hmax htake fun y hy => hall y (mem_of_mem_take hy)
      case length => exact hlen
      case stored =>
        intro hp
        obtain ⟨hw, hwlen⟩ := hl.writeBack ctx st (hlen.trans (hblk hp)) hp
        rw [writeBackBlock_of_ne hpb]
        exact ⟨hmk _ _ _ _ hw hmax htake fun y hy => hall y (mem_of_mem_take hy), hwlen⟩
      case right =>
        intro s hs
        obtain rfl : (blk, mk 340 (ys.drop (ys.length / 2))) = s := by simpa [right] using hs
        obtain ⟨hw, hwlen⟩ := hr.writeBack ctx st₁ hblen hblk0
        exact ⟨hmk _ _ _ _ hw (by decide) hdrop fun y hy => hall y (mem_of_mem_drop hy), hwlen⟩
      case free => simp [hst₁]
      case frame =>
        intro b hb _ hb'
        refine hsame b hb ?_
        rintro rfl
        exact (nodup_cons.1 hnodup).1 (hb' (by simp [hfree]))

/-! ## Entries -/

theorem mkLeaf_bytes (logical physical : Nat) : (mkLeaf logical physical).bytes =
    leBytes 4 logical ++ (leBytes 2 1 ++ (leBytes 2 0 ++ leBytes 4 physical)) := by
  simp only [bytes, mkLeaf]
  rw [leBytes_mod (by decide), leBytes_mod (by decide)]

theorem mkIndex_bytes (key blk : Nat) : (mkIndex key blk).bytes = newIndex key blk := by
  simp only [ExtentIndex.bytes, mkIndex, newIndex]
  rw [leBytes_mod (by decide), leBytes_mod (by decide)]

theorem ExtentLeaf.grow_bytes (e : ExtentLeaf) : e.grow.bytes = setLe e.bytes 4 2
    (if e.eeLen > 32768 then e.actualLen % 2 ^ 16 + 1 + 32768 else e.actualLen % 2 ^ 16 + 1) := by
  simp only [bytes, grow]
  rw [leBytes_mod (by decide), setLe_append (by simp) (by simp)]

/-! ## The simulation -/

/-- The tree `t` is at block `phys` (0: in the inode), apart from the free blocks. -/
structure InsertReady (d : Nat) (t : Tree d) (phys : Nat) (data : List UInt8) (st : ExtState) : Prop where
  rep : RepTree st.blocks d data t
  here : phys ≠ 0 → st.blocks phys = data
  length : phys ≠ 0 → data.length = blockSz
  nodup : (Tree.footprint d t ++ st.free).Nodup
  phys_footprint : phys ∉ Tree.footprint d t
  phys_free : phys ∉ st.free
  free_pos : ∀ b ∈ st.free, b ≠ 0
  free_lt : ∀ b ∈ st.free, b < 2 ^ 32

variable {ctx : ExtentCtx} {logical physical : Nat}

theorem addExtentInTree_leaf {fuel phys data t} {st : ExtState}
    (hr : InsertReady 0 t phys data st) (hfuel : 0 < fuel) :
    Outcome st phys data (Tree.footprint 0 t) (insTree logical physical 0 t st.free)
      (addExtentInTree ctx logical physical fuel phys data st) := by
  obtain ⟨fuel, rfl⟩ : ∃ n, fuel = n + 1 := ⟨fuel - 1, by omega⟩
  obtain ⟨max, es⟩ := t
  obtain ⟨hnode, hmax⟩ := hr.rep
  have haim := @findAim_eq data 0 max logical _ _ _ es getLe_key hnode
  have hk := aimPos_le (es.map eeBlock) logical
  rw [length_map] at hk
  have hnodup : st.free.Nodup := (nodup_append.1 hr.nodup).2.1
  simp only [insTree, Tree.footprint, addExtentInTree, hnode.ehDepth_eq, ne_eq, not_true_eq_false, if_false]
  set k := aimPos (es.map eeBlock) logical with hkdef
  -- the new entry at position `pos`, in place or by a split
  have hplace : ∀ pos insertOffset aimOffset, pos ≤ es.length →
      (es.length < max → insertOffset = slotOff pos) →
      (es.length = max → 1 ≤ pos ∧ aimOffset = slotOff (pos - 1)) →
      Outcome st phys data [] (@placeEntries _ 0 max (es.take pos ++ mkLeaf logical physical :: es.drop pos)
          LeafNode.mk eeBlock st.free)
        (placeSlot ctx phys data insertOffset aimOffset (mkLeaf logical physical).bytes st) := by
    intro pos insertOffset aimOffset hpos hins haimoff
    exact @placeSlot_inserted _ 0 bytes _ LeafNode.mk (fun _ _ => True) length_bytes
      getLe_key (fun _ _ _ _ h h1 _ _ => ⟨h, h1⟩) _ _ _ _ _ _ _ _ _ _ hnode hmax hr.length hnodup
      hr.free_pos hr.phys_free hpos hins haimoff (fun _ _ _ _ => trivial)
  rw [← mkLeaf_bytes]
  rcases getLast?_take_aim hk with ⟨hk0, hlast⟩ | ⟨e, hk1, hlast, hpre⟩
  · rw [if_pos hk0] at haim
    rw [hlast, haim]
    simp only [Option.isSome_none, Option.any_none, Option.getD_none, Bool.false_eq_true, if_false]
    by_cases hroom : es.length < max
    · rw [if_pos hroom]
      exact hplace 0 12 12 (Nat.zero_le _) (fun _ => rfl) (fun h => by omega)
    · rw [if_neg hroom]
      exact hplace 1 12 12 (by omega) (fun h => by omega) (fun _ => ⟨le_refl _, rfl⟩)
  · have hes := aim_split hlast
    rw [if_neg (by omega)] at haim
    rw [hlast, haim]
    simp only [Option.isSome_some, Option.any_some, Option.getD_some, if_true]
    have hslots : NodeBytes data 0 max (((es.take k).dropLast).map bytes ++ e.bytes ::
        (es.drop k).map bytes) := by
      rw [← map_cons, ← map_append, ← hes]; exact hnode
    have hat := leafAt_slot hslots
    rw [length_map, hpre] at hat
    rw [hat]
    by_cases hmerge : e.mergeable logical physical = true
    · rw [if_pos hmerge, if_pos hmerge]
      have hstore := hslots.setLe_slot 4 2
        (if e.eeLen > 32768 then e.actualLen % 2 ^ 16 + 1 + 32768 else e.actualLen % 2 ^ 16 + 1) (by decide)
      rw [length_map, hpre, ← grow_bytes, ← map_cons, ← map_append] at hstore
      obtain ⟨hnew, hlen⟩ := hstore
      refine ⟨_, _, rfl, ?_⟩
      constructor
      case rep => exact ⟨hnew, hmax⟩
      case length => exact hlen
      case stored =>
        intro hp
        obtain ⟨hw, hwlen⟩ := hnew.writeBack ctx st (hlen.trans (hr.length hp)) hp
        exact ⟨⟨hw, hmax⟩, hwlen⟩
      case right => nofun
      case free => exact writeBackBlock_free _ _ _ _
      case frame => exact fun b hb _ _ => writeBackBlock_of_ne hb
    · rw [if_neg hmerge, if_neg hmerge]
      have hoff : slotOff (k - 1) + 12 = slotOff k := by unfold slotOff; omega
      rw [hoff]
      exact hplace k _ _ hk (fun _ => rfl) (fun _ => ⟨hk1, rfl⟩)

/-- The children of a node after the insertion into one of them, whatever is written to the node and to
free blocks afterwards. -/
theorem childOk_after {d phys} {A B : List (ExtentIndex × Tree d)} {c}
    {st st₁ : ExtState} {free₁ used data'} {res : InsResult d}
    (hcs : ∀ x ∈ A ++ c :: B, ChildOk st.blocks x)
    (hnodup : (A.flatMap blocksOf ++ (blocksOf c ++ B.flatMap blocksOf) ++ (used ++ free₁)).Nodup)
    (hphys : phys ∉ A.flatMap blocksOf ++ (blocksOf c ++ B.flatMap blocksOf) ++ (used ++ free₁))
    (hfree : st.free = used ++ free₁) (hperm : res.footprint.Perm (Tree.footprint d c.2 ++ used))
    (hI : Inserted st c.1.eiLeafLo (st.blocks c.1.eiLeafLo) (Tree.footprint d c.2) res free₁ data' st₁)
    {blocks : Nat → List UInt8} (hb : ∀ b, b ≠ phys → b ∉ free₁ → blocks b = st₁.blocks b) :
    (∀ x ∈ A ++ (c.1, res.tree) :: B, ChildOk blocks x) ∧
      ∀ s ∈ res.right, (blocks s.1).length = blockSz ∧ RepTree blocks d (blocks s.1) s.2 := by
  simp only [nodup_append, mem_append] at hnodup hphys
  obtain ⟨⟨-, ⟨-, -, hcB⟩, hAcB⟩, ⟨-, -, huf⟩, hrest⟩ := hnodup
  have hres : ∀ b ∈ c.1.eiLeafLo :: res.footprint, b ≠ phys ∧ b ∉ free₁ := by
    intro b hbm
    have hmem : b ∈ blocksOf c ∨ b ∈ used := by
      rcases mem_cons.1 hbm with rfl | hbm
      · exact Or.inl mem_cons_self
      · rcases mem_append.1 (hperm.mem_iff.1 hbm) with h | h
        · exact Or.inl (mem_cons_of_mem _ h)
        · exact Or.inr h
    constructor
    · rintro rfl
      exact hphys (by tauto)
    · intro hf
      rcases hmem with h | h
      · exact hrest b (by tauto) b (by tauto) rfl
      · exact huf b h b hf rfl
  -- a sibling shares no block with the child or the free blocks
  have hsib : ∀ x, x ∈ A ∨ x ∈ B → ∀ b ∈ blocksOf x, blocks b = st.blocks b := by
    intro x hx b hbx
    have hmem : b ∈ A.flatMap blocksOf ∨ b ∈ B.flatMap blocksOf :=
      hx.imp (fun h => mem_flatMap.2 ⟨x, h, hbx⟩) (fun h => mem_flatMap.2 ⟨x, h, hbx⟩)
    have hnotc : b ∉ blocksOf c := by
      intro hbc
      rcases hmem with h | h
      · exact hAcB b h b (Or.inl hbc) rfl
      · exact hcB b hbc b h rfl
    have hnotfree : b ∉ st.free := by
      rw [hfree]
      intro hf
      exact hrest b (by tauto) b (mem_append.1 hf) rfl
    have hnotphys : b ≠ phys := by
      rintro rfl
      exact hphys (by tauto)
    rw [hb b hnotphys (fun h => hnotfree (hfree ▸ mem_append_right _ h))]
    exact hI.frame b (fun h => hnotc (h ▸ mem_cons_self)) (fun h => hnotc (mem_cons_of_mem _ h))
      (fun h => absurd h hnotfree)
  constructor
  · intro x hx
    rcases mem_append.1 hx with hA | hcB'
    · exact (hcs x (mem_append_left _ hA)).congr (hsib x (Or.inl hA))
    · rcases mem_cons.1 hcB' with rfl | hB
      · obtain ⟨hhi, hlo, -, -⟩ := hcs c (by simp)
        obtain ⟨hrep, hlen⟩ := hI.stored hlo
        have hok : ChildOk st₁.blocks (c.1, res.tree) := ⟨hhi, hlo, hlen, hrep⟩
        refine hok.congr fun b hbm => ?_
        have hb' := hres b (by
          rcases mem_cons.1 hbm with h | h
          · exact h ▸ mem_cons_self
          · exact mem_cons_of_mem _ (res.mem_footprint_of_tree h))
        exact hb b hb'.1 hb'.2
      · exact (hcs x (by simp [hB])).congr (hsib x (Or.inr hB))
  · intro s hs
    obtain ⟨hrep, hlen⟩ := hI.right s hs
    have hmem : ∀ b ∈ s.1 :: Tree.footprint d s.2, b ∈ res.footprint := res.mem_footprint_of_right hs
    have hsame : ∀ b ∈ s.1 :: Tree.footprint d s.2, blocks b = st₁.blocks b := by
      intro b hbm
      have hb' := hres b (mem_cons_of_mem _ (hmem b hbm))
      exact hb b hb'.1 hb'.2
    rw [hsame s.1 mem_cons_self]
    exact ⟨hlen, hrep.congr fun b hbm => hsame b (mem_cons_of_mem _ hbm)⟩

theorem placeEntries_free {α : Type} {d max xs} {mk : Nat → List α → Tree d}
    {key : α → Nat} {free free' res}
    (h : placeEntries max xs mk key free = .ok (res, free')) : ∀ b ∈ free', b ∈ free := by
  rcases placeEntries_cases h with ⟨-, rfl⟩ | ⟨blk, l, k, r, rfl, -⟩
  · exact fun b hb => hb
  · exact fun b hb => mem_cons_of_mem _ hb

/-- An entry stored after the insertion into a child. -/
theorem Outcome.after_child {d phys lo : Nat} {st st₁ : ExtState} {data : List UInt8} {F below : List Nat}
    {free₁ : List Nat} {spec : Except ExtPanic (InsResult d × List Nat)}
    {code : Except ExtPanic (Option (Nat × Nat) × List UInt8 × ExtState)}
    (h : Outcome st₁ phys data [] spec code) (hfree : st₁.free = free₁) (hsub : ∀ b ∈ free₁, b ∈ st.free)
    (hspec : ∀ res free', spec = .ok (res, free') → ∀ b ∈ free', b ∈ free₁) (hlo : lo ∈ F)
    (hbelow : ∀ b ∈ below, b ∈ F)
    (hframe : ∀ b, b ≠ lo → b ∉ below → (b ∈ st.free → b ∈ free₁) → st₁.blocks b = st.blocks b) :
    Outcome st phys data F spec code := by
  unfold Outcome at h ⊢
  split at h
  · exact h
  · rename_i res free'
    obtain ⟨data', st', hcode, hI⟩ := h
    refine ⟨data', st', hcode, hI.rep, hI.length, hI.stored, hI.right, hI.free, ?_⟩
    intro b hb hF hbf
    rw [hI.frame b hb (by simp) fun h1 => hbf (hsub b (hfree ▸ h1))]
    exact hframe b (fun h => hF (h ▸ hlo)) (fun h => hF (hbelow b h)) fun h1 => hspec res free' rfl b (hbf h1)

/-- `add_extent_in_tree` computes `insTree`. -/
theorem addExtentInTree_sim {st : ExtState} :
    ∀ {d fuel phys : Nat} {data : List UInt8} {t : Tree d}, InsertReady d t phys data st → d < fuel →
      Outcome st phys data (Tree.footprint d t) (insTree logical physical d t st.free)
        (addExtentInTree ctx logical physical fuel phys data st) := by
  intro d
  induction d with
  | zero => intro fuel phys data t hr hfuel; exact addExtentInTree_leaf hr hfuel
  | succ d ih =>
    intro fuel phys data t hr hfuel
    obtain ⟨fuel, rfl⟩ : ∃ n, fuel = n + 1 := ⟨fuel - 1, by omega⟩
    obtain ⟨max, cs⟩ := t
    obtain ⟨hnode, hne, hcs⟩ := hr.rep
    have hcs : ∀ c ∈ cs, ChildOk st.blocks c := hcs
    have hle : cs.length ≤ max := by simpa using hnode.room
    have hpos : 0 < cs.length := length_pos_iff.2 hne
    have haim := @findAim_eq data (d + 1) max logical _ _ _ cs (fun c => c.1.getLe_key) hnode
    have hk := aimPos_le (cs.map fun c => c.1.eiBlock) logical
    rw [length_map] at hk
    have hdepth : ehDepth data ≠ 0 := by rw [hnode.ehDepth_eq]; omega
    simp only [insTree, addExtentInTree]
    rw [if_pos hdepth]
    set k := aimPos (cs.map fun c => c.1.eiBlock) logical
    rcases getLast?_take_aim hk with ⟨hk0, hlast⟩ | ⟨c, hk1, hlast, hpre⟩
    · rw [if_pos hk0] at haim
      rw [hlast, haim]
      rfl
    · rw [if_neg (by omega)] at haim
      have hsplit := aim_split hlast
      rw [hlast, haim]
      have hlenA := hpre
      set A := (cs.take k).dropLast
      set B := cs.drop k
      have hmem : c ∈ cs := by rw [hsplit]; simp
      obtain ⟨hhi, hlo, hclen, hcrep⟩ := hcs c hmem
      have hat := @indexAt_slot data (d + 1) max (A.map fun c => c.1.bytes) (B.map fun c => c.1.bytes) c.1
        (by rw [← map_cons (f := fun c : ExtentIndex × Tree d => c.1.bytes), ← map_append, ← hsplit]
            exact hnode)
      rw [length_map, hlenA] at hat
      have hnext : c.1.leafPhys = c.1.eiLeafLo := by simp [ExtentIndex.leafPhys, hhi]
      simp only [hat, hnext, Nat.mod_eq_of_lt c.1.eiLeafLo_lt]
      have hF : Tree.footprint (d + 1) (IndexNode.mk max cs) =
          A.flatMap blocksOf ++ (blocksOf c ++ B.flatMap blocksOf) := by
        have hflat : Tree.footprint (d + 1) (IndexNode.mk max cs) = cs.flatMap blocksOf := rfl
        rw [hflat]
        conv_lhs => rw [hsplit]
        rw [flatMap_append, flatMap_cons]
      have hnodup := hr.nodup
      have hphysF := hr.phys_footprint
      rw [hF] at hnodup hphysF ⊢
      have hchild : InsertReady d c.2 c.1.eiLeafLo (st.blocks c.1.eiLeafLo) st := by
        simp only [nodup_append, mem_append] at hnodup
        obtain ⟨⟨-, ⟨hcn, -, -⟩, -⟩, hfn, hrest⟩ := hnodup
        constructor
        case rep => exact hcrep
        case here => exact fun _ => rfl
        case length => exact fun _ => hclen
        case nodup =>
          refine nodup_append.2 ⟨(nodup_cons.1 hcn).2, hfn, ?_⟩
          intro a ha b hb
          exact hrest a (Or.inr (Or.inl (mem_cons_of_mem _ ha))) b hb
        case phys_footprint => exact (nodup_cons.1 hcn).1
        case phys_free => exact fun hf => hrest _ (Or.inr (Or.inl mem_cons_self)) _ hf rfl
        case free_pos => exact hr.free_pos
        case free_lt => exact hr.free_lt
      have hout := ih hchild (by omega : d < fuel)
      cases hins : insTree logical physical d c.2 st.free with
      | error e =>
        rw [hins] at hout
        have hcode : addExtentInTree ctx logical physical fuel c.1.eiLeafLo (st.blocks c.1.eiLeafLo) st =
          .error e := hout
        rw [hcode]
        rfl
      | ok r =>
        obtain ⟨res, free₁⟩ := r
        rw [hins] at hout
        obtain ⟨data₁, st₁, hcode, hI⟩ := hout
        obtain ⟨used, hfree, hperm, hblk⟩ := insTree_footprint hr.free_lt hins
        rw [hcode]
        rw [hfree] at hnodup
        have hphys : phys ∉ A.flatMap blocksOf ++ (blocksOf c ++ B.flatMap blocksOf) ++ (used ++ free₁) := by
          rw [← hfree, mem_append, not_or]
          exact ⟨hphysF, hr.phys_free⟩
        have hcs' : ∀ x ∈ A ++ c :: B, ChildOk st.blocks x := fun x hx => hcs x (hsplit ▸ hx)
        have hsub : ∀ b ∈ free₁, b ∈ st.free := fun b hb => hfree ▸ mem_append_right _ hb
        have hloF : c.1.eiLeafLo ∈ A.flatMap blocksOf ++ (blocksOf c ++ B.flatMap blocksOf) := by
          simp [blocksOf]
        have hbelow : ∀ b ∈ Tree.footprint d c.2, b ∈ A.flatMap blocksOf ++ (blocksOf c ++ B.flatMap blocksOf) := by
          intro b hb; simp [blocksOf, hb]
        cases res with
        | done t =>
          have hslots : (A ++ (c.1, t) :: B).map (fun c => c.1.bytes) = cs.map fun c => c.1.bytes := by
            rw [hsplit]; simp
          have hrep : RepTree st₁.blocks (d + 1) data (IndexNode.mk max (A ++ (c.1, t) :: B)) :=
            ⟨hslots ▸ hnode, by simp, (childOk_after hcs' hnodup hphys hfree hperm hI fun _ _ _ => rfl).1⟩
          have hkeep : phys ≠ 0 → st₁.blocks phys = data := by
            intro hp
            rw [hI.frame phys (fun h => hphysF (h ▸ hloF)) (fun h => hphysF (hbelow _ h))
              fun h => absurd h hr.phys_free]
            exact hr.here hp
          refine ⟨data, st₁, rfl, hrep, rfl, ?_, by simp [right], hI.free, ?_⟩
          · intro hp
            rw [hkeep hp]
            exact ⟨hrep, hr.length hp⟩
          · intro b _ hF hbf
            exact hI.frame b (fun h => hF (h ▸ hloF)) (fun h => hF (hbelow b h)) hbf
        | split l blk key r =>
          have hblkmem : blk ∈ st.free := hfree ▸ mem_append_left _ (hblk blk rfl)
          have hslots : (A ++ (c.1, l) :: B).map (fun c => c.1.bytes) = cs.map fun c => c.1.bytes := by
            rw [hsplit]; simp
          have htake : (A ++ (c.1, l) :: B).take k = A ++ [(c.1, l)] := by
            rw [take_append, hlenA, take_of_length_le (by omega)]
            simp [show k - (k - 1) = 1 by omega]
          have hdrop : (A ++ (c.1, l) :: B).drop k = B := by
            rw [drop_append, hlenA, drop_eq_nil_of_le (by omega)]
            simp [show k - (k - 1) = 1 by omega]
          have hoff : slotOff (k - 1) + 12 = slotOff k := by unfold slotOff; omega
          have hlen' : (A ++ (c.1, l) :: B).length = cs.length := by rw [hsplit]; simp
          have hplace := @placeSlot_inserted _ (d + 1) (fun c : ExtentIndex × Tree d => c.1.bytes)
            (fun c => c.1.eiBlock) IndexNode.mk (fun blocks c => ChildOk blocks c) (fun c => c.1.length_bytes)
            (fun c => c.1.getLe_key) (fun _ _ _ _ h _ hne hok => ⟨h, hne, hok⟩) data max phys k (slotOff k)
            (slotOff (k - 1)) (A ++ (c.1, l) :: B) (mkIndex key blk, r) ctx st₁ (hslots ▸ hnode) (by omega)
            hr.length (hI.free ▸ (nodup_append.1 (nodup_append.1 hnodup).2.1).2.1)
            (fun b hb => hr.free_pos b (hsub b (hI.free ▸ hb)))
            (fun h => hr.phys_free (hsub phys (hI.free ▸ h))) (by omega) (fun _ => rfl)
            (fun _ => ⟨hk1, rfl⟩) ?_
          · simp only [newSplit]
            rw [htake, hdrop, hI.free, mkIndex_bytes] at hplace
            rw [hoff]
            simp only [append_assoc, cons_append, nil_append] at hplace
            exact hplace.after_child hI.free hsub (fun res free' => placeEntries_free) hloF hbelow hI.frame
          · intro blocks hb y hy
            obtain ⟨hold, hnew⟩ := @childOk_after _ phys A B c st st₁ _ _ _ _ hcs' hnodup hphys hfree hperm hI
              blocks (fun b hbp hbf => hb b hbp (hI.free.symm ▸ hbf))
            obtain ⟨hrlen, hrrep⟩ := hnew (blk, r) rfl
            rw [htake, hdrop] at hy
            by_cases hyn : y = (mkIndex key blk, r)
            · subst hyn
              exact childOk_mkIndex (hr.free_lt blk hblkmem) (hr.free_pos blk hblkmem) hrlen hrrep
            · refine hold y ?_
              simp only [append_assoc, cons_append, nil_append, mem_append,
                mem_cons] at hy ⊢
              tauto

end ShellCore.Ext4
