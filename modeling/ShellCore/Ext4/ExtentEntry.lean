import ShellCore.Ext4.ExtentInsert
import ShellCore.Ext4.ExtentPlan

/-!
# Adding a block to a file

`add_extent_entry` inserts into the tree whose root is in the inode and moves a root that split to a
block of its own. The last section says exactly when the insertion is correct.
-/

namespace ShellCore.Ext4

open List hiding flatten

open ByteBuf Ext4.Tree

/-! ## The root -/

/-- The node with another capacity. -/
def Tree.withMax (m : Nat) : (d : Nat) → Tree d → Tree d
  | 0, ⟨_, es⟩ => LeafNode.mk m es
  | _ + 1, ⟨_, cs⟩ => IndexNode.mk m cs

/-- The insertion with the root upgrade. -/
def insRoot (logical physical d : Nat) (t : Tree d) (free : List Nat) :
    Except ExtPanic ((Σ d, Tree d) × List Nat) :=
  match insTree logical physical d t free with
  | .error e => .error e
  | .ok (.done t, free) => .ok (⟨d, t⟩, free)
  | .ok (.split l blk key r, free) =>
    match free with
    | [] => .error .noFreeBlock
    | leftBlk :: free =>
      .ok (⟨d + 1, IndexNode.mk 4 [(mkIndex ((firstKey d l).getD 0) leftBlk, withMax 340 d l),
        (mkIndex key blk, r)]⟩, free)

/-- A node's entries can be stored in another node. -/
theorem RepTree.node {blocks : Nat → List UInt8} {d data t}
    (h : RepTree blocks d data t) :
    ∃ max slots, NodeBytes data d max slots ∧
      (∀ k, firstKey d t = some k → slots ≠ [] ∧ getLe slots.flatten 0 4 = k) ∧
      ∀ data' m, 1 ≤ m → NodeBytes data' d m slots → RepTree blocks d data' (withMax m d t) := by
  have hfirst : ∀ {α : Type} {xs : List α} {enc : α → List UInt8} {key : α → Nat} {k : Nat},
      (∀ x, getLe (enc x) 0 4 = key x) → (∀ x, (enc x).length = 12) → xs.head?.map key = some k →
      xs.map enc ≠ [] ∧ getLe (xs.map enc).flatten 0 4 = k := by
    intro α xs enc key k hkey henc hk
    cases xs with
    | nil => cases hk
    | cons x xs =>
      simp only [head?_cons, Option.map_some, Option.some.injEq] at hk
      refine ⟨by simp, ?_⟩
      rw [map_cons, flatten_cons, getLe_append_left (by rw [henc]; decide), hkey, hk]
  cases d with
  | zero =>
    obtain ⟨max, es⟩ := t
    obtain ⟨hnode, -⟩ := h
    refine ⟨max, _, hnode, ?_, fun data' m hm h' => ⟨h', hm⟩⟩
    intro k hk
    exact hfirst ExtentLeaf.getLe_key ExtentLeaf.length_bytes hk
  | succ d =>
    obtain ⟨max, cs⟩ := t
    obtain ⟨hnode, hne, hcs⟩ := h
    refine ⟨max, _, hnode, ?_, fun data' m _ h' => ⟨h', hne, hcs⟩⟩
    intro k hk
    exact hfirst (fun c => c.1.getLe_key) (fun c => c.1.length_bytes) hk

theorem RepTree.sized {blocks : Nat → List UInt8} :
    ∀ {d : Nat} {data : List UInt8} {t : Tree d}, RepTree blocks d data t → Sized d t
  | 0, _, ⟨_, _⟩, ⟨hnode, hmax⟩ => ⟨by simpa using hnode.room, hmax⟩
  | _ + 1, _, ⟨_, _⟩, ⟨hnode, hne, hcs⟩ =>
    ⟨hne, by simpa using hnode.room, fun c hc => (hcs c hc).2.2.2.sized⟩

theorem Tree.footprint_withMax (m : Nat) : ∀ (d : Nat) (t : Tree d),
    footprint d (withMax m d t) = footprint d t
  | 0, ⟨_, _⟩ => rfl
  | _ + 1, ⟨_, _⟩ => rfl

theorem Tree.flatten_withMax (m : Nat) : ∀ (d : Nat) (t : Tree d),
    flatten d (withMax m d t) = flatten d t
  | 0, ⟨_, _⟩ => rfl
  | _ + 1, ⟨_, _⟩ => rfl

theorem Tree.ordered_withMax {m hi lo} : ∀ {d : Nat} {t : Tree d},
    Ordered d hi lo (withMax m d t) ↔ Ordered d hi lo t
  | 0, ⟨_, _⟩ => Iff.rfl
  | _ + 1, ⟨_, _⟩ => Iff.rfl

variable {ctx : ExtentCtx} {logical physical : Nat}

/-- An inode after an insertion. -/
structure EntryAdded (di : InodeDisk) (t' : Σ d, Tree d) (free' : List Nat) (di' : InodeDisk)
    (st' : ExtState) : Prop where
  rep : RepTree st'.blocks t'.1 di'.iBlock t'.2
  root : di'.iBlock.length = 60
  free : st'.free = free'
  flags : di'.iFlags = di.iFlags
  blocks_pos : di'.iBlocksLo ≠ 0

/-- `add_extent_entry` computes `insRoot`. -/
theorem addExtentEntry_sim {d t di} {blocks : Nat → List UInt8}
    {free} (hr : InsertReady d t 0 di.iBlock ⟨blocks, free, 0⟩) (hroot : di.iBlock.length = 60)
    (hd : d + 1 < 2 ^ 16) :
    match insRoot logical physical d t free with
    | .error e => addExtentEntry ctx di blocks free logical physical = .error e
    | .ok (t', free') => ∃ di' st', addExtentEntry ctx di blocks free logical physical =
        .ok (some physical, di', st') ∧ EntryAdded di t' free' di' st' := by
  have hmagic : ehMagic di.iBlock = extentMagic := by
    obtain ⟨max, slots, hnode, -⟩ := hr.rep.node
    exact hnode.ehMagic_eq
  have hsim := @addExtentInTree_sim ctx logical physical _ d (2 ^ 16) 0 di.iBlock t hr (by omega)
  unfold insRoot addExtentEntry
  simp only [hmagic, ne_eq, not_true_eq_false, if_false]
  cases hins : insTree logical physical d t free with
  | error e =>
    rw [hins] at hsim
    have hcode : addExtentInTree ctx logical physical (2 ^ 16) 0 di.iBlock ⟨blocks, free, 0⟩ = .error e := hsim
    rw [hcode]
  | ok q =>
    obtain ⟨res, free₁⟩ := q
    rw [hins] at hsim
    obtain ⟨data', st', hcode, hI⟩ := hsim
    rw [hcode]
    have hpos : ∀ m : Nat, min (di.iBlocksLo + (1 + m) * (blockSz / 512)) (2 ^ 32 - 1) ≠ 0 := by
      intro m
      rw [show blockSz / 512 = 8 from rfl]
      omega
    cases res with
    | done t' => exact ⟨_, st', rfl, hI.rep, hI.length.trans hroot, hI.free, rfl, hpos _⟩
    | split l blk key r =>
      obtain ⟨k, hk⟩ := insTree_firstKey hr.rep.sized hins
      obtain ⟨max, slots, hnode, hslots, hstore⟩ := hI.rep.node
      obtain ⟨hne, hkey⟩ := hslots k hk
      have hgrow := hnode.growRoot ctx st' blk key (hI.length.trans hroot) hne hd
      rw [hI.free] at hgrow
      simp only [InsResult.newSplit]
      cases free₁ with
      | nil =>
        simp only at hgrow
        rw [hgrow]
      | cons leftBlk free₂ =>
        obtain ⟨root, buf, hroot', hbuf, hlen, hblen, heq⟩ := hgrow
        rw [heq]
        refine ⟨_, _, rfl, ?_, hlen, by simp, rfl, hpos _⟩
        obtain ⟨used, hfree, hperm, hblk⟩ := insTree_footprint hr.free_lt hins
        replace hfree : free = used ++ leftBlk :: free₂ := hfree
        have hused : ∀ b ∈ used, b ∈ free := fun b hb => hfree ▸ mem_append_left _ hb
        have hleft : leftBlk ∈ free := by rw [hfree]; simp
        -- the block of the left half is none of the tree's
        have hfresh : ∀ b ∈ footprint d l ++ blk :: footprint d r, b ≠ leftBlk := by
          rintro b hb rfl
          have hnodup := hr.nodup
          simp only at hnodup
          rw [hfree, ← append_assoc, nodup_append] at hnodup
          exact hnodup.2.2 b (hperm.mem_iff.1 hb) b (by simp) rfl
        set st₂ := writeBackBlock ctx leftBlk buf (st'.blockAdded free₂) with hst₂
        have hsame : ∀ b ∈ footprint d l ++ blk :: footprint d r, st₂.blocks b = st'.blocks b :=
          fun b hb => writeBackBlock_of_ne (hfresh b hb)
        obtain ⟨hw, hwlen⟩ := hbuf.writeBack ctx (st'.blockAdded free₂) hblen (hr.free_pos leftBlk hleft)
        rw [← hst₂] at hw hwlen
        have hl : ChildOk st₂.blocks (mkIndex ((firstKey d l).getD 0) leftBlk, withMax 340 d l) := by
          refine childOk_mkIndex (hr.free_lt leftBlk hleft) (hr.free_pos leftBlk hleft) hwlen ?_
          refine (hstore _ 340 (by decide) hw).congr fun b hb => ?_
          rw [footprint_withMax] at hb
          exact hsame b (mem_append_left _ hb)
        have hrt : ChildOk st₂.blocks (mkIndex key blk, r) := by
          have hmem : blk ∈ free := hused blk (hblk blk rfl)
          obtain ⟨hrep, hrlen⟩ := hI.right (blk, r) rfl
          have hok := @childOk_mkIndex st'.blocks d key blk r (hr.free_lt blk hmem) (hr.free_pos blk hmem) hrlen hrep
          refine hok.congr fun b hb => hsame b (mem_append_right _ ?_)
          rw [blocksOf, mkIndex_eiLeafLo (hr.free_lt blk hmem)] at hb
          exact hb
        refine ⟨?_, by simp, ?_⟩
        · simp only [map_cons, map_nil, mkIndex_bytes, hk, Option.getD_some]
          rw [← hkey]
          exact hroot'
        · exact forall_mem_cons.2 ⟨hl, forall_mem_singleton.2 hrt⟩

/-! ## Order and allocation at the root -/

/-- The blocks an insertion allocates: one for each node that splits, and one more for a root that does. -/
def blocksNeeded (logical physical d : Nat) (t : Tree d) : Nat :=
  if splitsNeeded logical physical d t = d + 1 then d + 2 else splitsNeeded logical physical d t

/-- What `insRoot` leaves. -/
structure RootSpec (logical physical d : Nat) (t : Tree d) (free : List Nat) (t' : Σ d, Tree d)
    (free' : List Nat) : Prop where
  enough : blocksNeeded logical physical d t ≤ free.length
  depth : t'.1 ≤ d + 1
  extended : Extended logical physical (flatten d t) (flatten t'.1 t'.2)
  ordered : Insertable logical d t → Ordered t'.1 (2 ^ 32) 0 t'.2
  misplaced : ¬Insertable logical d t →
    ∃ xs e ys, flatten t'.1 t'.2 = xs ++ e :: mkLeaf logical physical :: ys ∧ logical < e.eeBlock
  footprint : ∃ used, free = used ++ free' ∧ (footprint t'.1 t'.2).Perm (footprint d t ++ used)

/-- The outcome of an insertion at the root. -/
theorem insRoot_outcome {d t free} (ht : Ordered d (2 ^ 32) 0 t)
    (hs : Sized d t) (hl : logical < 2 ^ 32) (hun : ∀ e ∈ flatten d t, ¬e.Covers logical)
    (hlt : ∀ b ∈ free, b < 2 ^ 32) :
    match insRoot logical physical d t free with
    | .error _ => ¬Insertable logical d t ∨ free.length < blocksNeeded logical physical d t
    | .ok (t', free') => RootSpec logical physical d t free t' free' := by
  have hout := @insTree_outcome logical physical d _ _ t free ht hs (Nat.zero_le _) hl le_rfl hun
  unfold insRoot
  cases hins : insTree logical physical d t free with
  | error e =>
    rw [hins] at hout
    rcases hout with h | h
    · exact Or.inl h
    · have hle := splitsNeeded_le logical physical d t
      refine Or.inr ?_
      unfold blocksNeeded
      split <;> omega
  | ok q =>
    obtain ⟨res, free₁⟩ := q
    obtain ⟨used, hfree, hperm, hblk⟩ := insTree_footprint hlt hins
    rw [hins] at hout
    have hspec : InsertSpec logical physical d (2 ^ 32) 0 t free res free₁ := hout
    have hrest := hspec.rest
    have henough := hspec.enough
    cases res with
    | done t' =>
      have hnot : ¬splitsNeeded logical physical d t = d + 1 := fun h => hspec.split.2 h
      refine ⟨?_, Nat.le_succ d, hspec.extended, hspec.ordered, hspec.misplaced, used, hfree, hperm⟩
      rw [blocksNeeded, if_neg hnot]
      exact henough
    | split l blk key r =>
      have hsplit : splitsNeeded logical physical d t = d + 1 := hspec.split.1 trivial
      rw [hsplit] at hrest henough
      have hneed : blocksNeeded logical physical d t = d + 2 := if_pos hsplit
      cases free₁ with
      | nil =>
        have := congrArg length hrest
        rw [length_nil, List.length_drop] at this
        exact Or.inr (by omega)
      | cons leftBlk free₂ =>
        have hlen := congrArg length hrest
        rw [List.length_cons, List.length_drop] at hlen
        have hflat : ∀ i, flatten (d + 1) (IndexNode.mk 4 [(i, withMax 340 d l), (mkIndex key blk, r)]) =
            flatten d l ++ flatten d r := by
          intro i
          simp [flatten, flatten_withMax]
        constructor
        case enough => omega
        case depth => exact le_rfl
        case extended => rw [hflat]; exact hspec.extended
        case ordered =>
          intro h
          obtain ⟨k, hk, -, hk1, hk2, hk3, hol, hor⟩ := hspec.ordered h
          have hkeyl : (mkIndex ((firstKey d l).getD 0) leftBlk).eiBlock = k := by
            rw [hk]
            exact Nat.mod_eq_of_lt (lt_trans hk1 hk3)
          have hkeyr : (mkIndex key blk).eiBlock = key := Nat.mod_eq_of_lt hk3
          refine ⟨key, Nat.zero_le _, ?_, ?_, 2 ^ 32, ?_, ?_, ?_, le_rfl⟩
          · rw [hkeyl]; exact hk1
          · rw [hkeyl]; exact ordered_withMax.2 hol
          · exact hkeyr.ge
          · rw [hkeyr]; exact hk2
          · rw [hkeyr]; exact hor
        case misplaced =>
          intro h
          rw [hflat]
          exact hspec.misplaced h
        case footprint =>
          have hlo : (mkIndex key blk).eiLeafLo = blk :=
            mkIndex_eiLeafLo (hlt blk (hfree ▸ mem_append_left _ (hblk blk rfl)))
          have hlo' : (mkIndex ((firstKey d l).getD 0) leftBlk).eiLeafLo = leftBlk :=
            mkIndex_eiLeafLo (hlt leftBlk (by rw [hfree]; simp))
          refine ⟨used ++ [leftBlk], by rw [hfree]; simp, ?_⟩
          have hfoot : footprint (d + 1) (IndexNode.mk 4
              [(mkIndex ((firstKey d l).getD 0) leftBlk, withMax 340 d l), (mkIndex key blk, r)]) =
              leftBlk :: (footprint d l ++ blk :: footprint d r) := by
            simp [footprint, hlo, hlo', footprint_withMax]
          rw [hfoot, ← append_assoc]
          have hperm : (footprint d l ++ blk :: footprint d r).Perm (footprint d t ++ used) := hperm
          exact (hperm.cons leftBlk).trans (perm_append_singleton _ _).symm

/-! ## Well-formed files -/

theorem RepTree.footprint_pos {blocks : Nat → List UInt8} :
    ∀ {d : Nat} {data : List UInt8} {t : Tree d}, RepTree blocks d data t → 0 ∉ footprint d t := by
  intro d
  induction d with
  | zero => intro data t _ h; exact absurd h (by simp [footprint])
  | succ d ih =>
    intro data t h
    obtain ⟨max, cs⟩ := t
    obtain ⟨-, -, hcs⟩ := h
    intro hmem
    obtain ⟨c, hc, hb⟩ := mem_flatMap.1 hmem
    obtain ⟨-, hlo, -, hrep⟩ := hcs c hc
    rcases mem_cons.1 hb with h0 | hb
    · exact hlo h0.symm
    · exact ih hrep hb

/-- The entries of a node are determined by its bytes. -/
theorem slots_unique {α : Type} {enc : α → List UInt8} {dec : List UInt8 → Nat → α} {data depth max max'} {xs ys : List α}
    (hdec : ∀ m (pre post : List (List UInt8)) x, NodeBytes data depth m (pre ++ enc x :: post) →
      dec data (slotOff pre.length) = x)
    (hx : NodeBytes data depth max (xs.map enc)) (hy : NodeBytes data depth max' (ys.map enc)) : xs = ys := by
  have hlen : xs.length = ys.length := by
    have h1 := hx.ehEntries_eq
    have h2 := hy.ehEntries_eq
    simp only [length_map] at h1 h2
    omega
  have hat : ∀ m (zs : List α), NodeBytes data depth m (zs.map enc) → ∀ i (hi : i < zs.length),
      dec data (slotOff i) = zs[i] := by
    intro m zs hz i hi
    have hsplit : zs.map enc = (zs.take i).map enc ++ enc zs[i] :: (zs.drop (i + 1)).map enc := by
      rw [← map_cons, ← map_append, getElem_cons_drop, take_append_drop]
    rw [hsplit] at hz
    have h := hdec m _ _ _ hz
    rwa [length_map, length_take, Nat.min_eq_left (by omega)] at h
  refine ext_getElem hlen fun i h1 h2 => ?_
  rw [← hat max xs hx i h1, hat max' ys hy i h2]

/-- The bytes determine the extents of a tree. -/
theorem RepTree.flatten_unique {blocks : Nat → List UInt8} :
    ∀ {d d' : Nat} {data : List UInt8} {t : Tree d} {t' : Tree d'}, RepTree blocks d data t →
      RepTree blocks d' data t' → flatten d t = flatten d' t' := by
  intro d
  induction d with
  | zero =>
    intro d' data t t' h h'
    obtain ⟨max, es⟩ := t
    obtain ⟨hnode, -⟩ := h
    cases d' with
    | zero =>
      obtain ⟨max', es'⟩ := t'
      obtain ⟨hnode', -⟩ := h'
      exact @slots_unique _ _ leafAt _ _ _ _ _ _ (fun m pre post x hx => leafAt_slot hx) hnode hnode'
    | succ d' =>
      obtain ⟨max', cs'⟩ := t'
      have h1 := hnode.ehDepth_eq
      rw [h'.1.ehDepth_eq] at h1
      omega
  | succ d ih =>
    intro d' data t t' h h'
    obtain ⟨max, cs⟩ := t
    obtain ⟨hnode, -, hcs⟩ := h
    cases d' with
    | zero =>
      obtain ⟨max', es'⟩ := t'
      have h1 := hnode.ehDepth_eq
      rw [h'.1.ehDepth_eq] at h1
      omega
    | succ d' =>
      obtain ⟨max', cs'⟩ := t'
      obtain ⟨hnode', -, hcs'⟩ := h'
      have hdepth : d + 1 = d' + 1 := by rw [← hnode.ehDepth_eq, hnode'.ehDepth_eq]
      obtain rfl : d = d' := by omega
      have hfst : cs.map Prod.fst = cs'.map Prod.fst := by
        have h1 : NodeBytes data (d + 1) max ((cs.map Prod.fst).map ExtentIndex.bytes) := by
          rw [map_map]; exact hnode
        have h2 : NodeBytes data (d + 1) max' ((cs'.map Prod.fst).map ExtentIndex.bytes) := by
          rw [map_map]; exact hnode'
        exact @slots_unique _ _ indexAt _ _ _ _ _ _ (fun m pre post x hx => indexAt_slot hx) h1 h2
      show cs.flatMap _ = cs'.flatMap _
      clear hnode hnode' hdepth
      induction cs generalizing cs' with
      | nil =>
        cases cs' with
        | nil => rfl
        | cons c' cs' => cases hfst
      | cons c cs ihcs =>
        cases cs' with
        | nil => cases hfst
        | cons c' cs' =>
          rw [map_cons, map_cons, cons.injEq] at hfst
          rw [flatMap_cons, flatMap_cons]
          obtain ⟨-, -, -, h1⟩ := hcs c (by simp)
          obtain ⟨-, -, -, h2⟩ := hcs' c' (by simp)
          rw [← hfst.1] at h2
          rw [ih h1 h2, ihcs (fun x hx => hcs x (mem_cons_of_mem _ hx)) cs'
            (fun x hx => hcs' x (mem_cons_of_mem _ hx)) hfst.2]

/-- The tree `t` of depth `d` is stored under the inode `di`, in order, in blocks of its own; `free` are
the blocks that allocations return. -/
structure WellFormed (blocks : Nat → List UInt8) (free : List Nat) (di : InodeDisk) (d : Nat) (t : Tree d) :
    Prop where
  rep : RepTree blocks d di.iBlock t
  root : di.iBlock.length = 60
  ordered : Ordered d (2 ^ 32) 0 t
  nodup : (footprint d t ++ free).Nodup
  free_pos : ∀ b ∈ free, b ≠ 0
  free_lt : ∀ b ∈ free, b < 2 ^ 32
  extents : di.iFlags &&& extentsFl ≠ 0
  not_inline : di.usesInlineSymlinkStorage = false

namespace WellFormed

variable {blocks : Nat → List UInt8} {free : List Nat} {di : InodeDisk} {d : Nat} {t : Tree d}

theorem ready (h : WellFormed blocks free di d t) : InsertReady d t 0 di.iBlock ⟨blocks, free, 0⟩ where
  rep := h.rep
  here := fun h0 => absurd rfl h0
  length := fun h0 => absurd rfl h0
  nodup := h.nodup
  phys_footprint := h.rep.footprint_pos
  phys_free := fun h0 => h.free_pos 0 h0 rfl
  free_pos := h.free_pos
  free_lt := h.free_lt

/-- A lookup scans the extents. -/
theorem findPhysicalBlock_eq (h : WellFormed blocks free di d t) (l : Nat) :
    findPhysicalBlock (2 ^ 16) blocks di l = some (leafLookup l (flatten d t)) := by
  have hd : d < 2 ^ 16 := by
    obtain ⟨max, slots, hnode, -⟩ := h.rep.node
    exact hnode.depth_lt
  unfold findPhysicalBlock
  rw [if_neg (by rw [h.not_inline]; decide), if_pos h.extents, findLoop_eq d _ _ t h.rep hd,
    findTree_flatten h.ordered]

end WellFormed

/-- The insertion returns, leaves a well-formed tree, maps the new block and keeps every other mapping. -/
def InsertionCorrect (ctx : ExtentCtx) (di : InodeDisk) (blocks : Nat → List UInt8) (free : List Nat)
    (logical physical : Nat) : Prop :=
  ∃ di' st', addExtentEntry ctx di blocks free logical physical = .ok (some physical, di', st') ∧
    (∃ d' t', WellFormed st'.blocks st'.free di' d' t') ∧
    findPhysicalBlock (2 ^ 16) st'.blocks di' logical = some physical ∧
    ∀ l < 2 ^ 32, l ≠ logical →
      findPhysicalBlock (2 ^ 16) st'.blocks di' l = findPhysicalBlock (2 ^ 16) blocks di l

/-- An insertion that goes through leaves a well-formed tree if the tree in memory is ordered. -/
theorem EntryAdded.wellFormed {blocks : Nat → List UInt8} {free free' di di' d t t' st'} (hwf : WellFormed blocks free di d t)
    (h : EntryAdded di t' free' di' st') (hspec : RootSpec logical physical d t free t' free')
    (hord : Ordered t'.1 (2 ^ 32) 0 t'.2) : WellFormed st'.blocks st'.free di' t'.1 t'.2 := by
  obtain ⟨used, hfree, hperm⟩ := hspec.footprint
  have hsub : ∀ b ∈ st'.free, b ∈ free := by
    intro b hb
    rw [h.free] at hb
    rw [hfree]
    exact mem_append_right _ hb
  constructor
  case rep => exact h.rep
  case root => exact h.root
  case ordered => exact hord
  case nodup =>
    have hnodup := hwf.nodup
    rw [hfree, ← append_assoc] at hnodup
    rw [h.free]
    exact (hperm.append_right free').nodup_iff.2 hnodup
  case free_pos => exact fun b hb => hwf.free_pos b (hsub b hb)
  case free_lt => exact fun b hb => hwf.free_lt b (hsub b hb)
  case extents => rw [h.flags]; exact hwf.extents
  case not_inline => simp [InodeDisk.usesInlineSymlinkStorage, h.blocks_pos]

section Correct

variable {blocks : Nat → List UInt8} {free : List Nat} {di : InodeDisk} {d : Nat} {t : Tree d}

/-- An insertion into a well-formed tree fails, for want of a key or of blocks, or does what `insRoot`
does. -/
theorem addExtentEntry_outcome (hwf : WellFormed blocks free di d t) (hd : d + 1 < 2 ^ 16)
    (hl : logical < 2 ^ 32) (hun : ∀ e ∈ flatten d t, ¬e.Covers logical) :
    ((∃ e, addExtentEntry ctx di blocks free logical physical = .error e) ∧
        (¬Insertable logical d t ∨ free.length < blocksNeeded logical physical d t)) ∨
      ∃ t' free' di' st', addExtentEntry ctx di blocks free logical physical = .ok (some physical, di', st') ∧
        EntryAdded di t' free' di' st' ∧ RootSpec logical physical d t free t' free' := by
  have hsim := @addExtentEntry_sim ctx logical physical d t di blocks free hwf.ready hwf.root hd
  have hout := @insRoot_outcome logical physical d t free hwf.ordered hwf.rep.sized hl hun hwf.free_lt
  cases hins : insRoot logical physical d t free with
  | error e =>
    rw [hins] at hsim hout
    exact Or.inl ⟨⟨e, hsim⟩, hout⟩
  | ok q =>
    obtain ⟨t', free'⟩ := q
    rw [hins] at hsim hout
    obtain ⟨di', st', hok, hadded⟩ := hsim
    exact Or.inr ⟨t', free', di', st', hok, hadded, hout⟩

/-- What a correct insertion needs of the tree before it. -/
theorem InsertionCorrect.needs (h : InsertionCorrect ctx di blocks free logical physical)
    (hwf : WellFormed blocks free di d t) (hd : d + 1 < 2 ^ 16) (hl : logical < 2 ^ 32)
    (hun : ∀ e ∈ flatten d t, ¬e.Covers logical) (hp : physical ≠ 0) :
    logical ≠ 2 ^ 32 - 1 ∧ Insertable logical d t ∧ blocksNeeded logical physical d t ≤ free.length := by
  obtain ⟨di₂, st₂, hok₂, ⟨d₂, t₂, hwf₂⟩, hnew, -⟩ := h
  rcases @addExtentEntry_outcome ctx logical physical _ _ _ _ _ hwf hd hl hun with
    ⟨⟨e, herr⟩, -⟩ | ⟨t', free', di', st', hok, hadded, hspec⟩
  · cases herr.symm.trans hok₂
  · cases hok.symm.trans hok₂
    have hflat := hadded.rep.flatten_unique hwf₂.rep
    refine ⟨?_, ?_, hspec.enough⟩
    · rintro rfl
      rw [hwf₂.findPhysicalBlock_eq, ← hflat, hspec.extended.lookup_last hun] at hnew
      exact hp (Option.some.inj hnew).symm
    · by_contra hni
      obtain ⟨xs, e, ys, heq, hlt⟩ := hspec.misplaced hni
      have hin := hwf₂.ordered.flatten.pairwise
      rw [← hflat, heq, map_append, pairwise_append] at hin
      have hkeys := (pairwise_cons.1 hin.2.1).1 _ (mem_map_of_mem mem_cons_self)
      have hnewkey : (mkLeaf logical physical).eeBlock = logical := Nat.mod_eq_of_lt hl
      omega

/-- The insertion of an unmapped block into a well-formed tree is correct exactly when the block is not
the last 32-bit number, every index node on its search path has a key at or below it, the leaf there
has one too or has room, and there are enough free blocks for the splits. -/
theorem insertionCorrect_iff (hwf : WellFormed blocks free di d t) (hd : d + 1 < 2 ^ 16)
    (hl : logical < 2 ^ 32) (hun : ∀ e ∈ flatten d t, ¬e.Covers logical) (hp : physical ≠ 0)
    (hp' : physical < 2 ^ 32) :
    InsertionCorrect ctx di blocks free logical physical ↔
      logical ≠ 2 ^ 32 - 1 ∧ Insertable logical d t ∧ blocksNeeded logical physical d t ≤ free.length := by
  constructor
  · intro h
    exact h.needs hwf hd hl hun hp
  · rintro ⟨hlast, hi, hn⟩
    rcases @addExtentEntry_outcome ctx logical physical _ _ _ _ _ hwf hd hl hun with
      ⟨-, h | h⟩ | ⟨t', free', di', st', hok, hadded, hspec⟩
    · exact absurd hi h
    · omega
    · have hwf' := hadded.wellFormed hwf hspec (hspec.ordered hi)
      refine ⟨di', st', hok, ⟨t'.1, t'.2, hwf'⟩, ?_, ?_⟩
      · rw [hwf'.findPhysicalBlock_eq, hspec.extended.lookup_self (by omega) hp' hun]
      · intro l _ hne
        rw [hwf'.findPhysicalBlock_eq, hwf.findPhysicalBlock_eq, hspec.extended.lookup_other (by omega) hne]

end Correct

/-! ## A full root -/

/-- Four extents of one block. -/
def fourExtents : List ExtentLeaf :=
  [mkLeaf 10 1010, mkLeaf 20 1020, mkLeaf 30 1030, mkLeaf 40 1040]

/-- A regular file whose root leaf is full. -/
def fullRoot : InodeDisk where
  iMode := 0x8000
  iSize := 41 * 4096
  iFlags := extentsFl
  iBlocksLo := 32
  iBlock := extentHeader 4 4 0 0 ++ ((fourExtents.map ExtentLeaf.bytes).flatten ++ [])

theorem fullRoot_wellFormed : WellFormed (fun _ => []) [100, 101] fullRoot 0 (LeafNode.mk 4 fourExtents) where
  rep := by
    refine ⟨⟨⟨0, [], rfl⟩, ?_, Or.inl rfl, ?_, ?_, by decide⟩, by decide⟩
    · intro s hs
      obtain ⟨e, -, rfl⟩ := mem_map.1 hs
      exact e.length_bytes
    · decide
    · decide
  root := rfl
  ordered := show ExtentsIn (2 ^ 32) 0 fourExtents by decide
  nodup := by decide
  free_pos := by decide
  free_lt := by decide
  extents := by decide
  not_inline := by decide

/-- Between two of the extents the root splits, and the insertion is correct. -/
theorem insertionCorrect_fullRoot : InsertionCorrect ⟨true, 0⟩ fullRoot (fun _ => []) [100, 101] 25 77 :=
  (insertionCorrect_iff fullRoot_wellFormed (by decide) (by decide) (by decide) (by decide) (by decide)).2
    ⟨by decide, Or.inl ⟨mkLeaf 10 1010, by decide, by decide⟩, by decide⟩

/-- Before the first extent it is not: the split puts the new extent behind the first one. -/
theorem not_insertionCorrect_fullRoot :
    WellFormed (fun _ => []) [100, 101] fullRoot 0 (LeafNode.mk 4 fourExtents) ∧
      (∀ e ∈ flatten 0 (LeafNode.mk 4 fourExtents), ¬e.Covers 5) ∧
      ¬InsertionCorrect ⟨true, 0⟩ fullRoot (fun _ => []) [100, 101] 5 77 := by
  refine ⟨fullRoot_wellFormed, by decide, fun h => ?_⟩
  obtain ⟨-, hi, -⟩ := h.needs fullRoot_wellFormed (by decide) (by decide) (by decide) (by decide)
  rcases hi with ⟨e, he, hle⟩ | h
  · have hall : ∀ e ∈ fourExtents, ¬e.eeBlock ≤ 5 := by decide
    exact hall e he hle
  · exact absurd h (by decide)

end ShellCore.Ext4
