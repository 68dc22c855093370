import ShellCore.Ext4.ExtentNode

/-!
# Extent trees

`Tree d` is an extent tree of depth `d` with its nodes' capacities and the blocks its index entries
point to. `RepTree` says that the bytes of a node and the device blocks below it hold a given tree.
`insTree` is the insertion on trees; `addExtentInTree_sim` shows that the byte-level insertion computes
it, and `findLoop_eq` does the same for lookup.
-/

namespace ShellCore.Ext4

open Nat

open List hiding getElem?_eq_some_iff

open ByteBuf BinarySearch ExtentLeaf

/-- A leaf node: its capacity and its extents. -/
structure LeafNode where
  max : Nat
  es : List ExtentLeaf

/-- An index node: its capacity and its entries with what they point to. -/
structure IndexNode (α : Type) where
  max : Nat
  cs : List (ExtentIndex × α)

/-- An extent tree of depth `d`. -/
abbrev Tree : Nat → Type
  | 0 => LeafNode
  | d + 1 => IndexNode (Tree d)

/-- The extents of a tree, left to right. -/
def Tree.flatten : (d : Nat) → Tree d → List ExtentLeaf
  | 0, ⟨_, es⟩ => es
  | d + 1, ⟨_, cs⟩ => cs.flatMap fun c => Tree.flatten d c.2

/-- The blocks that hold the nodes below the root. -/
def Tree.footprint : (d : Nat) → Tree d → List Nat
  | 0, _ => []
  | d + 1, ⟨_, cs⟩ => cs.flatMap fun c => c.1.eiLeafLo :: Tree.footprint d c.2

/-- `data` is the root node of `t`, and the device blocks hold the nodes below it. -/
def RepTree (blocks : Nat → List UInt8) : (d : Nat) → List UInt8 → Tree d → Prop
  | 0, data, ⟨max, es⟩ => NodeBytes data 0 max (es.map bytes) ∧ 1 ≤ max
  | d + 1, data, ⟨max, cs⟩ =>
    NodeBytes data (d + 1) max (cs.map fun c => c.1.bytes) ∧ cs ≠ [] ∧
      ∀ c ∈ cs, c.1.eiLeafHi = 0 ∧ c.1.eiLeafLo ≠ 0 ∧ (blocks c.1.eiLeafLo).length = blockSz ∧
        RepTree blocks d (blocks c.1.eiLeafLo) c.2

/-! ## Lookup -/

/-- The number of leading keys at most `logical`, as the binary search finds it. -/
def aimPos (keys : List Nat) (logical : Nat) : Nat :=
  partitionPoint (fun i => keys.getD i 0 ≤ logical) 0 keys.length

/-- The scan of a leaf's extents. -/
def leafLookup (logical : Nat) : List ExtentLeaf → Nat
  | [] => 0
  | e :: es =>
    if logical ≥ e.eeBlock ∧ logical < e.logicalEnd then (e.startPhys + (logical - e.eeBlock)) % 2 ^ 32
    else leafLookup logical es

/-- The child the lookup descends to: the last one before the first key above `logical`, the first
one if there is none. -/
def childFor {α : Type} (logical : Nat) : List (ExtentIndex × α) → Option α → Option α
  | [], found => found
  | c :: cs, found => if logical ≥ c.1.eiBlock then childFor logical cs (some c.2) else found

/-- Lookup on trees. -/
def findTree (logical : Nat) : (d : Nat) → Tree d → Nat
  | 0, ⟨_, es⟩ => leafLookup logical es
  | d + 1, ⟨_, cs⟩ =>
    match childFor logical cs (cs.head?.map Prod.snd) with
    | none => 0
    | some c => findTree logical d c

/-! ## Insertion -/

/-- A new leaf entry of one block. -/
def mkLeaf (logical physical : Nat) : ExtentLeaf :=
  ⟨logical % 2 ^ 32, 1, 0, physical % 2 ^ 32, mod_lt _ (by decide), by decide, by decide,
    mod_lt _ (by decide)⟩

/-- A new index entry. -/
def mkIndex (key blk : Nat) : ExtentIndex :=
  ⟨key % 2 ^ 32, blk % 2 ^ 32, 0, 0, mod_lt _ (by decide), mod_lt _ (by decide), by decide,
    by decide⟩

/-- The extent one block longer. -/
def ExtentLeaf.grow (e : ExtentLeaf) : ExtentLeaf :=
  { e with
    eeLen := (if e.eeLen > 32768 then e.actualLen % 2 ^ 16 + 1 + 32768 else e.actualLen % 2 ^ 16 + 1) % 2 ^ 16
    eeLen_lt := mod_lt _ (by decide) }

/-- What became of a node: changed in place, or split off a right part into block `blk`. -/
inductive InsResult (d : Nat) where
  | done (t : Tree d)
  | split (l : Tree d) (blk key : Nat) (r : Tree d)

/-- Store the entries `xs` of a node that could hold `max`: in place, or in two halves. -/
def placeEntries {α : Type} {d : Nat} (max : Nat) (xs : List α) (mk : Nat → List α → Tree d)
    (key : α → Nat) (free : List Nat) : Except ExtPanic (InsResult d × List Nat) :=
  if xs.length ≤ max then .ok (.done (mk max xs), free)
  else
    match free with
    | [] => .error .noFreeBlock
    | blk :: free =>
      .ok (.split (mk max (xs.take (xs.length / 2))) blk
        (((xs.drop (xs.length / 2)).head?.map key).getD 0) (mk 340 (xs.drop (xs.length / 2))), free)

/-- The insertion on trees. -/
def insTree (logical physical : Nat) :
    (d : Nat) → Tree d → List Nat → Except ExtPanic (InsResult d × List Nat)
  | 0, ⟨max, es⟩, free =>
    let k := aimPos (es.map eeBlock) logical
    match (es.take k).getLast? with
    | some e =>
      if e.mergeable logical physical then
        .ok (.done ⟨max, (es.take k).dropLast ++ e.grow :: es.drop k⟩, free)
      else
        placeEntries max (es.take k ++ mkLeaf logical physical :: es.drop k) LeafNode.mk eeBlock free
    | none =>
      -- without an entry before it, a split puts the new entry behind the first one
      let pos := if es.length < max then 0 else 1
      placeEntries max (es.take pos ++ mkLeaf logical physical :: es.drop pos) LeafNode.mk eeBlock free
  | d + 1, ⟨max, cs⟩, free =>
    let k := aimPos (cs.map fun c => c.1.eiBlock) logical
    match (cs.take k).getLast? with
    | none => .error .noIndexEntry
    | some c =>
      match insTree logical physical d c.2 free with
      | .error e => .error e
      | .ok (.done t, free) => .ok (.done ⟨max, (cs.take k).dropLast ++ (c.1, t) :: cs.drop k⟩, free)
      | .ok (.split l blk key r, free) =>
        placeEntries max ((cs.take k).dropLast ++ (c.1, l) :: (mkIndex key blk, r) :: cs.drop k) IndexNode.mk
          (fun c => c.1.eiBlock) free

/-! ## The aim -/

/-- The split of a list at the aim. -/
theorem aim_split {α : Type} {xs : List α} {k c} (h : (xs.take k).getLast? = some c) :
    xs = (xs.take k).dropLast ++ c :: xs.drop k := by
  have htake : xs.take k = (xs.take k).dropLast ++ [c] := (dropLast_append_getLast? c h).symm
  conv_lhs => rw [← take_append_drop k xs, htake]
  simp

/-- The entry at the aim, if there is one. -/
theorem getLast?_take_aim {α : Type} {xs : List α} {k} (hk : k ≤ xs.length) :
    (k = 0 ∧ (xs.take k).getLast? = none) ∨
      ∃ x, 1 ≤ k ∧ (xs.take k).getLast? = some x ∧ ((xs.take k).dropLast).length = k - 1 := by
  by_cases h0 : k = 0
  · left; exact ⟨h0, by simp [h0]⟩
  · right
    have hne : xs.take k ≠ [] := by
      simp only [ne_eq, take_eq_nil_iff, not_or]
      refine ⟨h0, ?_⟩
      rintro rfl
      exact h0 (by simpa using hk)
    exact ⟨(xs.take k).getLast hne, by omega, getLast?_eq_some_getLast hne, by simp; omega⟩

theorem aimPos_le (keys : List Nat) (logical : Nat) : aimPos keys logical ≤ keys.length :=
  (partitionPoint_bounds (zero_le _)).2

/-- The halves of a list of two or more. -/
theorem halves_cons {α : Type} {xs : List α} (h : 2 ≤ xs.length) :
    ∃ x xs' y ys, xs.take (xs.length / 2) = x :: xs' ∧ xs.drop (xs.length / 2) = y :: ys := by
  have ht : xs.take (xs.length / 2) ≠ [] := by
    intro he
    have := congrArg length he
    rw [length_take, length_nil] at this
    omega
  have hd : xs.drop (xs.length / 2) ≠ [] := by
    simp only [ne_eq, drop_eq_nil_iff]; omega
  obtain ⟨x, xs', hx⟩ := exists_cons_of_ne_nil ht
  obtain ⟨y, ys, hy⟩ := exists_cons_of_ne_nil hd
  exact ⟨x, xs', y, ys, hx, hy⟩

/-- The entries stay in their node, or a new block takes the second half of them. -/
theorem placeEntries_cases {α : Type} {d max xs} {mk : Nat → List α → Tree d} {key free free' res}
    (h : placeEntries max xs mk key free = .ok (res, free')) :
    res = .done (mk max xs) ∧ free' = free ∨
      ∃ blk l k r, free = blk :: free' ∧ xs = l ++ r ∧ res = .split (mk max l) blk k (mk 340 r) ∧
        (1 ≤ max → ∃ x xs' y ys, l = x :: xs' ∧ r = y :: ys ∧ k = key y) := by
  unfold placeEntries at h
  split at h
  · cases h
    exact .inl ⟨rfl, rfl⟩
  · split at h
    · cases h
    · cases h
      refine .inr ⟨_, _, _, _, rfl, (take_append_drop (xs.length / 2) xs).symm, rfl, fun hmax => ?_⟩
      obtain ⟨x, xs', y, ys, hx, hy⟩ := halves_cons (show 2 ≤ xs.length by omega)
      exact ⟨x, xs', y, ys, hx, hy, by rw [hy]; rfl⟩

/-! ## Entries in nodes -/

theorem getLe_prefix {w v c} : getLe (leBytes w v ++ c) 0 w = v % 256 ^ w :=
  getLe_append (a := []) rfl

theorem ExtentLeaf.length_bytes (e : ExtentLeaf) : e.bytes.length = 12 := by simp [bytes]

theorem ExtentIndex.length_bytes (e : ExtentIndex) : e.bytes.length = 12 := by simp [ExtentIndex.bytes]

theorem ExtentLeaf.getLe_key (e : ExtentLeaf) : getLe e.bytes 0 4 = e.eeBlock := by
  rw [bytes, getLe_prefix]
  exact mod_eq_of_lt e.eeBlock_lt

theorem ExtentIndex.getLe_key (e : ExtentIndex) : getLe e.bytes 0 4 = e.eiBlock := by
  rw [ExtentIndex.bytes, getLe_prefix]
  exact mod_eq_of_lt e.eiBlock_lt

section Slots

variable {data : List UInt8} {depth max logical : Nat} {pre post : List (List UInt8)}

theorem leafAt_slot {e}
    (h : NodeBytes data depth max (pre ++ e.bytes :: post)) : leafAt data (slotOff pre.length) = e := by
  have h0 := h.getLe_slot 0 4 (by decide)
  have h4 := h.getLe_slot 4 2 (by decide)
  have h6 := h.getLe_slot 6 2 (by decide)
  have h8 := h.getLe_slot 8 4 (by decide)
  have e4 : getLe e.bytes 4 2 = e.eeLen % 2 ^ 16 :=
    getLe_append (a := leBytes 4 e.eeBlock) rfl
  have e6 : getLe e.bytes 6 2 = e.eeStartHi % 2 ^ 16 := by
    have := @getLe_append 6 2 e.eeStartHi (leBytes 4 e.eeBlock ++ leBytes 2 e.eeLen)
      (leBytes 4 e.eeStartLo) (by simp)
    simpa [bytes] using this
  have e8 : getLe e.bytes 8 4 = e.eeStartLo % 2 ^ 32 := by
    have := @getLe_append 8 4 e.eeStartLo (leBytes 4 e.eeBlock ++ (leBytes 2 e.eeLen ++ leBytes 2 e.eeStartHi))
      [] (by simp)
    simpa [bytes] using this
  ext
  · exact h0.trans e.getLe_key
  · exact h4.trans (e4.trans (mod_eq_of_lt e.eeLen_lt))
  · exact h6.trans (e6.trans (mod_eq_of_lt e.eeStartHi_lt))
  · exact h8.trans (e8.trans (mod_eq_of_lt e.eeStartLo_lt))

theorem indexAt_slot {e}
    (h : NodeBytes data depth max (pre ++ e.bytes :: post)) : indexAt data (slotOff pre.length) = e := by
  have h0 := h.getLe_slot 0 4 (by decide)
  have h4 := h.getLe_slot 4 4 (by decide)
  have h8 := h.getLe_slot 8 2 (by decide)
  have h10 := h.getLe_slot 10 2 (by decide)
  have e4 : getLe e.bytes 4 4 = e.eiLeafLo % 2 ^ 32 :=
    getLe_append (a := leBytes 4 e.eiBlock) rfl
  have e8 : getLe e.bytes 8 2 = e.eiLeafHi % 2 ^ 16 := by
    have := @getLe_append 8 2 e.eiLeafHi (leBytes 4 e.eiBlock ++ leBytes 4 e.eiLeafLo)
      (leBytes 2 e.eiUnused) (by simp)
    simpa [ExtentIndex.bytes] using this
  have e10 : getLe e.bytes 10 2 = e.eiUnused % 2 ^ 16 := by
    have := @getLe_append 10 2 e.eiUnused
      (leBytes 4 e.eiBlock ++ (leBytes 4 e.eiLeafLo ++ leBytes 2 e.eiLeafHi)) [] (by simp)
    simpa [ExtentIndex.bytes] using this
  ext
  · exact h0.trans e.getLe_key
  · exact h4.trans (e4.trans (mod_eq_of_lt e.eiLeafLo_lt))
  · exact h8.trans (e8.trans (mod_eq_of_lt e.eiLeafHi_lt))
  · exact h10.trans (e10.trans (mod_eq_of_lt e.eiUnused_lt))

/-- The key of entry `i` of a node whose entries are encoded by `enc`. -/
theorem getLe_slot_key {α : Type} {enc : α → List UInt8} {key : α → Nat} {xs : List α}
    (hkey : ∀ x, getLe (enc x) 0 4 = key x) (h : NodeBytes data depth max (xs.map enc)) {i}
    (hi : i < xs.length) : getLe data (slotOff i) 4 = (xs.map key).getD i 0 := by
  have hsplit : xs.map enc = (xs.take i).map enc ++ enc xs[i] :: (xs.drop (i + 1)).map enc := by
    rw [← map_cons, ← map_append, getElem_cons_drop, take_append_drop]
  have hlen : ((xs.take i).map enc).length = i := by simp; omega
  rw [hsplit] at h
  have hslot := h.getLe_slot 0 4 (by decide)
  rw [hlen, add_zero] at hslot
  rw [hslot, hkey]
  simp [getD, hi]

/-- `find_aim` on a node is the binary search over its keys. -/
theorem findAim_eq {α : Type} {enc : α → List UInt8} {key : α → Nat} {xs : List α}
    (hkey : ∀ x, getLe (enc x) 0 4 = key x) (h : NodeBytes data depth max (xs.map enc)) :
    findAim data (ehEntries data) logical =
      if aimPos (xs.map key) logical = 0 then none else some (slotOff (aimPos (xs.map key) logical - 1)) := by
  have hent : ehEntries data = xs.length := by rw [h.ehEntries_eq, length_map]
  have hcap : xs.length ≤ slotCap data := by simpa using h.length_slots_le
  have haim : partitionPoint (fun i => getLe data (slotOff i) 4 ≤ logical) 0 xs.length =
      aimPos (xs.map key) logical := by
    rw [aimPos, length_map]
    apply partitionPoint_congr
    intro i _ hi
    rw [getLe_slot_key hkey h hi]
  unfold findAim
  simp only [hent, Nat.min_eq_left hcap, haim]
  by_cases hn : xs.length = 0
  · have hz : aimPos (xs.map key) logical = 0 := by
      rw [length_eq_zero_iff.1 hn]
      simp [aimPos, partitionPoint]
    simp [hn, hz]
  · rw [if_neg hn]

end Slots

/-! ## Lookup on bytes -/

theorem leafScan_eq {data max logical pre es}
    (h : NodeBytes data 0 max ((pre ++ es).map bytes)) :
    leafScan data logical pre.length es.length = leafLookup logical es := by
  induction es generalizing pre with
  | nil => rfl
  | cons e es ih =>
    have hcap := h.cap_bounds
    have hlen := h.length_slots_le
    have hslot : NodeBytes data 0 max (pre.map bytes ++ e.bytes :: es.map bytes) := by
      simpa using h
    have hleaf := leafAt_slot hslot
    rw [length_map] at hleaf
    have hnext := @ih (pre ++ [e]) (by simpa using h)
    rw [length_append, length_singleton] at hnext
    simp only [length_map, length_append, length_cons] at hlen
    simp only [length_cons, leafScan, leafLookup, hleaf]
    rw [if_neg (by unfold slotOff; omega), hnext]

theorem indexScan_eq {α : Type} {data depth max logical f}
    {pre cs : List (ExtentIndex × α)} {c}
    (h : NodeBytes data depth max ((pre ++ cs).map fun c => c.1.bytes)) (hf : (pre ++ cs)[f]? = some c) :
    ∃ c', (pre ++ cs)[indexScan data logical pre.length cs.length f]? = some c' ∧
      childFor logical cs (some c.2) = some c'.2 := by
  induction cs generalizing pre f c with
  | nil => exact ⟨c, hf, rfl⟩
  | cons x cs ih =>
    have hkey := @getLe_slot_key data depth max _ (fun c : ExtentIndex × α => c.1.bytes)
      (fun c => c.1.eiBlock) (pre ++ x :: cs) (fun c => c.1.getLe_key) h pre.length (by simp)
    simp at hkey
    simp only [length_cons, indexScan, childFor, hkey]
    by_cases hle : logical ≥ x.1.eiBlock
    · rw [if_pos hle, if_pos hle]
      have hx : ((pre ++ [x]) ++ cs)[pre.length]? = some x := by simp
      obtain ⟨c', hc', hchild⟩ := @ih pre.length (pre ++ [x]) x (by simpa using h) hx
      refine ⟨c', ?_, hchild⟩
      simpa using hc'
    · rw [if_neg hle, if_neg hle]
      exact ⟨c, hf, rfl⟩

/-- Lookup on the bytes of a tree is lookup on the tree, given fuel for its depth. -/
theorem findLoop_eq {blocks : Nat → List UInt8} {logical : Nat} :
    ∀ (d fuel : Nat) (data : List UInt8) (t : Tree d), RepTree blocks d data t → d < fuel →
      findLoop blocks logical fuel data = some (findTree logical d t) := by
  intro d
  induction d with
  | zero =>
    intro fuel data t h hfuel
    obtain ⟨fuel, rfl⟩ : ∃ n, fuel = n + 1 := ⟨fuel - 1, by omega⟩
    obtain ⟨max, es⟩ := t
    obtain ⟨hnode, -⟩ := h
    have hcap := hnode.cap_bounds
    have hlen := hnode.length_slots_le
    rw [length_map] at hlen
    have hscan := @leafScan_eq data max logical [] es hnode
    rw [findLoop, if_neg (by omega), if_neg (by rw [hnode.ehMagic_eq]; simp)]
    simp only [hnode.ehEntries_eq, hnode.ehDepth_eq, length_map, Nat.min_eq_left hlen, if_true]
    exact congrArg some hscan
  | succ d ih =>
    intro fuel data t h hfuel
    obtain ⟨fuel, rfl⟩ : ∃ n, fuel = n + 1 := ⟨fuel - 1, by omega⟩
    obtain ⟨max, cs⟩ := t
    obtain ⟨hnode, hne, hcs⟩ := h
    have hcap := hnode.cap_bounds
    have hlen := hnode.length_slots_le
    rw [length_map] at hlen
    obtain ⟨c₀, cs', rfl⟩ := exists_cons_of_ne_nil hne
    obtain ⟨c, hc, hchild⟩ := @indexScan_eq _ data (d + 1) max logical 0 [] (c₀ :: cs') c₀ hnode rfl
    rw [nil_append, length_nil] at hc
    obtain ⟨hi, hx⟩ := List.getElem?_eq_some_iff.1 hc
    have hsplit := take_append_drop (indexScan data logical 0 (c₀ :: cs').length 0) (c₀ :: cs')
    rw [← getElem_cons_drop hi, hx] at hsplit
    have hidx : indexAt data (slotOff (indexScan data logical 0 (c₀ :: cs').length 0)) = c.1 := by
      rw [← hsplit, map_append, map_cons] at hnode
      have := indexAt_slot hnode
      rwa [length_map, length_take, Nat.min_eq_left (by omega)] at this
    obtain ⟨hhi, -, -, hrep⟩ := hcs c (mem_of_getElem? hc)
    rw [findLoop, if_neg (by omega), if_neg (by rw [hnode.ehMagic_eq]; simp)]
    simp only [hnode.ehEntries_eq, hnode.ehDepth_eq, length_map, Nat.min_eq_left hlen,
      Nat.add_eq_zero_iff, one_ne_zero, and_false, if_false, hidx]
    have hphys : c.1.leafPhys = c.1.eiLeafLo := by simp [ExtentIndex.leafPhys, hhi]
    rw [hphys, ih fuel _ c.2 hrep (by omega)]
    simp only [findTree, head?_cons, Option.map_some, hchild]

end ShellCore.Ext4
