import ShellCore.Ext4.Extent

/-!
# Extent nodes as lists of entries

`NodeBytes data depth max slots` says that `data` is an extent node with the given depth and
capacity whose entries, as 12-byte strings, are `slots`. Each byte-level operation of the insertion
is an edit of that list.
-/

namespace ShellCore.Ext4

open ByteBuf BinarySearch Function List

@[simp] theorem length_extentHeader (n m d g : Nat) : (extentHeader n m d g).length = 12 := by
  simp [extentHeader]

section HeaderFields

variable {n m d g v : Nat} {body : List UInt8}

/-- The two-byte field after the fields `a` of a header. -/
theorem getLe_extentHeader {a b off} (h : extentHeader n m d g = a ++ (leBytes 2 v ++ b))
    (ha : off = a.length) : getLe (extentHeader n m d g ++ body) off 2 = v % 2 ^ 16 := by
  rw [h, append_assoc, append_assoc]
  exact getLe_append ha

theorem ehMagic_header : ehMagic (extentHeader n m d g ++ body) = extentMagic :=
  getLe_extentHeader (a := []) rfl rfl

theorem ehEntries_header : ehEntries (extentHeader n m d g ++ body) = n % 2 ^ 16 :=
  getLe_extentHeader (a := leBytes 2 extentMagic) rfl rfl

theorem ehMax_header : ehMax (extentHeader n m d g ++ body) = m % 2 ^ 16 :=
  getLe_extentHeader (a := leBytes 2 extentMagic ++ leBytes 2 n) (by simp [extentHeader]; rfl) (by simp)

theorem ehDepth_header : ehDepth (extentHeader n m d g ++ body) = d % 2 ^ 16 :=
  getLe_extentHeader (a := leBytes 2 extentMagic ++ (leBytes 2 n ++ leBytes 2 m))
    (by simp [extentHeader]; rfl) (by simp)

theorem setLe_header_entries (k : Nat) :
    setLe (extentHeader n m d g ++ body) 2 2 k = extentHeader k m d g ++ body := by
  simp only [extentHeader, append_assoc]
  exact setLe_append (by simp) (by simp)

end HeaderFields

/-- The bytes of an extent node with entries `slots`. -/
structure NodeBytes (data : List UInt8) (depth max : Nat) (slots : List (List UInt8)) : Prop where
  layout : ∃ gen rest, data = extentHeader slots.length max depth gen ++ (slots.flatten ++ rest)
  slots_len : ∀ s ∈ slots, s.length = 12
  size : data.length = 60 ∨ data.length = blockSz
  room : slots.length ≤ max
  max_le : max ≤ slotCap data
  depth_lt : depth < 2 ^ 16

theorem length_flatten_slots {slots : List (List UInt8)} (h : ∀ s ∈ slots, s.length = 12) :
    slots.flatten.length = slots.length * 12 := by
  induction slots with
  | nil => rfl
  | cons s slots ih =>
    rw [flatten_cons, length_append, h s mem_cons_self,
      ih fun x hx => h x (mem_cons_of_mem s hx), length_cons]
    omega

@[simp] theorem writeBackBlock_free (ctx : ExtentCtx) (phys : Nat) (data : List UInt8) (st : ExtState) :
    (writeBackBlock ctx phys data st).free = st.free := by
  unfold writeBackBlock; split <;> rfl

theorem writeBackBlock_of_ne {ctx phys b data st}
    (h : b ≠ phys) : (writeBackBlock ctx phys data st).blocks b = st.blocks b := by
  unfold writeBackBlock
  split
  · exact update_of_ne h _ _
  · rfl

namespace NodeBytes

variable {data entry : List UInt8} {depth max : Nat} {slots pre post : List (List UInt8)} {s : List UInt8}

variable (h : NodeBytes data depth max slots)

include h

theorem cap_bounds : 12 + slotCap data * 12 ≤ data.length ∧ slotCap data ≤ 340 := by
  unfold slotCap
  rcases h.size with h60 | h4096
  · rw [if_pos h60, h60]; omega
  · rw [h4096, if_neg (by decide)]
    unfold blockSz; omega

theorem length_slots_le : slots.length ≤ slotCap data :=
  le_trans h.room h.max_le

/-- Another layout of the same size. -/
theorem relaid {data' slots'}
    (hlayout : ∃ gen rest, data' = extentHeader slots'.length max depth gen ++ (slots'.flatten ++ rest))
    (hlen : data'.length = data.length) (hslots : ∀ s ∈ slots', s.length = 12) (hroom : slots'.length ≤ max) :
    NodeBytes data' depth max slots' := by
  refine ⟨hlayout, hslots, hlen ▸ h.size, hroom, ?_, h.depth_lt⟩
  unfold slotCap
  rw [hlen]
  exact h.max_le

omit h in
theorem slots_len_insert (h : ∀ s ∈ pre ++ post, s.length = 12) (he : entry.length = 12) :
    ∀ s ∈ pre ++ entry :: post, s.length = 12 := by
  rw [forall_mem_append] at h ⊢
  exact ⟨h.1, forall_mem_cons.2 ⟨he, h.2⟩⟩

theorem ehMagic_eq : ehMagic data = extentMagic := by
  obtain ⟨gen, rest, rfl⟩ := h.layout
  exact ehMagic_header

theorem ehEntries_eq : ehEntries data = slots.length := by
  have hle := h.length_slots_le
  have hcap := h.cap_bounds
  obtain ⟨gen, rest, rfl⟩ := h.layout
  rw [ehEntries_header, Nat.mod_eq_of_lt (by omega)]

theorem ehMax_eq : ehMax data = max := by
  have hle := h.max_le
  have hcap := h.cap_bounds
  obtain ⟨gen, rest, rfl⟩ := h.layout
  rw [ehMax_header, Nat.mod_eq_of_lt (by omega)]

theorem ehDepth_eq : ehDepth data = depth := by
  have hlt := h.depth_lt
  obtain ⟨gen, rest, rfl⟩ := h.layout
  rw [ehDepth_header, Nat.mod_eq_of_lt hlt]

omit h

theorem length_take_of_bound (h : ∀ s ∈ pre ++ post, s.length = 12) {n m d g : Nat} :
    (extentHeader n m d g ++ pre.flatten).length = slotOff pre.length := by
  rw [length_append, length_extentHeader,
    length_flatten_slots fun x hx => h x (mem_append_left _ hx), slotOff]

/-- A field of an entry. -/
theorem getLe_slot (h : NodeBytes data depth max (pre ++ s :: post)) (o w : Nat) (how : o + w ≤ 12) :
    getLe data (slotOff pre.length + o) w = getLe s o w := by
  have hs : s.length = 12 := h.slots_len s (by simp)
  obtain ⟨gen, rest, hdata⟩ := h.layout
  have hsplit : data = (extentHeader (pre ++ s :: post).length max depth gen ++ pre.flatten) ++
      (s ++ (post.flatten ++ rest)) := by
    rw [hdata]; simp
  rw [hsplit, getLe, slice_append_mid (by rw [length_take_of_bound h.slots_len]) (by omega), getLe]

/-- A store into a field of an entry. -/
theorem setLe_slot (h : NodeBytes data depth max (pre ++ s :: post)) (o w v : Nat) (how : o + w ≤ 12) :
    NodeBytes (setLe data (slotOff pre.length + o) w v) depth max (pre ++ setLe s o w v :: post) ∧
      (setLe data (slotOff pre.length + o) w v).length = data.length := by
  have hs : s.length = 12 := h.slots_len s (by simp)
  have hlen' : (setLe s o w v).length = 12 := by rw [length_setLe (by omega), hs]
  obtain ⟨gen, rest, hdata⟩ := h.layout
  have hsplit : data = (extentHeader (pre ++ s :: post).length max depth gen ++ pre.flatten) ++
      (s ++ (post.flatten ++ rest)) := by
    rw [hdata]; simp
  have hstore : setLe data (slotOff pre.length + o) w v =
      (extentHeader (pre ++ s :: post).length max depth gen ++ pre.flatten) ++
        (setLe s o w v ++ (post.flatten ++ rest)) := by
    rw [hsplit, setLe, splice_append_mid (by rw [length_take_of_bound h.slots_len]) (by simp; omega), setLe]
  have hdlen : (setLe data (slotOff pre.length + o) w v).length = data.length := by
    rw [hstore, hsplit]
    simp [hs, hlen']
  refine ⟨h.relaid ⟨gen, rest, ?_⟩ hdlen (slots_len_insert (fun x hx => h.slots_len x ?_) hlen') ?_, hdlen⟩
  · rw [hstore]; simp
  · simp only [mem_append, mem_cons] at hx ⊢
    exact hx.imp_right .inr
  · simpa using h.room

/-- Inserting an entry into a node with room. -/
theorem insertSlot (h : NodeBytes data depth max (pre ++ post)) (he : entry.length = 12)
    (hroom : (pre ++ post).length < max) :
    NodeBytes (Ext4.insertSlot data (slotOff pre.length) entry) depth max (pre ++ entry :: post) ∧
      (Ext4.insertSlot data (slotOff pre.length) entry).length = data.length := by
  have hcap := h.cap_bounds
  have hmax := h.max_le
  have hent := h.ehEntries_eq
  have hpre : pre.flatten.length = pre.length * 12 :=
    length_flatten_slots fun x hx => h.slots_len x (mem_append_left _ hx)
  have hpost : post.flatten.length = post.length * 12 :=
    length_flatten_slots fun x hx => h.slots_len x (mem_append_right _ hx)
  obtain ⟨gen, rest, hdata⟩ := h.layout
  have hsplit : data = (extentHeader (pre ++ post).length max depth gen ++ pre.flatten) ++
      (post.flatten ++ rest) := by
    rw [hdata]; simp
  have hplen := @length_take_of_bound pre post h.slots_len (pre ++ post).length max depth gen
  have hrest : entry.length ≤ rest.length := by
    have := congrArg length hdata
    simp [hpre, hpost] at this hroom
    omega
  have hafter : slotOff (ehEntries data) - slotOff pre.length = post.flatten.length := by
    rw [hent, hpost, length_append]
    unfold slotOff; omega
  have hmove : splice (splice data (slotOff pre.length + 12) (slice data (slotOff pre.length)
      post.flatten.length)) (slotOff pre.length) entry =
      extentHeader (pre ++ post).length max depth gen ++
        ((pre ++ entry :: post).flatten ++ rest.drop 12) := by
    have hslice : slice data (slotOff pre.length) post.flatten.length = post.flatten := by
      rw [hsplit]
      exact slice_append_at hplen.symm rfl
    rw [hslice, hsplit, ← hplen, ← he, splice_splice_shift hrest, he]
    simp
  have hentries : ehEntries (extentHeader (pre ++ post).length max depth gen ++
      ((pre ++ entry :: post).flatten ++ rest.drop 12)) = (pre ++ post).length := by
    rw [ehEntries_header, Nat.mod_eq_of_lt (by omega)]
  have hnew : Ext4.insertSlot data (slotOff pre.length) entry =
      extentHeader (pre ++ entry :: post).length max depth gen ++
        ((pre ++ entry :: post).flatten ++ rest.drop 12) := by
    simp only [Ext4.insertSlot]
    rw [hafter, hmove, hentries, setLe_header_entries]
    simp [Nat.add_assoc]
  have hdlen : (Ext4.insertSlot data (slotOff pre.length) entry).length = data.length := by
    rw [hnew, hsplit]
    simp [he]
    omega
  refine ⟨h.relaid ⟨gen, rest.drop 12, hnew⟩ hdlen (slots_len_insert h.slots_len he) ?_, hdlen⟩
  simp only [length_append, length_cons] at hroom ⊢
  omega

include h

/-- The checksum goes behind the entries. -/
theorem setExtentNodeChecksum (hblk : data.length = blockSz)
    (ctx : ExtentCtx) : NodeBytes (Ext4.setExtentNodeChecksum ctx data) depth max slots ∧
      (Ext4.setExtentNodeChecksum ctx data).length = data.length := by
  have hcap := h.cap_bounds
  have hmax := h.max_le
  have hroom := h.room
  have hemax : getLe data 4 2 = max := h.ehMax_eq
  have hflat := length_flatten_slots h.slots_len
  obtain ⟨gen, rest, hdata⟩ := h.layout
  have htail : 12 + max * 12 + 4 ≤ data.length := by
    rw [hblk]; unfold blockSz; omega
  have hoff : 12 + max * 12 = (extentHeader slots.length max depth gen ++ slots.flatten).length +
      (max * 12 - slots.length * 12) := by
    rw [length_append, length_extentHeader, hflat]
    omega
  have hstore : ∀ v, setLe data (12 + max * 12) 4 v = extentHeader slots.length max depth gen ++
      (slots.flatten ++ setLe rest (max * 12 - slots.length * 12) 4 v) := by
    intro v
    rw [hdata, ← append_assoc, setLe_append_right hoff, append_assoc]
  have hdlen : (Ext4.setExtentNodeChecksum ctx data).length = data.length := by
    simp only [Ext4.setExtentNodeChecksum, hemax]
    rw [if_neg (by omega), if_neg (by omega), length_setLe htail]
  refine ⟨h.relaid ⟨gen, setLe rest (max * 12 - slots.length * 12) 4
    (crc32c ctx.inodeSeed (data.take (12 + max * 12))).toNat, ?_⟩ hdlen h.slots_len hroom, hdlen⟩
  simp only [Ext4.setExtentNodeChecksum, hemax]
  rw [if_neg (by omega), if_neg (by omega), hstore]

/-- A node written back to its block. -/
theorem writeBack (ctx : ExtentCtx) {phys} (st : ExtState) (hblk : data.length = blockSz) (hp : phys ≠ 0) :
    NodeBytes ((writeBackBlock ctx phys data st).blocks phys) depth max slots ∧
      ((writeBackBlock ctx phys data st).blocks phys).length = blockSz := by
  simp only [writeBackBlock, if_pos hp, update_self]
  split
  · obtain ⟨hnode, hlen⟩ := h.setExtentNodeChecksum hblk ctx
    exact ⟨hnode, hlen.trans hblk⟩
  · exact ⟨h, hblk⟩

omit h in
theorem flatten_take_drop (slots : List (List UInt8)) (k : Nat) :
    slots.flatten = (slots.take k).flatten ++ (slots.drop k).flatten := by
  rw [← flatten_append, take_append_drop]

/-- Rewriting the first `new.length` entries and the entry count. -/
theorem keepSlots {new : List (List UInt8)} (hnew : ∀ x ∈ new, x.length = 12) (hle : new.length ≤ slots.length) :
    NodeBytes (setLe (splice data 12 new.flatten) 2 2 new.length) depth max new ∧
      (setLe (splice data 12 new.flatten) 2 2 new.length).length = data.length := by
  obtain ⟨gen, rest, hdata⟩ := h.layout
  have hkept : (slots.take new.length).flatten.length = new.flatten.length := by
    rw [length_flatten_slots fun x hx => h.slots_len x (mem_of_mem_take hx),
      length_flatten_slots hnew, length_take, Nat.min_eq_left hle]
  have hstore : setLe (splice data 12 new.flatten) 2 2 new.length =
      extentHeader new.length max depth gen ++
        (new.flatten ++ ((slots.drop new.length).flatten ++ rest)) := by
    rw [hdata, flatten_take_drop slots new.length, append_assoc,
      splice_append_at (by simp) hkept, setLe_header_entries]
  have hdlen : (setLe (splice data 12 new.flatten) 2 2 new.length).length = data.length := by
    rw [hstore, hdata, flatten_take_drop slots new.length]
    simp only [length_append, length_extentHeader, hkept]
    omega
  exact ⟨h.relaid ⟨gen, _, hstore⟩ hdlen hnew (hle.trans h.room), hdlen⟩

omit h

/-- A fresh block node. -/
theorem blockNode {new : List (List UInt8)} (hnew : ∀ x ∈ new, x.length = 12) (hle : new.length ≤ 340)
    (hd : depth < 2 ^ 16) {buf : List UInt8}
    (hb : splice (splice (replicate blockSz 0) 0 (extentHeader new.length 340 depth 0)) 12 new.flatten = buf) :
    NodeBytes buf depth 340 new ∧ buf.length = blockSz := by
  have hflat := length_flatten_slots hnew
  have hzero : replicate blockSz (0 : UInt8) = replicate 12 0 ++
      (replicate new.flatten.length 0 ++ replicate (blockSz - 12 - new.flatten.length) 0) := by
    rw [← replicate_add, ← replicate_add]
    congr 1
    unfold blockSz; omega
  have hhead := @splice_append_at _ [] (replicate 12 (0 : UInt8))
    (replicate new.flatten.length 0 ++ replicate (blockSz - 12 - new.flatten.length) 0)
    (extentHeader new.length 340 depth 0) 0 rfl (by simp)
  rw [nil_append, nil_append] at hhead
  rw [hzero, hhead, splice_append_at (by simp) (by simp)] at hb
  have hlen : buf.length = blockSz := by
    rw [← hb, length_append, length_append, length_replicate, length_extentHeader, hflat]
    unfold blockSz; omega
  refine ⟨⟨⟨0, _, hb.symm⟩, hnew, Or.inr hlen, hle, ?_, hd⟩, hlen⟩
  unfold slotCap
  rw [hlen, if_neg (by decide)]

/-- The entries of a full node with the new one in place. -/
def combinedSlots (slots : List (List UInt8)) (pos : Nat) (entry : List UInt8) : List (List UInt8) :=
  slots.take pos ++ entry :: slots.drop pos

theorem length_combinedSlots {pos} (h : pos ≤ slots.length) :
    (combinedSlots slots pos entry).length = slots.length + 1 := by
  simp [combinedSlots]; omega

theorem combinedSlots_len (h : ∀ x ∈ slots, x.length = 12) (he : entry.length = 12) {pos} :
    ∀ x ∈ combinedSlots slots pos entry, x.length = 12 := by
  refine slots_len_insert ?_ he
  rwa [take_append_drop]

/-- The valid part of a node with the new entry in place. -/
theorem combined_eq {pos gen : Nat} {rest : List UInt8} (hslots : ∀ x ∈ slots, x.length = 12)
    (hle : pos ≤ slots.length)
    (hdata : data = extentHeader slots.length max depth gen ++ (slots.flatten ++ rest)) :
    (data.take (slotOff slots.length)).length = slotOff slots.length ∧
    (data.take (slotOff slots.length)).take (slotOff pos) ++
        (entry ++ (data.take (slotOff slots.length)).drop (slotOff pos)) =
      extentHeader slots.length max depth gen ++ (combinedSlots slots pos entry).flatten := by
  have hcur : data.take (slotOff slots.length) =
      extentHeader slots.length max depth gen ++ slots.flatten := by
    rw [hdata, ← append_assoc]
    exact take_left' (by simp [length_flatten_slots hslots, slotOff])
  have hfront : (extentHeader slots.length max depth gen ++ (slots.take pos).flatten).length =
      slotOff pos := by
    rw [length_append, length_extentHeader,
      length_flatten_slots fun x hx => hslots x (mem_of_mem_take hx), length_take,
      Nat.min_eq_left hle, slotOff]
  have hcur' : data.take (slotOff slots.length) =
      (extentHeader slots.length max depth gen ++ (slots.take pos).flatten) ++ (slots.drop pos).flatten := by
    rw [hcur, flatten_take_drop slots pos, append_assoc]
  refine ⟨by rw [hcur]; simp [length_flatten_slots hslots, slotOff], ?_⟩
  rw [hcur', take_left' hfront, drop_left' hfront]
  simp [combinedSlots]

include h

/-- The left half is already in place when the new entry goes to the right half. -/
theorem left_half {pos mid} (hpos : 1 ≤ pos) (hle : mid ≤ slots.length) :
    (if slotOff (pos - 1) < mid * 12 then
        splice data 12 ((combinedSlots slots pos entry).take mid).flatten else data) =
      splice data 12 ((combinedSlots slots pos entry).take mid).flatten := by
  split
  · rfl
  · rename_i hge
    have hmp : mid ≤ pos := by unfold slotOff at hge; omega
    have hsame : (combinedSlots slots pos entry).take mid = slots.take mid := by
      rw [combinedSlots, take_append_of_le_length (by simp; omega), take_take,
        Nat.min_eq_left hmp]
    obtain ⟨gen, rest, hdata⟩ := h.layout
    rw [hsame, hdata, flatten_take_drop slots mid, append_assoc,
      splice_append_at (by simp) rfl]

/-- The split of a full node: the two halves of the entries, the new one included. -/
theorem splitNode {pos phys ctx} {st : ExtState} (hfull : slots.length = max) (he : entry.length = 12) (hpos : 1 ≤ pos) (hle : pos ≤ slots.length) :
    match st.free with
    | [] => Ext4.splitNode ctx phys data (slotOff (pos - 1)) entry st = .error .noFreeBlock
    | blk :: free => ∃ data' buf,
      NodeBytes data' depth max ((combinedSlots slots pos entry).take ((slots.length + 1) / 2)) ∧
      NodeBytes buf depth 340 ((combinedSlots slots pos entry).drop ((slots.length + 1) / 2)) ∧
      data'.length = data.length ∧ buf.length = blockSz ∧
      Ext4.splitNode ctx phys data (slotOff (pos - 1)) entry st =
        .ok ((blk, getLe ((combinedSlots slots pos entry).drop ((slots.length + 1) / 2)).flatten 0 4), data',
          writeBackBlock ctx blk buf ((writeBackBlock ctx phys data' st).blockAdded free)) := by
  have hcap := h.cap_bounds
  have hlen := h.length_slots_le
  obtain ⟨gen, rest, hdata⟩ := h.layout
  obtain ⟨hcur, hcomb⟩ := @combined_eq data entry depth max slots pos gen rest h.slots_len hle hdata
  have hleft := @left_half data entry depth max slots h pos ((slots.length + 1) / 2) hpos (by omega)
  have hC := @combinedSlots_len entry slots h.slots_len he pos
  have hClen : (combinedSlots slots pos entry).length = slots.length + 1 := length_combinedSlots hle
  generalize combinedSlots slots pos entry = C at hcomb hleft hC hClen ⊢
  obtain ⟨mid, hmid⟩ : ∃ mid, mid = (slots.length + 1) / 2 := ⟨_, rfl⟩
  rw [← hmid] at hleft ⊢
  have hoff : slotOff (pos - 1) + 12 = slotOff pos := by unfold slotOff; omega
  have htake : ∀ x ∈ C.take mid, x.length = 12 := fun x hx => hC x (mem_of_mem_take hx)
  have htakelen : (C.take mid).length = mid := by
    rw [length_take, hClen]; omega
  have hdroplen : (C.drop mid).length = slots.length + 1 - mid := by rw [length_drop, hClen]
  have hfront : (extentHeader slots.length max depth gen ++ (C.take mid).flatten).length = slotOff mid := by
    rw [length_append, length_extentHeader, length_flatten_slots htake, htakelen, slotOff]
  have hslice : slice (extentHeader slots.length max depth gen ++ C.flatten) 12 (mid * 12) = (C.take mid).flatten := by
    rw [flatten_take_drop C mid]
    exact slice_append_at (by simp) (by rw [length_flatten_slots htake, htakelen])
  have hright : (extentHeader slots.length max depth gen ++ C.flatten).drop (slotOff mid) = (C.drop mid).flatten := by
    rw [flatten_take_drop C mid, ← append_assoc, drop_left' hfront]
  have hkey : getLe (extentHeader slots.length max depth gen ++ C.flatten) (slotOff mid) 4 =
      getLe (C.drop mid).flatten 0 4 := by
    rw [getLe, slice, hright, getLe, slice, drop_zero]
  obtain ⟨hkeep, hkeeplen⟩ := h.keepSlots htake (by omega)
  rw [htakelen] at hkeep hkeeplen
  have hmaxE : ehMax data = slots.length := by rw [h.ehMax_eq, hfull]
  obtain ⟨hblock, hblocklen⟩ := @blockNode depth (C.drop mid) (fun x hx => hC x (mem_of_mem_drop hx)) (by omega)
    h.depth_lt _ rfl
  rw [hdroplen] at hblock hblocklen
  have hguard : ¬ slotOff pos > slotOff slots.length := by unfold slotOff; omega
  cases hfree : st.free with
  | nil =>
    simp only [Ext4.splitNode, h.ehEntries_eq, hmaxE, ne_eq, not_true_eq_false, if_false, hoff, hcur,
      if_neg hguard, writeBackBlock_free, hfree]
  | cons blk free =>
    refine ⟨_, _, hkeep, hblock, hkeeplen, hblocklen, ?_⟩
    simp only [Ext4.splitNode, h.ehEntries_eq, hmaxE, ne_eq, not_true_eq_false, if_false, hoff, hcur,
      if_neg hguard, hcomb, ← hmid, hslice, hleft, hkeep.ehDepth_eq, hright, hkey, writeBackBlock_free, hfree]

/-- The upgraded root: an index node over two blocks. -/
theorem growRoot (ctx : ExtentCtx) (st : ExtState) (rightBlk rightFirst : Nat) (hroot : data.length = 60)
    (hne : slots ≠ []) (hd : depth + 1 < 2 ^ 16) :
    match st.free with
    | [] => Ext4.growRoot ctx data rightBlk rightFirst st = .error .noFreeBlock
    | blk :: free => ∃ data' buf,
      NodeBytes data' (depth + 1) 4
        [newIndex (getLe slots.flatten 0 4) blk, newIndex rightFirst rightBlk] ∧
      NodeBytes buf depth 340 slots ∧ data'.length = 60 ∧ buf.length = blockSz ∧
      Ext4.growRoot ctx data rightBlk rightFirst st =
        .ok (data', writeBackBlock ctx blk buf (st.blockAdded free)) := by
  have hcap := h.cap_bounds
  have hlen := h.length_slots_le
  obtain ⟨gen, rest, hdata⟩ := h.layout
  have hslice : slice data 12 (slots.length * 12) = slots.flatten := by
    rw [hdata]
    exact slice_append_at (by simp) (length_flatten_slots h.slots_len).symm
  obtain ⟨buf, hbuf⟩ : ∃ buf, splice (splice (replicate blockSz 0) 0 (extentHeader slots.length 340 depth 0)) 12
      slots.flatten = buf := ⟨_, rfl⟩
  obtain ⟨hblock, hblocklen⟩ := blockNode h.slots_len (by omega : slots.length ≤ 340) h.depth_lt hbuf
  have hkey : getLe buf 12 4 = getLe slots.flatten 0 4 := by
    obtain ⟨s, slots', rfl⟩ := exists_cons_of_ne_nil hne
    have hs : s.length = 12 := h.slots_len s (by simp)
    have hslot := @getLe_slot _ depth 340 [] slots' s hblock 0 4 (by decide)
    rw [show slotOff ([] : List (List UInt8)).length + 0 = 12 from rfl] at hslot
    rw [hslot, flatten_cons, getLe_append_left (by omega)]
  -- the root is a header and four slots; the first two are overwritten
  have hbody : ∃ b0 b1 b2, data = extentHeader slots.length max depth gen ++ (b0 ++ (b1 ++ b2)) ∧
      b0.length = 12 ∧ b1.length = 12 ∧ b2.length = 24 := by
    have hblen : (slots.flatten ++ rest).length = 48 := by
      have := congrArg length hdata
      rw [hroot, length_append, length_extentHeader] at this
      omega
    refine ⟨(slots.flatten ++ rest).take 12, ((slots.flatten ++ rest).drop 12).take 12,
      ((slots.flatten ++ rest).drop 12).drop 12, ?_, ?_, ?_, ?_⟩
    · rw [take_append_drop, take_append_drop, hdata]
    · rw [length_take, hblen]; rfl
    · rw [length_take, length_drop, hblen]; rfl
    · rw [length_drop, length_drop, hblen]
  obtain ⟨b0, b1, b2, hdata', h0, h1, h2⟩ := hbody
  have hidx : ∀ k b, (newIndex k b).length = 12 := by intro k b; simp [newIndex]
  have hroot' : ∀ k blk, splice (splice (splice data 0 (extentHeader 2 4 (depth + 1) 0)) 12
      (newIndex k blk)) 24 (newIndex rightFirst rightBlk) =
      extentHeader 2 4 (depth + 1) 0 ++ ([newIndex k blk, newIndex rightFirst rightBlk].flatten ++ b2) := by
    intro k blk
    have hhead := @splice_append_at _ [] (extentHeader slots.length max depth gen) (b0 ++ (b1 ++ b2))
      (extentHeader 2 4 (depth + 1) 0) 0 rfl (by simp)
    rw [nil_append, nil_append] at hhead
    rw [hdata', hhead, splice_append_at (by simp) (by rw [h0, hidx]), ← append_assoc,
      splice_append_at (by simp [hidx]) (by rw [h1, hidx])]
    simp
  cases hfree : st.free with
  | nil => simp only [Ext4.growRoot, hfree]
  | cons blk free =>
    have h60 : (extentHeader 2 4 (depth + 1) 0 ++
        ([newIndex (getLe slots.flatten 0 4) blk, newIndex rightFirst rightBlk].flatten ++ b2)).length = 60 := by
      simp [hidx, h2]
    refine ⟨_, buf, ⟨⟨0, b2, rfl⟩, ?_, .inl h60, by simp, ?_, hd⟩, hblock, h60, hblocklen, ?_⟩
    · intro x hx
      simp only [mem_cons, not_mem_nil, or_false] at hx
      rcases hx with rfl | rfl <;> exact hidx _ _
    · exact (if_pos h60).ge
    · simp only [Ext4.growRoot, hfree, h.ehEntries_eq, h.ehDepth_eq, hslice, hbuf, hkey, Nat.mod_eq_of_lt hd, hroot']
      rfl

end NodeBytes

end ShellCore.Ext4
