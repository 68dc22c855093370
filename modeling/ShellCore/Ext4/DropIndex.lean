import ShellCore.Ext4.DirRefine

/-!
# Dropping the hash index of a directory

The root block of a depth-zero hash-indexed directory is `.` followed by a `..` whose slack holds the index. Dropping the
index clears that slack and cuts a checksum tail off it, so the block becomes a linear one with the same live records.
-/

namespace ShellCore.Ext4

open ByteBuf List Record

/-- The records of the root block of a depth-zero hash index. -/
structure IndexRoot (dot dotdot : Record) : Prop where
  dotName : dot.name = [0x2E]
  dotInode : dot.inode ≠ 0
  dotLen : dot.recLen = 12
  name : dotdot.name = [0x2E, 0x2E]
  inode : dotdot.inode ≠ 0
  len : dotdot.recLen = blockSz - 12
  /-- `dx_root_info` after the padding of the name: any hash, a length of eight and no levels. -/
  info : ∃ pad hash rest, pad.length = 2 ∧ dotdot.slack = pad ++ ([0, 0, 0, 0, hash, 8, 0] ++ rest)

/-- A hash-indexed directory with that root, and linear blocks behind it. -/
structure IndexedDir (di : DirInode) (d : Dir) (dot dotdot : Record) (bs : List (List Record)) : Prop where
  inode : DirInodeOk di
  indexed : d.indexed = true
  data : d.data = encode [dot, dotdot] ++ (bs.map (blockBytes di)).flatten
  root : IndexRoot dot dotdot
  blocks : ∀ rs ∈ bs, BlockOk di rs

/-- A live entry with that name, inode and type. -/
def DirEntry.isBinding (e : DirEntry) (x : List UInt8 × Nat × Nat) : Bool :=
  e.inode ≠ 0 && (e.nameBytes, e.inode, e.fileType) = x

/-- A linear scan of the blocks finds the entry. -/
def Dir.Lists (d : Dir) (x : List UInt8 × Nat × Nat) : Prop :=
  scanDir (fun _ read => scanBlock 1 (fun _ _ e => if e.isBinding x then some () else none) read read.length none 0)
    d.data (blockOffsets d.data.length) = .found ()

/-! ## What a scan finds -/

theorem isBinding_entry {r : Record} {x} : r.entry.isBinding x = true ↔ r.binding = some x := by
  simp only [DirEntry.isBinding, nameBytes_entry, Bool.and_eq_true, decide_eq_true_eq, binding]
  exact (Option.ite_none_left_eq_some.trans (and_congr_right fun _ => Option.some_inj)).symm

theorem lists_iff {d : Dir} {bs : List (List Record)} (hdata : d.data = (bs.map encode).flatten)
    (hlen : ∀ rs ∈ bs, (encode rs).length = blockSz) (x : List UInt8 × Nat × Nat) :
    d.Lists x ↔ x ∈ bindings bs.flatten := by
  have hblocks : ∀ b ∈ bs.map encode, b.length = blockSz := by simpa using hlen
  have hskip : ∀ rs : List Record, (∀ r ∈ rs, r.entry.isBinding x = false) → ∀ r ∈ rs, ∀ (_ : Option Nat) (_ : Nat),
      (if r.entry.isBinding x then some () else none) = none := by
    intro rs h r hr _ _
    rw [h r hr]
    rfl
  have hdone : ∀ bs : List (List Record), (∀ rs ∈ bs, ∀ r ∈ rs, r.entry.isBinding x = false) → ∀ b ∈ bs.map encode,
      ∀ _ : Nat, ∃ o, scanBlock 1 (fun _ _ e => if e.isBinding x then some () else none) b b.length none 0 = .done o := by
    intro bs h b hb _
    obtain ⟨rs, hrs, rfl⟩ := mem_map.1 hb
    exact ⟨_, scanBlock_done (by decide) (by decide) (hskip rs (h rs hrs))⟩
  unfold Dir.Lists
  rw [hdata]
  rcases first_record (fun r => r.entry.isBinding x) bs with hnone | ⟨bpre, pre, r, post, bpost, rfl, hbefore, hpre, hr⟩
  · rw [scanDir_done hblocks (hdone bs hnone)]
    refine iff_of_false nofun fun hmem => ?_
    obtain ⟨r, hr, hx⟩ := mem_filterMap.1 hmem
    obtain ⟨rs, hrs, hr⟩ := mem_flatten.1 hr
    have := hnone rs hrs r hr
    rw [isBinding_entry.2 hx] at this
    cases this
  · rw [map_append, map_cons] at hblocks ⊢
    refine iff_of_true (scanDir_found hblocks (hdone bpre hbefore) ?_) ?_
    · exact scanBlock_found (by decide) (hskip pre hpre) (if_pos hr)
    · rw [bindings_around, bindings_append, bindings_cons, isBinding_entry.1 hr]
      simp

theorem bindings_withTails (di : DirInode) (c : List Record → UInt32) (bs : List (List Record)) :
    bindings (bs.map fun rs => rs ++ tailWith di (c rs)).flatten = bindings bs.flatten := by
  have htail : ∀ c, bindings (tailWith di c) = [] := by
    intro c
    unfold tailWith
    split <;> rfl
  induction bs with
  | nil => rfl
  | cons rs bs ih => rw [map_cons, flatten_cons, flatten_cons, bindings_append, bindings_append, htail, ih,
      append_nil, bindings_append]

/-- The tail of a block lists nothing. -/
theorem lists_linear {di} {d : Dir} {bs : List (List Record)} (hdata : d.data = (bs.map (blockBytes di)).flatten)
    (hok : ∀ rs ∈ bs, BlockOk di rs) (x : List UInt8 × Nat × Nat) : d.Lists x ↔ x ∈ bindings bs.flatten := by
  have hfull := @lists_iff d (bs.map fun rs => rs ++ tailWith di (dirBlockCrc di (encode rs))) (by
    rw [hdata, map_map]
    rfl) (by
    intro ss hss
    obtain ⟨rs, hrs, rfl⟩ := mem_map.1 hss
    exact (hok rs hrs).size) x
  rw [hfull, bindings_withTails]

/-- The index in the root block lists nothing either. -/
theorem IndexedDir.lists {di} {d : Dir} {dot dotdot} {bs : List (List Record)}
    (h : IndexedDir di d dot dotdot bs) (x : List UInt8 × Nat × Nat) :
    d.Lists x ↔ x ∈ bindings ([dot, dotdot] ++ bs.flatten) := by
  have hfull := @lists_iff d ([dot, dotdot] :: bs.map fun rs => rs ++ tailWith di (dirBlockCrc di (encode rs))) (by
    rw [h.data, map_cons, map_map]
    rfl) (by
    refine forall_mem_cons.2 ⟨by simp [h.root.dotLen, h.root.len, blockSz], fun ss hss => ?_⟩
    obtain ⟨rs, hrs, rfl⟩ := mem_map.1 hss
    exact (h.blocks rs hrs).size) x
  rw [hfull, flatten_cons, bindings_append, bindings_append, bindings_withTails]

/-! ## The edit of the root block -/

/-- Any last twelve bytes of a block are overwritten with an empty checksum tail. -/
theorem writeTail {a x off} (ha : off = a.length) (hx : x.length = 12) :
    setLe (setLe (splice (a ++ x) off (replicate 12 0)) (off + 4) 2 12) (off + 7) 1 0xDE =
      a ++ (tailRecord 0).bytes := by
  have hclear : splice (a ++ (x ++ [])) off (replicate 12 (0 : UInt8)) = a ++ (replicate 12 0 ++ []) :=
    splice_append_at ha (by rw [hx, length_replicate])
  have hzero : replicate 12 (0 : UInt8) = header 0 0 0 0 ++ replicate 4 0 := by decide
  have htail : (tailRecord 0).bytes = header 0 12 0 0xDE ++ replicate 4 0 := by decide
  rw [append_nil, append_nil, hzero] at hclear
  rw [hzero, hclear, setLe_append_right (o := 4) (by rw [ha]), setLe_header_recLen,
    setLe_append_right (o := 7) (by rw [ha]), setLe_header_fileType, htail]

variable {di : DirInode} {d : Dir} {dot dotdot : Record} {bs : List (List Record)}

/-- The root block is a fixed front of 24 bytes and then the slack of `..` after the padding of its name. -/
theorem IndexRoot.front (h : IndexRoot dot dotdot) {pad} (hpad : pad.length = 2) (len : Nat) :
    ∃ front : List UInt8, front.length = 24 ∧ ∀ (r : Record) (x : List UInt8), r.name = dotdot.name → r.inode = dotdot.inode →
      r.fileType = dotdot.fileType → r.recLen = len → r.slack = pad ++ x → dot.bytes ++ r.bytes = front ++ x := by
  refine ⟨dot.bytes ++ (header dotdot.inode len dotdot.name.length dotdot.fileType ++ (dotdot.name ++ pad)), ?_, ?_⟩
  · simp [h.dotLen, h.name, hpad]
  · intro r x hname hinode htype hlen hslack
    have hr : r.bytes = header r.inode r.recLen r.name.length r.fileType ++ (r.name ++ r.slack) := rfl
    rw [hr, hname, hinode, htype, hlen, hslack]
    simp only [append_assoc]

/-- The edit makes the root block linear: `..` keeps its binding and ends at the tail. -/
theorem prepareDirectoryForMutation_indexed (h : IndexedDir di d dot dotdot bs) :
    ∃ s : Record, s.binding = dotdot.binding ∧ BlockOk di [dot, s] ∧
      prepareDirectoryForMutation di d = (true, invalidateDirLookupCache di
        { d with data := (([dot, s] :: bs).map (blockBytes di)).flatten, indexed := false }) := by
  obtain ⟨pad, hash, rest, hpad, hslack⟩ := h.root.info
  have hB : blockSz = 4096 := rfl
  have hname : dotdot.name.length = 2 := by rw [h.root.name]; rfl
  have hlen : 8 + dotdot.name.length + dotdot.slack.length = blockSz - 12 := h.root.len
  rw [hname, hslack] at hlen
  simp only [length_append, length_cons, length_nil, hpad] at hlen
  obtain ⟨size, hsize⟩ : ∃ size, size = if di.hasMetadataCsum then 12 else 0 := ⟨_, rfl⟩
  have hle : size ≤ 12 ∧ size % 4 = 0 := by
    rw [hsize]
    split <;> decide
  -- the index up to the tail, and what becomes the tail
  obtain ⟨n, hn⟩ : ∃ n, n + size = blockSz - 24 := ⟨blockSz - 24 - size, by omega⟩
  obtain ⟨mid, last, hmid, hlast, hindex⟩ : ∃ mid last : List UInt8, mid.length = n ∧ last.length = size ∧
      [0, 0, 0, 0, hash, 8, 0] ++ rest = mid ++ last := by
    refine ⟨_, _, ?_, ?_, (take_append_drop n _).symm⟩ <;> simp <;> omega
  let s' := dotdot.withSlack (pad ++ mid) (by simp [hname, hpad, hmid]; omega) (by simp [hname, hpad, hmid]; omega)
  let s := dotdot.withSlack (pad ++ replicate n 0) (by simp [hname, hpad]; omega) (by simp [hname, hpad]; omega)
  have hrecLen : s'.recLen = 12 + n ∧ s.recLen = 12 + n := by
    constructor <;> simp [s, s', recLen, withSlack, hname, hpad, hmid] <;> omega
  have hdot : dot.bytes.length = 12 := by rw [length_bytes, h.root.dotLen]
  have hroot : slice d.data 0 blockSz = dot.bytes ++ dotdot.bytes := by
    rw [h.data]
    simpa using @slice_append_at _ [] (dot.bytes ++ dotdot.bytes) _ 0 blockSz rfl (by simp [h.root.dotLen, h.root.len, hB])
  have hparse : DirEntry.fromBytes ((dot.bytes ++ dotdot.bytes).drop 12) = some dotdot.entry := by
    rw [drop_left' hdot]
    simpa using dotdot.fromBytes_bytes []
  have hreal : dotdot.entry.realLen = 12 := by rw [entry_realLen, realLen, hname]
  have hinfo : slice (dot.bytes ++ dotdot.bytes) 24 4 = [0, 0, 0, 0] ∧ getLe (dot.bytes ++ dotdot.bytes) 29 1 = 8 ∧
      getLe (dot.bytes ++ dotdot.bytes) 30 1 = 0 := by
    obtain ⟨front, hfront, hbytes⟩ := h.root.front hpad (blockSz - 12)
    rw [hbytes dotdot _ rfl rfl rfl h.root.len hslack]
    refine ⟨?_, ?_, ?_⟩
    · exact @slice_append_at _ front [0, 0, 0, 0] (hash :: 8 :: 0 :: rest) 24 4 hfront.symm rfl
    · have hlength := @getLe_append 29 1 8 (front ++ [0, 0, 0, 0, hash]) (0 :: rest) (by simp [hfront])
      rw [append_assoc] at hlength
      exact hlength
    · have hlevels := @getLe_append 30 1 0 (front ++ [0, 0, 0, 0, hash, 8]) rest (by simp [hfront])
      rw [append_assoc] at hlevels
      exact hlevels
  have hset : modifySlice (dot.bytes ++ dotdot.bytes) 12 blockSz (DirEntry.setRecLen · (blockSz - size - 12)) =
      some (dot.bytes ++ (s'.bytes ++ last)) := by
    have hrec := @setRecLen_bytes dotdot s' [] last rfl rfl rfl (by simp [s', withSlack, hslack, hindex])
    rw [append_nil, hrecLen.1, show 12 + n = blockSz - size - 12 by omega] at hrec
    refine modifySlice_append hdot.symm (by simp [h.root.dotLen, h.root.len, hB]) hrec ?_
    simp only [length_bytes, length_append, hrecLen, h.root.len, hlast]
    omega
  have hclear : splice (dot.bytes ++ (s'.bytes ++ last)) 24 (replicate (blockSz - size - 24) 0) =
      dot.bytes ++ s.bytes ++ last := by
    obtain ⟨front, hfront, hbytes⟩ := h.root.front hpad (12 + n)
    rw [← append_assoc, hbytes s' mid rfl rfl rfl hrecLen.1 rfl, hbytes s _ rfl rfl rfl hrecLen.2 rfl, append_assoc,
      append_assoc, show blockSz - size - 24 = n by omega]
    exact splice_append_at hfront.symm (by rw [hmid, length_replicate])
  have hok : BlockOk di [dot, s] := by
    refine ⟨?_, ?_⟩
    · have htail : (encode (tailWith di (dirBlockCrc di (encode [dot, s])))).length = size := by
        unfold tailWith
        rw [hsize]
        split <;> simp
      rw [blockBytes, encode_append, length_append, htail]
      simp only [encode_cons, encode_nil, length_append, length_bytes, h.root.dotLen, hrecLen.2, length_nil]
      omega
    · intro r hr
      rcases mem_pair.1 hr with rfl | rfl
      · exact proper_of_name (by simp [h.root.dotName])
      · exact proper_of_name (r := s) (by simp [s, withSlack, h.root.name])
  have htail : (if size ≠ 0 then updateDirBlockChecksumIfNeeded di (setLe (setLe (splice (dot.bytes ++ s.bytes ++ last)
      (blockSz - size) (replicate size 0)) (blockSz - size + 4) 2 12) (blockSz - size + 7) 1 0xDE)
      else dot.bytes ++ s.bytes ++ last) = blockBytes di [dot, s] := by
    by_cases hc : di.hasMetadataCsum
    · rw [if_pos hc] at hsize
      subst hsize
      rw [if_pos (by decide), writeTail (by simp [h.root.dotLen, hrecLen.2]; omega) hlast]
      have hfull : dot.bytes ++ s.bytes ++ (tailRecord 0).bytes = encode ([dot, s] ++ tailWith di 0) := by
        simp [tailWith, hc]
      rw [hfull]
      refine updateDirBlockChecksumIfNeeded_encode h.inode ?_
      rw [← hok.size, blockBytes, encode_append, encode_append, length_append, length_append,
        length_encode_tailWith di 0]
    · rw [if_neg hc] at hsize
      subst hsize
      rw [if_neg (by decide), eq_nil_of_length_eq_zero hlast, blockBytes, tailWith, if_neg hc]
      simp
  have hdata : splice d.data 0 (blockBytes di [dot, s]) = (([dot, s] :: bs).map (blockBytes di)).flatten := by
    rw [h.data]
    simpa using @splice_append_at _ [] (encode [dot, dotdot]) (bs.map (blockBytes di)).flatten _ 0 rfl
      (by rw [hok.size]; simp [h.root.dotLen, h.root.len, hB])
  have hdlen : blockSz ≤ d.data.length := by
    rw [h.data]
    simp [h.root.dotLen, h.root.len, hB]
    omega
  refine ⟨s, rfl, hok, ?_⟩
  unfold prepareDirectoryForMutation
  rw [if_neg (by simp [h.indexed]), if_neg (by simp [h.inode.isDir]; omega)]
  simp only [hroot, fromBytes_bytes, entry_inode, nameBytes_entry, entry_recLen, h.root.dotLen,
    h.root.dotName, h.root.dotInode, hparse, h.root.inode, h.root.name, hreal, h.root.len, hinfo, ← hsize]
  rw [if_neg (by simp), if_neg (by simp [hB]), if_neg (by simp [hB]), if_neg (by omega)]
  simp only [hset, hclear, htail, writeBlockAt, hdata, hok.size]
  rw [if_pos (Or.inl (by omega)), if_neg (by simp)]

/-! ## A refused edit -/

theorem length_setRecLen {buf out len} (h : DirEntry.setRecLen buf len = some out) :
    out.length = buf.length := by
  unfold DirEntry.setRecLen at h
  split at h
  · cases h
  · rename_i hdec
    have hbuf : ¬buf.length < dirEntryHeaderLen := (Option.ite_none_left_eq_some.1 hdec).1
    cases (Option.ite_none_left_eq_some.1 h).2
    exact length_setLe (by unfold dirEntryHeaderLen at hbuf; omega)

theorem length_updateDirBlockChecksumIfNeeded {buf} (h : buf.length = blockSz) :
    (updateDirBlockChecksumIfNeeded di buf).length = blockSz := by
  have hB : blockSz = 4096 := rfl
  have hzero : (splice buf (blockSz - 12 + 8) (replicate 4 0)).length = blockSz := by
    rw [length_splice (by rw [length_replicate]; omega), h]
  unfold updateDirBlockChecksumIfNeeded
  dsimp only
  split_ifs <;> first | exact h | exact (length_setLe (by omega)).trans hzero

/-- The block that is written has the size of a block, so no refusal comes after the write. -/
theorem prepareDirectoryForMutation_refused (h : (prepareDirectoryForMutation di d).1 = false) :
    (prepareDirectoryForMutation di d).2 = d := by
  have hB : blockSz = 4096 := rfl
  generalize hr : prepareDirectoryForMutation di d = r at h ⊢
  have hsize : ∃ size, (if di.hasMetadataCsum then 12 else 0) = size ∧ (size ≠ 0 → size = 12) :=
    ⟨_, rfl, by split <;> simp⟩
  obtain ⟨size, hsize, htwelve⟩ := hsize
  unfold prepareDirectoryForMutation at hr
  rw [hsize] at hr
  dsimp only at hr
  split at hr
  · cases hr
    cases h
  iterate 8 (split at hr; · cases hr; rfl)
  rename_i hlen _ dot _ hdot _ dotdot _ _ _ hroom _ root hset
  have hdata : blockSz ≤ d.data.length := by
    simp only [Bool.or_eq_true, decide_eq_true_eq, not_or] at hlen
    omega
  have hbefore : (slice d.data 0 blockSz).length = blockSz := length_slice (by omega)
  have hafter : root.length = blockSz := by
    obtain ⟨rec, hrec, rfl⟩ := Option.map_eq_some_iff.1 hset
    have hreclen := length_setRecLen hrec
    rw [length_splice, hbefore]
    rw [hreclen, length_slice] <;> omega
  have hclear : (splice root (dot.recLen + dotdot.realLen)
      (replicate (blockSz - size - (dot.recLen + dotdot.realLen)) 0)).length = blockSz := by
    rw [length_splice, hafter]
    rw [length_replicate]
    omega
  generalize splice root (dot.recLen + dotdot.realLen)
    (replicate (blockSz - size - (dot.recLen + dotdot.realLen)) 0) = cleared at hr hclear
  have hzero : (splice cleared (blockSz - size) (replicate size 0)).length = blockSz := by
    rw [length_splice, hclear]
    rw [length_replicate]
    omega
  rw [writeBlockAt, if_pos (Or.inl (by omega)), if_neg] at hr
  · subst hr
    cases h
  · rw [not_not]
    dsimp only
    split
    · rename_i hs
      have hs := htwelve hs
      refine length_updateDirBlockChecksumIfNeeded ?_
      have hlenField : (setLe (splice cleared (blockSz - size) (replicate size 0)) (blockSz - size + 4) 2 12).length =
          blockSz := (length_setLe (by omega)).trans hzero
      exact (length_setLe (by omega)).trans hlenField
    · exact hclear

/-! ## Dropping the index -/

/-- Dropping the index of a standard depth-zero directory leaves a linear directory with the same entries, and a call that
refuses changes nothing. -/
theorem prepareDirectoryForMutation_keeps_entries (di : DirInode) (d : Dir) :
    (∀ dot dotdot bs, IndexedDir di d dot dotdot bs → ∃ (d' : Dir) (bs' : List (List Record)),
      prepareDirectoryForMutation di d = (true, d') ∧ d'.indexed = false ∧ d'.data = (bs'.map (blockBytes di)).flatten ∧
      (∀ rs ∈ bs', BlockOk di rs) ∧ ∀ x, d'.Lists x ↔ d.Lists x) ∧
    ((prepareDirectoryForMutation di d).1 = false → (prepareDirectoryForMutation di d).2 = d) := by
  refine ⟨?_, prepareDirectoryForMutation_refused⟩
  intro dot dotdot bs h
  obtain ⟨s, hs, hok, hrun⟩ := prepareDirectoryForMutation_indexed h
  have hblocks : ∀ rs ∈ [dot, s] :: bs, BlockOk di rs := forall_mem_cons.2 ⟨hok, h.blocks⟩
  have hinv : ∀ d, invalidateDirLookupCache di d = { d with cache := d.cache.nextGeneration } := by
    intro d
    rw [invalidateDirLookupCache, if_neg (by simp [h.inode.isDir])]
  rw [hinv] at hrun
  refine ⟨_, [dot, s] :: bs, hrun, rfl, rfl, hblocks, fun x => ?_⟩
  rw [lists_linear rfl hblocks, h.lists]
  simp [bindings_cons, hs]

/-- The `..` of a root block with an index that uses hash 1. -/
def indexedDotDot : Record :=
  rootDotDot.withSlack ([0, 0] ++ ([0, 0, 0, 0, 1, 8, 0] ++ replicate 4065 0)) (by decide +kernel) (by decide +kernel)

/-- The entry of a file that fills a leaf block. -/
def leafEntry : Record :=
  fresh [0x61] 12 1 4084 (by decide) (by decide) (by decide) (by decide) (by decide) (by decide)

def indexedRoot : Dir := ⟨encode [rootDot, indexedDotDot] ++ blockBytes rootInode [leafEntry], true, ⟨0, ∅⟩⟩

theorem prepareDirectoryForMutation_indexedRoot :
    ∃ d', prepareDirectoryForMutation rootInode indexedRoot = (true, d') ∧ d'.indexed = false ∧
      ∀ x, d'.Lists x ↔ indexedRoot.Lists x := by
  have hleaf : leafEntry.recLen = 4084 := recLen_fresh ..
  have h : IndexedDir rootInode indexedRoot rootDot indexedDotDot [[leafEntry]] := by
    refine ⟨⟨rfl, fun _ => rfl⟩, rfl, ?_, ?_, ?_⟩
    · simp [indexedRoot]
    · exact ⟨rfl, by decide, recLen_fresh .., rfl, by decide, by decide +kernel, [0, 0], 1, _, rfl, rfl⟩
    · exact forall_mem_singleton.2 (rootInode_blockOk (by simp [hleaf]) (forall_mem_singleton.2 (cons_ne_nil _ _)))
  obtain ⟨d', _, hrun, hflag, -, -, hlists⟩ := (prepareDirectoryForMutation_keeps_entries rootInode indexedRoot).1 _ _ _ h
  exact ⟨d', hrun, hflag, hlists⟩

end ShellCore.Ext4
