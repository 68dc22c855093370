import ShellCore.Ext4.DirEdit
import ShellCore.Lib.FiniteMap

/-!
# Directories refine finite maps

`DirRep` relates a directory to the blocks of records it is made of and to the map from names to
inode and type that its live records denote. Every operation preserves the relation and acts on the
map as the abstract operation does; `dirRun_refines` is the statement for whole runs.
-/

namespace ShellCore.Ext4

open Function ByteBuf FiniteMap List

/-- The abstract directory. -/
abbrev NameMap := List UInt8 → Option (Nat × Nat)

/-- Every cached name is in the directory, with the cached target. -/
def CacheOk (c : DirLookupCache) (m : NameMap) : Prop :=
  ∀ name e, c.entries.lookup name = some e → m name = some (e.inodeId, e.fileType)

/-- A linear directory made of the blocks `bs`, whose live records are the graph of `m`. -/
structure DirRep (di : DirInode) (d : Dir) (bs : List (List Record)) (m : NameMap) : Prop where
  inode : DirInodeOk di
  linear : d.indexed = false
  data : d.data = (bs.map (blockBytes di)).flatten
  blocks : ∀ rs ∈ bs, BlockOk di rs
  map : Represents (bindings bs.flatten) m
  cache : CacheOk d.cache m

/-! ## The name cache -/

section Cache

variable {di : DirInode} {c : DirLookupCache} {m : NameMap} {name : List UInt8} {inodeId fileType : Nat}

theorem CacheOk.nextGeneration : CacheOk c.nextGeneration m := by
  intro n e h
  simp [DirLookupCache.nextGeneration] at h

theorem cacheOk_insert {entries g}
    (h : CacheOk ⟨g, entries⟩ m) (hm : m name = some (inodeId, fileType)) :
    CacheOk ⟨g, entries.insert name ⟨inodeId, fileType⟩⟩ m := by
  intro n e he
  by_cases hn : n = name
  · subst hn
    rw [AList.lookup_insert] at he
    cases he
    exact hm
  · rw [AList.lookup_insert_ne hn] at he
    exact h n e he

theorem CacheOk.remember (h : CacheOk c m) (hm : m name = some (inodeId, fileType)) :
    CacheOk (c.remember name inodeId fileType) m := by
  unfold DirLookupCache.remember
  split
  · exact h
  split
  · exact cacheOk_insert h hm
  split
  · refine cacheOk_insert ?_ hm
    intro n e he
    simp at he
  · exact cacheOk_insert h hm

end Cache

/-! ## Finding a record -/

/-- Either no record of the blocks satisfies `p`, or there is a first one. -/
theorem first_record (p : Record → Bool) (bs : List (List Record)) :
    (∀ rs ∈ bs, ∀ x ∈ rs, p x = false) ∨
    ∃ bpre pre r post bpost, bs = bpre ++ (pre ++ r :: post) :: bpost ∧
      (∀ rs ∈ bpre, ∀ x ∈ rs, p x = false) ∧ (∀ x ∈ pre, p x = false) ∧ p r = true := by
  induction bs with
  | nil => exact Or.inl (by simp)
  | cons rs bs ih =>
    by_cases hrs : ∀ x ∈ rs, p x = false
    · rcases ih with hall | ⟨bpre, pre, r, post, bpost, rfl, hb, hpre, hr⟩
      · refine Or.inl ?_
        intro ss hss
        rcases mem_cons.1 hss with rfl | hss
        · exact hrs
        · exact hall ss hss
      · refine Or.inr ⟨rs :: bpre, pre, r, post, bpost, rfl, ?_, hpre, hr⟩
        intro ss hss
        rcases mem_cons.1 hss with rfl | hss
        · exact hrs
        · exact hb ss hss
    · have hex : ∃ x ∈ rs, p x = true := by simpa using hrs
      obtain ⟨pre, r, post, rfl, hpre, hr⟩ : ∃ pre r post, rs = pre ++ r :: post ∧
          (∀ x ∈ pre, p x = false) ∧ p r = true := by
        obtain ⟨r, hfind⟩ := Option.isSome_iff_exists.1 (find?_isSome.2 hex)
        obtain ⟨hr, pre, post, rfl, hpre⟩ := find?_eq_some_iff_append.1 hfind
        exact ⟨pre, r, post, rfl, by simpa using hpre, hr⟩
      exact Or.inr ⟨[], pre, r, post, bs, rfl, by simp, hpre, hr⟩

section Rep

variable {di : DirInode} {d : Dir} {bs bpre bpost : List (List Record)} {m m' : NameMap}
  {name : List UInt8} {inodeId fileType : Nat} {pre post : List Record} {r : Record}

theorem DirRep.length_blocks (h : DirRep di d bs m) : ∀ b ∈ bs.map (blockBytes di), b.length = blockSz := by
  intro b hb
  obtain ⟨rs, hrs, rfl⟩ := mem_map.1 hb
  exact (h.blocks rs hrs).size

theorem DirRep.scanDir_done {β : Type} {body : Nat → List UInt8 → Scan β} (h : DirRep di d bs m)
    (hdone : ∀ rs ∈ bs, ∀ k, ∃ o, body k (blockBytes di rs) = .done o) :
    scanDir body d.data (blockOffsets d.data.length) = .done 0 := by
  rw [h.data]
  apply Ext4.scanDir_done h.length_blocks
  intro b hb k
  obtain ⟨rs, hrs, rfl⟩ := mem_map.1 hb
  exact hdone rs hrs k

theorem DirRep.scanDir_found {β : Type} {body : Nat → List UInt8 → Scan β} {rs v}
    (h : DirRep di d (bpre ++ rs :: bpost) m)
    (hdone : ∀ rs ∈ bpre, ∀ k, ∃ o, body k (blockBytes di rs) = .done o)
    (hrs : body (bpre.length * blockSz) (blockBytes di rs) = .found v) :
    scanDir body d.data (blockOffsets d.data.length) = .found v := by
  have hlen := h.length_blocks
  rw [map_append, map_cons] at hlen
  rw [h.data, map_append, map_cons]
  apply Ext4.scanDir_found hlen
  · intro b hb k
    obtain ⟨ss, hss, rfl⟩ := mem_map.1 hb
    exact hdone ss hss k
  · rwa [length_map]

theorem bindings_around (bpre bpost : List (List Record)) (rs : List Record) :
    bindings (bpre ++ rs :: bpost).flatten =
      bindings bpre.flatten ++ (bindings rs ++ bindings bpost.flatten) := by
  simp

/-- What is written for an image of `rs` is the block of `rs`. -/
theorem DirInodeOk.block_of_image {rs buf} (h : DirInodeOk di) (himg : BlockImage di rs buf) :
    updateDirBlockChecksumIfNeeded di buf = blockBytes di rs ∧ BlockOk di rs := by
  obtain ⟨⟨c, rfl⟩, hsize, hproper⟩ := himg
  refine ⟨updateDirBlockChecksumIfNeeded_encode h hsize, ?_, hproper⟩
  rw [← hsize, blockBytes, encode_append, encode_append, length_append, length_append,
    length_encode_tailWith di _ c]

/-- The directory with one block exchanged for an image of `rs'`. -/
theorem DirRep.storeBlock {rs rs' buf} {k : Dir → Dir}
    (h : DirRep di d (bpre ++ rs :: bpost) m) (room : Bool) (himg : BlockImage di rs' buf)
    (hmap : Represents (bindings (bpre ++ rs' :: bpost).flatten) m')
    (hk : ∀ d', (k d').data = d'.data ∧ (k d').indexed = d'.indexed ∧ CacheOk (k d').cache m') :
    ∃ d', storeBlock di room d (bpre.length * blockSz) buf k = (true, d') ∧
      DirRep di d' (bpre ++ rs' :: bpost) m' := by
  obtain ⟨hupd, hok⟩ := h.inode.block_of_image himg
  have hpre : ((bpre.map (blockBytes di)).flatten).length = bpre.length * blockSz := by
    rw [length_flatten_blocks, length_map]
    intro b hb
    obtain ⟨ss, hss, rfl⟩ := mem_map.1 hb
    exact (h.blocks ss (by simp [hss])).size
  have hdata : d.data = (bpre.map (blockBytes di)).flatten ++
      (blockBytes di rs ++ (bpost.map (blockBytes di)).flatten) := by
    rw [h.data]; simp
  have hrs : (blockBytes di rs).length = blockSz := (h.blocks rs (by simp)).size
  have hin : bpre.length * blockSz < d.data.length := by
    rw [hdata, length_append, length_append, hpre, hrs]
    unfold blockSz; omega
  have hsplice : splice d.data (bpre.length * blockSz) (blockBytes di rs') =
      ((bpre ++ rs' :: bpost).map (blockBytes di)).flatten := by
    rw [hdata, splice_append_at hpre.symm (by rw [hrs, hok.size])]
    simp
  obtain ⟨hkd, hki, hkc⟩ := hk { d with data := ((bpre ++ rs' :: bpost).map (blockBytes di)).flatten }
  refine ⟨k { d with data := ((bpre ++ rs' :: bpost).map (blockBytes di)).flatten }, ?_, ?_⟩
  · simp only [Ext4.storeBlock, writeBlockAt, hupd]
    rw [if_pos (Or.inl hin), hsplice, if_pos hok.size]
  · refine ⟨h.inode, by rw [hki]; exact h.linear, hkd, ?_, hmap, hkc⟩
    intro ss hss
    simp only [mem_append, mem_cons] at hss
    rcases hss with hss | rfl | hss
    · exact h.blocks ss (by simp [hss])
    · exact hok
    · exact h.blocks ss (by simp [hss])

theorem commit_effect (hdir : di.isDir = true) (hne : name ≠ []) (hm : m' name = some (inodeId, fileType))
    (d : Dir) : (commitDirLookupCacheEntry di d name inodeId fileType).data = d.data ∧
      (commitDirLookupCacheEntry di d name inodeId fileType).indexed = d.indexed ∧
      CacheOk (commitDirLookupCacheEntry di d name inodeId fileType).cache m' := by
  simp only [commitDirLookupCacheEntry, hdir, Bool.not_true, Bool.false_eq_true, if_false, if_neg hne,
    true_and]
  exact CacheOk.nextGeneration.remember hm

theorem invalidate_effect (hdir : di.isDir = true) (d : Dir) :
    (invalidateDirLookupCache di d).data = d.data ∧ (invalidateDirLookupCache di d).indexed = d.indexed ∧
      CacheOk (invalidateDirLookupCache di d).cache m' := by
  simp only [invalidateDirLookupCache, hdir, Bool.not_true, Bool.false_eq_true, if_false, true_and]
  exact CacheOk.nextGeneration

theorem DirRep.prepare (h : DirRep di d bs m) : prepareDirectoryForMutation di d = (true, d) := by
  simp [prepareDirectoryForMutation, h.linear]

/-- A name no record carries is absent from the map. -/
theorem DirRep.absent (h : DirRep di d bs m) (hall : ∀ rs ∈ bs, ∀ x ∈ rs, x.entry.isNamed name = false) :
    m name = none := by
  refine h.map.lookup_eq_none_iff.2 ?_
  rintro ⟨k, v⟩ he rfl
  obtain ⟨x, hx, hb⟩ := mem_filterMap.1 he
  obtain ⟨rs, hrs, hx⟩ := mem_flatten.1 hx
  exact binding_ne_of_not_isNamed (hall rs hrs x hx) v hb

/-- The map and the bindings at the first record with the name. -/
theorem DirRep.present (h : DirRep di d (bpre ++ (pre ++ r :: post) :: bpost) m)
    (hr : r.entry.isNamed name = true) :
    m name = some (r.inode, r.fileType) ∧
      Represents ((bindings bpre.flatten ++ bindings pre) ++
        (name, r.inode, r.fileType) :: (bindings post ++ bindings bpost.flatten)) m := by
  have hmap := h.map
  rw [bindings_around, bindings_append, bindings_cons, binding_of_isNamed hr] at hmap
  have hrep : Represents ((bindings bpre.flatten ++ bindings pre) ++
      (name, r.inode, r.fileType) :: (bindings post ++ bindings bpost.flatten)) m := by
    simpa using hmap
  exact ⟨hrep.lookup_mid, hrep⟩

/-- A scan that passes the blocks without the name ends if the name is absent, and otherwise stops at its record. -/
theorem DirRep.scan_named {β : Type} (h : DirRep di d bs m) (body : Nat → List UInt8 → Scan β)
    (hpass : ∀ rs ∈ bs, (∀ x ∈ rs, x.entry.isNamed name = false) → ∀ k, ∃ o, body k (blockBytes di rs) = .done o) :
    (m name = none ∧ scanDir body d.data (blockOffsets d.data.length) = .done 0) ∨
      ∃ bpre pre r post bpost, bs = bpre ++ (pre ++ r :: post) :: bpost ∧ (∀ x ∈ pre, x.entry.isNamed name = false) ∧
        r.entry.isNamed name = true ∧ ∀ v, body (bpre.length * blockSz) (blockBytes di (pre ++ r :: post)) = .found v →
          scanDir body d.data (blockOffsets d.data.length) = .found v := by
  rcases first_record (fun x => x.entry.isNamed name) bs with
    hall | ⟨bpre, pre, r, post, bpost, rfl, hb, hpre, hr⟩
  · exact .inl ⟨h.absent hall, h.scanDir_done fun rs hrs => hpass rs hrs (hall rs hrs)⟩
  · refine .inr ⟨bpre, pre, r, post, bpost, rfl, hpre, hr, fun v => h.scanDir_found fun rs hrs => ?_⟩
    exact hpass rs (mem_append_left _ hrs) (hb rs hrs)

/-! ## The operations -/

/-- `lookup_dir_entry_checked` answers from the map and keeps the directory, cached or not. -/
theorem lookupDirEntryChecked_refines (h : DirRep di d bs m) (hne : name ≠ []) :
    ∃ d', lookupDirEntryChecked di d name = (.ok (m name), d') ∧ DirRep di d' bs m := by
  unfold lookupDirEntryChecked
  cases hcache : cachedDirEntry di d name with
  | some e =>
    refine ⟨d, ?_, h⟩
    simp only [cachedDirEntry, h.inode.isDir, hne, Bool.not_true, decide_false, Bool.or_self,
      Bool.false_eq_true, if_false, Option.map_eq_some_iff] at hcache
    obtain ⟨c, hc, rfl⟩ := hcache
    rw [h.cache name c hc]
  | none =>
    rcases h.scan_named (lookupScan name) fun rs _ hall k =>
        ⟨_, scanBlock_named_done (by decide) (by decide) hall⟩ with
      ⟨habsent, hscan⟩ | ⟨bpre, pre, r, post, bpost, rfl, hpre, hr, hstop⟩
    · refine ⟨d, ?_, h⟩
      simp only [hscan, habsent]
    · have hscan := hstop (r.inode, r.fileType) (scanBlock_named_found (by decide) hpre hr)
      have hm := (h.present hr).1
      refine ⟨rememberDirEntryIfCurrent di d d.cache.generation name r.inode r.fileType,
        by simp only [hscan, hm], h.inode, ?_, ?_, h.blocks, h.map, ?_⟩
      all_goals simp only [rememberDirEntryIfCurrent, h.inode.isDir, hne, Bool.not_true, decide_false,
        Bool.or_self, Bool.false_eq_true, if_false, if_true]
      · exact h.linear
      · exact h.data
      · exact h.cache.remember hm

/-- `replace_dir_entry` retargets a present name and returns its old target. -/
theorem replaceDirEntry_refines (h : DirRep di d bs m) (hne : name ≠ []) (hpos : inodeId ≠ 0)
    (hi : inodeId < 2 ^ 32) (hf : fileType < 256) :
    ∃ d' bs', replaceDirEntry di d name inodeId fileType = (m name, d') ∧
      DirRep di d' bs' (if (m name).isSome then update m name (some (inodeId, fileType)) else m) := by
  unfold replaceDirEntry
  rw [h.prepare]
  rcases h.scan_named (replaceScan name inodeId fileType) fun rs hrs hall k =>
      ⟨_, scanBlock_named_atEnd (h.blocks rs hrs) hall⟩ with
    ⟨habsent, hscan⟩ | ⟨bpre, pre, r, post, bpost, rfl, hpre, hr, hstop⟩
  · refine ⟨d, bs, ?_, ?_⟩
    · simp only [hscan, habsent]
    · simpa [habsent] using h
  · obtain ⟨hm, hrep⟩ := h.present hr
    have hok : BlockOk di (pre ++ r :: post) := h.blocks _ (by simp)
    obtain ⟨buf, himg, hfound⟩ :=
      @replaceScan_found di name inodeId fileType (bpre.length * blockSz) _ _ _ hok hi hf hpre hr hne
    have hscan := hstop _ hfound
    have hnew : Represents (bindings (bpre ++ (pre ++ r.retarget inodeId fileType hi hf :: post) ::
        bpost).flatten) (update m name (some (inodeId, fileType))) := by
      have hover := hrep.overwrite (w := (inodeId, fileType))
      have hbind : (r.retarget inodeId fileType hi hf).binding = some (name, inodeId, fileType) := by
        rw [Record.binding, ← name_of_isNamed hr]
        exact if_neg hpos
      rw [bindings_around, bindings_append, bindings_cons, hbind]
      simpa using hover
    obtain ⟨d', hstore, hd'⟩ := h.storeBlock false himg hnew
      (commit_effect h.inode.isDir hne (update_self ..))
    refine ⟨d', _, ?_, by simpa [hm] using hd'⟩
    simp only [hscan, hstore, hm]

/-- `remove_dir_entry_only` removes a present name and returns its target. -/
theorem removeDirEntryOnly_refines (h : DirRep di d bs m) (hne : name ≠ []) :
    ∃ d' bs', removeDirEntryOnly di d name = (m name, d') ∧
      DirRep di d' bs' (update m name none) := by
  unfold removeDirEntryOnly
  rw [h.prepare]
  rcases h.scan_named (removeScan name) fun rs hrs hall k =>
      ⟨_, scanBlock_named_atEnd (h.blocks rs hrs) hall⟩ with
    ⟨habsent, hscan⟩ | ⟨bpre, pre, r, post, bpost, rfl, hpre, hr, hstop⟩
  · refine ⟨d, bs, ?_, ?_⟩
    · simp only [hscan, habsent]
    · rwa [update_eq_self_iff.2 habsent.symm]
  · obtain ⟨hm, hrep⟩ := h.present hr
    have hok : BlockOk di (pre ++ r :: post) := h.blocks _ (by simp)
    obtain ⟨rs', buf, hbind, himg, hfound⟩ :=
      @removeScan_found di name (bpre.length * blockSz) _ _ _ hok hpre hr hne
    have hscan := hstop _ hfound
    have hnew : Represents (bindings (bpre ++ rs' :: bpost).flatten) (update m name none) := by
      have herased := hrep.erase
      rw [bindings_around, hbind]
      simpa using herased
    obtain ⟨d', hstore, hd'⟩ := h.storeBlock false himg hnew
      (invalidate_effect h.inode.isDir)
    refine ⟨d', _, ?_, hd'⟩
    simp only [hscan, hstore, hm]

/-- An insertion into an existing block. -/
theorem DirRep.insertInto {needed} (h : DirRep di d (bpre ++ (pre ++ r :: post) :: bpost) m)
    (room : Bool) (hne : name ≠ []) (hn : name.length ≤ 255) (hpos : inodeId ≠ 0) (hi : inodeId < 2 ^ 32)
    (hf : fileType < 256) (hneed : needed = (8 + name.length + 3) / 4 * 4) (habsent : m name = none)
    (hskip : ∀ x ∈ pre, ¬ x.recLen ≥ x.realLen + needed) (hfit : r.recLen ≥ r.realLen + needed) :
    ∃ buf, insertScan name inodeId fileType needed (bpre.length * blockSz)
        (blockBytes di (pre ++ r :: post)) = .found (some (bpre.length * blockSz, buf)) ∧
      ∃ d' bs', Ext4.storeBlock di room d (bpre.length * blockSz) buf
          (fun d => commitDirLookupCacheEntry di d name inodeId fileType) = (true, d') ∧
        DirRep di d' bs' (update m name (some (inodeId, fileType))) := by
  have hok : BlockOk di (pre ++ r :: post) := h.blocks _ (by simp)
  obtain ⟨s, buf, hs1, hs2, hs3, himg, hscan⟩ :=
    @insertScan_found di name inodeId fileType (bpre.length * blockSz) _ _ _ _ hok hn hi hf hneed hskip
      hfit hne
  have hbind : s.binding = some (name, inodeId, fileType) := by
    rw [Record.binding, hs1, hs2, hs3, if_neg hpos]
  have hold : Represents ((bindings bpre.flatten ++ (bindings pre ++ r.binding.toList)) ++
      (bindings post ++ bindings bpost.flatten)) m := by
    have hmap := h.map
    rw [bindings_around, bindings_append, bindings_cons] at hmap
    simpa using hmap
  have hnew : Represents (bindings (bpre ++ (pre ++ r.trim :: s :: post) :: bpost).flatten)
      (update m name (some (inodeId, fileType))) := by
    have hins := hold.insert (v := (inodeId, fileType)) habsent
    rw [bindings_around, bindings_append, bindings_cons, bindings_cons, binding_trim, hbind]
    simpa using hins
  obtain ⟨d', hstore, hd'⟩ := h.storeBlock room himg hnew
    (commit_effect h.inode.isDir hne (update_self ..))
  exact ⟨buf, hscan, d', _, hstore, hd'⟩

/-- An insertion into a fresh block at the end of the directory, which needs a block. -/
theorem DirRep.appendBlock {s buf} (h : DirRep di d bs m) (room : Bool)
    (himg : BlockImage di [s] buf) (hs : s.binding = some (name, inodeId, fileType)) (hne : name ≠ [])
    (habsent : m name = none) :
    ∃ d', Ext4.storeBlock di room d d.data.length buf
        (fun d => commitDirLookupCacheEntry di d name inodeId fileType) = (room, d') ∧
      ∃ bs', DirRep di d' bs' (if room then update m name (some (inodeId, fileType)) else m) := by
  obtain ⟨hupd, hok⟩ := h.inode.block_of_image himg
  cases room with
  | false =>
    obtain ⟨h1, h2, h3⟩ := @invalidate_effect di m h.inode.isDir d
    refine ⟨invalidateDirLookupCache di d, ?_, bs, h.inode, ?_, ?_, h.blocks, h.map, h3⟩
    · have hwrite : ∀ b, writeBlockAt false d.data d.data.length b = (0, d.data) := by
        intro b
        rw [writeBlockAt, if_neg (by simp)]
      simp only [Ext4.storeBlock, hwrite]
      rw [if_neg (by decide)]
    · rw [h2]; exact h.linear
    · rw [h1]; exact h.data
  | true =>
    have hsplice : splice d.data d.data.length (blockBytes di [s]) =
        ((bs ++ [[s]]).map (blockBytes di)).flatten := by
      have := @splice_append_right _ d.data [] (blockBytes di [s]) d.data.length 0 rfl
      rw [append_nil] at this
      rw [this, h.data]
      simp [splice]
    have hmap : Represents (bindings (bs ++ [[s]]).flatten)
        (update m name (some (inodeId, fileType))) := by
      have hold : Represents (bindings bs.flatten ++ []) m := by simpa using h.map
      have hins := hold.insert (v := (inodeId, fileType)) habsent
      simpa [hs] using hins
    have hwrite : writeBlockAt true d.data d.data.length (blockBytes di [s]) =
        ((blockBytes di [s]).length, ((bs ++ [[s]]).map (blockBytes di)).flatten) := by
      rw [writeBlockAt, if_pos (Or.inr rfl), hsplice]
    obtain ⟨h1, h2, h3⟩ := @commit_effect di (update m name (some (inodeId, fileType))) name
      inodeId fileType h.inode.isDir hne (update_self ..)
      { d with data := ((bs ++ [[s]]).map (blockBytes di)).flatten }
    refine ⟨_, ?_, bs ++ [[s]], h.inode, by rw [h2]; exact h.linear, h1, ?_, hmap, h3⟩
    · simp only [Ext4.storeBlock, hupd, hwrite]
      rw [if_pos hok.size]
    · intro rs hrs
      rcases mem_append.1 hrs with hrs | hrs
      · exact h.blocks rs hrs
      · rw [mem_singleton.1 hrs]; exact hok

/-- `add_dir_entry` adds an absent name; it fails only for a present name or without a block. -/
theorem addDirEntry_refines {room} (h : DirRep di d bs m) (hne : name ≠ [])
    (hn : name.length ≤ 255) (hpos : inodeId ≠ 0) (hi : inodeId < 2 ^ 32) (hf : fileType < 256) :
    ∃ ok d' bs', addDirEntry di room d name inodeId fileType = (ok, d') ∧
      (ok = true → m name = none) ∧ (ok = false → m name ≠ none ∨ room = false) ∧
      DirRep di d' bs' (if ok then update m name (some (inodeId, fileType)) else m) := by
  unfold addDirEntry
  rw [h.prepare]
  simp only [DirEntry.recordLen_eq hn]
  rcases h.scan_named (dupScan name) fun rs _ hall k =>
      ⟨_, scanBlock_named_done (by decide) (by decide) hall⟩ with
    ⟨habsent, hdup⟩ | ⟨bpre, pre, r, post, bpost, rfl, hpre, hr, hstop⟩
  · simp only [hdup]
    rcases first_record (fun x => decide (x.recLen ≥ x.realLen + (8 + name.length + 3) / 4 * 4)) bs with
      hfull | ⟨bpre, pre, r, post, bpost, rfl, hb, hpre, hr⟩
    · have hins : scanDir (insertScan name inodeId fileType ((8 + name.length + 3) / 4 * 4)) d.data
          (blockOffsets d.data.length) = .done 0 := by
        refine h.scanDir_done fun rs hrs k => ⟨_, insertScan_done (h.blocks rs hrs) ?_⟩
        intro x hx
        simpa using hfull rs hrs x hx
      obtain ⟨s, buf, hs1, hs2, hs3, himg, hnew⟩ := @newDirBlock_image di _ _ _ hn hi hf hne
      have hbind : s.binding = some (name, inodeId, fileType) := by
        rw [Record.binding, hs1, hs2, hs3, if_neg hpos]
      obtain ⟨d', hstore, bs', hd'⟩ := h.appendBlock room himg hbind hne habsent
      refine ⟨room, d', bs', ?_, fun _ => habsent, fun hr => Or.inr hr, hd'⟩
      simp only [hins, hnew, hstore]
    · simp only [decide_eq_true_eq, decide_eq_false_iff_not] at hb hpre hr
      obtain ⟨buf, hscan, d', bs', hstore, hd'⟩ := h.insertInto room hne hn hpos hi hf rfl habsent hpre hr
      have hins : scanDir (insertScan name inodeId fileType ((8 + name.length + 3) / 4 * 4)) d.data
          (blockOffsets d.data.length) = .found (some (bpre.length * blockSz, buf)) :=
        h.scanDir_found (fun rs hrs k =>
          ⟨_, insertScan_done (h.blocks rs (by simp [hrs])) (hb rs hrs)⟩) hscan
      refine ⟨true, d', bs', ?_, fun _ => habsent, by simp, by simpa using hd'⟩
      simp only [hins, hstore]
  · have hm := (h.present hr).1
    have hdup := hstop () (scanBlock_named_found (by decide) hpre hr)
    refine ⟨false, d, _, by simp only [hdup], by simp, fun _ => Or.inl ?_, by simpa using h⟩
    rw [hm]
    exact Option.some_ne_none _

end Rep

/-! ## Runs -/

/-- A directory operation; `room` is the outcome of the block allocation `add` may need. -/
inductive DirOp where
  | add (name : List UInt8) (inodeId fileType : Nat) (room : Bool)
  | remove (name : List UInt8)
  | replace (name : List UInt8) (inodeId fileType : Nat)
  | lookup (name : List UInt8)

/-- What an operation returns. -/
inductive DirAnswer where
  | added (ok : Bool)
  | entry (e : Option (Nat × Nat))
  | looked (r : Except Unit (Option (Nat × Nat)))

/-- A name of 1 to 255 bytes. -/
def ValidName (name : List UInt8) : Prop := 1 ≤ name.length ∧ name.length ≤ 255

/-- The arguments the callers pass: valid names, and inode numbers, which start at 1. -/
def DirOp.Valid : DirOp → Prop
  | .add name inodeId fileType _ => ValidName name ∧ inodeId ≠ 0 ∧ inodeId < 2 ^ 32 ∧ fileType < 256
  | .remove name => ValidName name
  | .replace name inodeId fileType => ValidName name ∧ inodeId ≠ 0 ∧ inodeId < 2 ^ 32 ∧ fileType < 256
  | .lookup name => ValidName name

/-- One operation on the directory. -/
def dirStep (di : DirInode) (d : Dir) : DirOp → DirAnswer × Dir
  | .add name inodeId fileType room =>
    let r := addDirEntry di room d name inodeId fileType
    (.added r.1, r.2)
  | .remove name =>
    let r := removeDirEntryOnly di d name
    (.entry r.1, r.2)
  | .replace name inodeId fileType =>
    let r := replaceDirEntry di d name inodeId fileType
    (.entry r.1, r.2)
  | .lookup name =>
    let r := lookupDirEntryChecked di d name
    (.looked r.1, r.2)

/-- A sequence of operations and their answers. -/
def dirRun (di : DirInode) (d : Dir) : List DirOp → List DirAnswer × Dir
  | [] => ([], d)
  | op :: ops =>
    let r := dirStep di d op
    let rest := dirRun di r.2 ops
    (r.1 :: rest.1, rest.2)

/-- The abstract operations: insert, delete, update and lookup in the map. An insertion that
answers `false` leaves the map alone, and does so only for a present name or a full disk. -/
def AbsStep (m : NameMap) : DirOp → DirAnswer → NameMap → Prop
  | .add name inodeId fileType room, ans, m' =>
    (ans = .added true ∧ m name = none ∧ m' = update m name (some (inodeId, fileType))) ∨
    (ans = .added false ∧ (m name ≠ none ∨ room = false) ∧ m' = m)
  | .remove name, ans, m' => ans = .entry (m name) ∧ m' = update m name none
  | .replace name inodeId fileType, ans, m' =>
    ans = .entry (m name) ∧
      m' = if (m name).isSome then update m name (some (inodeId, fileType)) else m
  | .lookup name, ans, m' => ans = .looked (.ok (m name)) ∧ m' = m

/-- A run of the abstract directory. -/
inductive AbsRun : NameMap → List DirOp → List DirAnswer → NameMap → Prop where
  | nil (m : NameMap) : AbsRun m [] [] m
  | cons {m m₁ m₂ : NameMap} {op : DirOp} {ops : List DirOp} {ans : DirAnswer} {anss : List DirAnswer} :
    AbsStep m op ans m₁ → AbsRun m₁ ops anss m₂ → AbsRun m (op :: ops) (ans :: anss) m₂

/-- The directory is a well-formed linear directory denoting `m`: its blocks are tiled by records,
end in a tail with the right checksum when checksums are on, and the name cache agrees. -/
def DirRefines (di : DirInode) (d : Dir) (m : NameMap) : Prop := ∃ bs, DirRep di d bs m

theorem ValidName.ne_nil {name} (h : ValidName name) : name ≠ [] :=
  length_pos_iff.1 h.1

/-- One operation is one abstract operation. -/
theorem dirStep_refines {di d m op} (h : DirRefines di d m)
    (hop : op.Valid) :
    ∃ m', AbsStep m op (dirStep di d op).1 m' ∧ DirRefines di (dirStep di d op).2 m' := by
  obtain ⟨bs, h⟩ := h
  cases op with
  | add name inodeId fileType room =>
    obtain ⟨hname, hpos, hi, hf⟩ := hop
    obtain ⟨ok, d', bs', heq, hyes, hno, hd'⟩ :=
      @addDirEntry_refines _ _ _ _ _ _ _ room h hname.ne_nil hname.2 hpos hi hf
    simp only [dirStep, heq]
    cases ok with
    | true => exact ⟨_, Or.inl ⟨rfl, hyes rfl, rfl⟩, bs', by simpa using hd'⟩
    | false => exact ⟨m, Or.inr ⟨rfl, hno rfl, rfl⟩, bs', by simpa using hd'⟩
  | remove name =>
    obtain ⟨d', bs', heq, hd'⟩ := removeDirEntryOnly_refines h hop.ne_nil
    simp only [dirStep, heq]
    exact ⟨_, ⟨rfl, rfl⟩, bs', hd'⟩
  | replace name inodeId fileType =>
    obtain ⟨hname, hpos, hi, hf⟩ := hop
    obtain ⟨d', bs', heq, hd'⟩ := replaceDirEntry_refines h hname.ne_nil hpos hi hf
    simp only [dirStep, heq]
    exact ⟨_, ⟨rfl, rfl⟩, bs', hd'⟩
  | lookup name =>
    obtain ⟨d', heq, hd'⟩ := lookupDirEntryChecked_refines h hop.ne_nil
    simp only [dirStep, heq]
    exact ⟨m, ⟨rfl, rfl⟩, bs, hd'⟩

/-- Every run of directory operations is a run of the abstract map with the same answers, and
keeps the directory well formed. -/
theorem dirRun_refines {di : DirInode} {d : Dir} {m : NameMap} {ops : List DirOp}
    (h : DirRefines di d m) (hops : ∀ op ∈ ops, op.Valid) :
    ∃ m', AbsRun m ops (dirRun di d ops).1 m' ∧ DirRefines di (dirRun di d ops).2 m' := by
  induction ops generalizing d m with
  | nil => exact ⟨m, .nil m, h⟩
  | cons op ops ih =>
    obtain ⟨m₁, hstep, h₁⟩ := dirStep_refines h (hops op mem_cons_self)
    obtain ⟨m₂, hrun, h₂⟩ := ih h₁ fun o ho => hops o (mem_cons_of_mem op ho)
    exact ⟨m₂, .cons hstep hrun, h₂⟩

/-- A checksummed root directory with `.` and `..`. -/
def rootInode : DirInode := ⟨2, 0, true, 0x0400, 1, 0xFFFFFFFF⟩

def rootDot : Record :=
  Record.fresh [0x2E] 2 2 12 (by decide) (by decide) (by decide) (by decide) (by decide) (by decide)

def rootDotDot : Record :=
  Record.fresh [0x2E, 0x2E] 2 2 4072 (by decide) (by decide) (by decide) (by decide) (by decide) (by decide)

def rootDir : Dir := ⟨blockBytes rootInode [rootDot, rootDotDot], false, ⟨0, ∅⟩⟩

def rootMap : NameMap := fun n =>
  if n = [0x2E] then some (2, 2) else if n = [0x2E, 0x2E] then some (2, 2) else none

/-- Records of the right total length are a block of the directory. -/
theorem rootInode_blockOk {rs : List Record} (hlen : (rs.map Record.recLen).sum = 4084) (hname : ∀ r ∈ rs, r.name ≠ []) :
    BlockOk rootInode rs := by
  have hcsum : rootInode.hasMetadataCsum = true := by decide
  refine ⟨?_, fun r hr => proper_of_name (hname r hr)⟩
  have hsum : (encode rs).length = (rs.map Record.recLen).sum := by simp [encode, length_flatMap]
  simp [blockBytes, tailWith, hcsum, hsum, hlen, blockSz]

theorem rootDir_refines : DirRefines rootInode rootDir rootMap := by
  refine ⟨[[rootDot, rootDotDot]], ⟨⟨rfl, fun _ => rfl⟩, rfl, by simp [rootDir], ?_, ?_, ?_⟩⟩
  · intro rs hrs
    rw [mem_singleton.1 hrs]
    have hdot : rootDot.recLen = 12 := Record.recLen_fresh ..
    have hdotdot : rootDotDot.recLen = 4072 := Record.recLen_fresh ..
    exact rootInode_blockOk (by simp [hdot, hdotdot]) (forall_mem_cons.2 ⟨cons_ne_nil _ _, forall_mem_singleton.2 (cons_ne_nil _ _)⟩)
  · have hb : bindings [[rootDot, rootDotDot]].flatten = [([0x2E], 2, 2), ([0x2E, 0x2E], 2, 2)] := rfl
    rw [hb]
    refine ⟨by decide, ?_⟩
    intro k v
    unfold rootMap
    split
    · rename_i hk; subst hk; simp [eq_comm]
    · split
      · rename_i hk; subst hk; simp [eq_comm]
      · rename_i h1 h2; simp [h1, h2]
  · intro n e h
    simp [rootDir] at h

theorem dirRun_refines_root :
    ∃ m', AbsRun rootMap [.add [0x61] 12 1 false, .lookup [0x61], .replace [0x61] 13 1, .remove [0x61]]
        (dirRun rootInode rootDir [.add [0x61] 12 1 false, .lookup [0x61], .replace [0x61] 13 1,
          .remove [0x61]]).1 m' ∧
      DirRefines rootInode (dirRun rootInode rootDir [.add [0x61] 12 1 false, .lookup [0x61],
        .replace [0x61] 13 1, .remove [0x61]]).2 m' :=
  dirRun_refines rootDir_refines (by simp [DirOp.Valid, ValidName])

end ShellCore.Ext4
