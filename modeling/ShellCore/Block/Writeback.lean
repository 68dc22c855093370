import ShellCore.Block.Coherence

/-!
# Write-back

What a step writes to the device, and how far a `sync_all` has come. It goes through the map in batches, by
the numbers of the blocks, and writes back the pages that it has found; pages come and go meanwhile.
-/

namespace ShellCore.Block

/-- The pages of the batch that `sync_all` has still to write back, and the last block that it has passed. -/
def Cont.scan : Cont → Option (List Nat × Option Nat)
  | flush batch cursor => some (batch, cursor)
  | _ => none

def Pc.scan : Pc → Option (List Nat × Option Nat)
  | collect cursor => some ([], cursor)
  | flush batch cursor => some (batch, cursor)
  | release _ k | drop _ k | backId _ k | back _ k | backSync _ k => k.scan
  | _ => none

variable {batch : List Nat} {k : Cont} {cursor : Option Nat}

section

variable {x y : Pc} {b p r : Nat}

theorem Cont.scan_pc : k.pc.scan = k.scan := by
  cases k <;> rfl

theorem Cont.pc_ne_synced : k.pc ≠ .synced := by
  cases k <;> simp [Cont.pc]

theorem Cont.batch_of_scan (h : k.scan = some (batch, cursor)) : k.batch = batch := by
  cases k <;> cases h
  rfl

theorem Pc.used_of_scan (h : x.scan = some (batch, cursor)) (hr : r ∈ batch) : r ∈ x.used := by
  cases x with
  | flush =>
    cases h
    exact hr
  | collect =>
    cases h
    cases hr
  | release _ k | drop _ k | backId _ k | back _ k =>
    rw [← Cont.batch_of_scan h] at hr
    exact hr
  | backSync p k =>
    rw [← Cont.batch_of_scan h] at hr
    exact List.mem_cons_of_mem p hr
  | _ => cases h

theorem Starts.scan {γ α : Type} {cmd : Cmd γ α} (h : Starts cmd x) : x.scan = none ∧ x ≠ .synced := by
  cases h <;> exact ⟨rfl, by simp⟩

theorem Passes.scan (h : Passes x y) : y.scan = x.scan ∧ y ≠ .synced := by
  cases h with
  | backNoId | backNone => exact ⟨Cont.scan_pc, Cont.pc_ne_synced⟩
  | _ => exact ⟨rfl, by simp⟩

theorem Clones.scan (h : Clones b p x y) : y.scan = x.scan ∧ y ≠ .synced := by
  cases h <;> exact ⟨rfl, by simp⟩

end

namespace PageCacheManager

variable {γ α : Type}

/-- How far a `sync_all` has come that found `n b` versions of block `b`: of each block that it has passed the
device has a version that is not older, or its page is still to be written back. -/
structure Scanned (s : PageCacheManager γ α) (v : Versions Nat α) (n : Nat → Nat) (x : Pc) : Prop where
  started : ∀ b, n b ≤ v.version b
  scan : ∀ batch c, x.scan = some (batch, some c) → ∀ b, b ≤ c →
    v.Since b (n b) (s.dev b) ∨ ∃ p ∈ batch, (s.page p).blockId = b ∧ (s.page p).discarded = false
  done : x = .synced → ∀ b, v.Since b (n b) (s.dev b)

section

variable {s s' : PageCacheManager γ α} {v v' : Versions Nat α} {n : Nat → Nat} {x y : Pc} {p : Nat} {cursor : Option Nat}

/-- A step that does not take part in the scan. The device changes only to the current contents, and a page
that is discarded leaves its block with what the device has. -/
theorem Scanned.keep (h : s.Scanned v n x) (hext : Versions.Extends v v')
    (hdev : ∀ b, s'.dev b = s.dev b ∨ s'.dev b = v'.current b)
    (hpage : ∀ p ∈ x.used, (s'.page p).blockId = (s.page p).blockId ∧
      ((s.page p).discarded = false → (s'.page p).discarded = false ∨
        s'.dev (s.page p).blockId = v'.current (s.page p).blockId))
    (hscan : y.scan = x.scan) (hdone : y = .synced → x = .synced) : s'.Scanned v' n y := by
  have hstarted : ∀ b, n b ≤ v'.version b := fun b => (h.started b).trans (hext.version b)
  have hsince : ∀ b, v.Since b (n b) (s.dev b) → v'.Since b (n b) (s'.dev b) := by
    intro b hb
    rcases hdev b with heq | heq
    · rw [heq]
      exact hb.extends hext
    · rw [heq]
      exact Versions.since_current (hstarted b)
  refine ⟨hstarted, fun batch c hs b hb => ?_, fun hd b => hsince b (h.done (hdone hd) b)⟩
  rw [hscan] at hs
  rcases h.scan batch c hs b hb with hold | ⟨p, hp, hblock, hd⟩
  · exact .inl (hsince b hold)
  · obtain ⟨hblock', hd'⟩ := hpage p (Pc.used_of_scan hs hp)
    rcases hd' hd with hd' | heq
    · exact .inr ⟨p, hp, hblock'.trans hblock, hd'⟩
    · rw [hblock] at heq
      rw [heq]
      exact .inl (Versions.since_current (hstarted b))

/-! ## What a step writes and discards -/

theorem sync_dev (b : Nat) : (s.sync p).dev b = s.dev b ∨ (s.page p).blockId = b ∧ (s.page p).discarded = false ∧
    (s.page p).dirty = true ∧ (s.sync p).dev b = (s.page p).bytes := by
  unfold sync
  split
  · exact .inl rfl
  · rename_i hcond
    obtain ⟨hd, hdirty⟩ : (s.page p).discarded = false ∧ (s.page p).dirty = true := by simpa using hcond
    by_cases hb : b = (s.page p).blockId
    · subst hb
      exact .inr ⟨rfl, hd, hdirty, by simp [setDev_dev]⟩
    · exact .inl (by simp [setDev_dev, hb])

variable [DecidableEq γ] [Zero α] {a : γ} {cmd : Cmd γ α}

/-- What a step writes to the device is the contents of a dirty page that is not discarded. -/
theorem writes_back (hm : Move s a cmd s') (b : Nat) : s'.dev b = s.dev b ∨
    ∃ p, (s.page p).blockId = b ∧ (s.page p).discarded = false ∧ (s.page p).dirty = true ∧ s'.dev b = (s.page p).bytes := by
  cases hm with
  | @callSync p hpc | @sync p q hq => exact (sync_dev b).imp_right fun h => ⟨p, h⟩
  | _ => exact .inl rfl

/-- A step keeps the block of a page. It discards only the page that `invalidate_block` takes out of the map,
or one that has not been published. -/
theorem page_move (hm : Move s a cmd s') (hp : p < s.next) : (s'.page p).blockId = (s.page p).blockId ∧
    ((s'.page p).discarded = (s.page p).discarded ∨
      (∃ b, s.pc a = .idle ∧ cmd = .invalidateBlock b ∧ s.pageCacheMap.get? b = some p) ∨
      ∃ b fresh, s.pc a = .publish b p fresh) := by
  have hset : ∀ (r : Nat) (y : PageCache α), y.blockId = (s.page r).blockId → y.discarded = (s.page r).discarded →
      ((s.setPage r y).page p).blockId = (s.page p).blockId ∧ ((s.setPage r y).page p).discarded = (s.page p).discarded :=
    fun _ _ hb hd => ⟨setPage_field (·.blockId) hb p, setPage_field (·.discarded) hd p⟩
  cases hm with
  | start | syncAll | pass | ownFrame | letGo | unmap | insertId | forget | invalidateNone | finish => exact ⟨rfl, .inl rfl⟩
  | clone | map | share | store | unmapped | clear | modify | drop | remove | publish =>
    refine ⟨(hset _ _ ?_ ?_).1, .inl (hset _ _ ?_ ?_).2⟩ <;> rfl
  | callSync | sync => exact ⟨(sync_counts _ p).2, .inl (sync_page p).1⟩
  | create =>
    have hne : p ≠ s.next := by omega
    show ((s.setPage s.next _).page p).blockId = _ ∧ (((s.setPage s.next _).page p).discarded = _ ∨ _)
    rw [setPage_page_of_ne hne]
    exact ⟨rfl, .inl rfl⟩
  | @duplicate b r t fresh hpc hb =>
    rw [goto_page]
    by_cases hr : p = r
    · subst hr
      refine ⟨?_, .inr (.inr ⟨b, fresh, hpc⟩)⟩
      by_cases ht : p = t
      · subst ht
        simp [clonePage]
      · simp [clonePage, ht]
    · by_cases ht : p = t
      · subst ht
        simp [clonePage, hr]
      · simp [clonePage, ht, hr]
  | @invalidate b r hpc hb =>
    rw [goto_page, setMap_page]
    by_cases hr : p = r
    · subst hr
      exact ⟨by simp, .inr (.inl ⟨b, hpc, rfl, hb⟩)⟩
    · simp [hr]
  | collect =>
    simp only [goto_page, cloneAll]
    split <;> exact ⟨rfl, .inl rfl⟩

variable [Fintype γ]

omit [Fintype γ] in
/-- The device changes only to the current contents. -/
theorem Coherent.dev_move (h : s.Coherent v) (hm : Move s a cmd s') (b : Nat) :
    s'.dev b = s.dev b ∨ s'.dev b = (s.note a cmd v).current b := by
  have hsync : ∀ p, ((s.page p).discarded = false → (s.page p).dirty = true → s.Listed p) →
      (s.sync p).dev b = s.dev b ∨ (s.sync p).dev b = v.current b := by
    intro p hp
    rcases sync_dev (s := s) (p := p) b with heq | ⟨hb, hd, hdirty, heq⟩
    · exact .inl heq
    · refine .inr (heq.trans ?_)
      rw [← hb]
      exact h.values.value _ p (hp hd hdirty)
  cases hm with
  | @callSync p hpc =>
    rw [show s.note a .sync v = v by simp [note, hpc]]
    refine hsync p fun hd _ => (h.ok a).used p ?_ hd
    rw [hpc]
    exact List.mem_singleton_self p
  | @sync p q hq =>
    rw [note_next (by intro b p hpc; rw [hpc] at hq; cases hq)]
    refine hsync p fun hd hdirty => ?_
    have hok := h.ok a
    generalize s.pc a = x at hq hok
    cases hq with
    | back | flush => exact hok.used p List.mem_cons_self hd
    | evict => exact hok.used p (List.mem_singleton_self p) hd
    | drop =>
      rcases hok.dropped p _ rfl with hd' | hclean
      · cases hd.symm.trans hd'
      · cases hdirty.symm.trans hclean
  | _ => exact .inl rfl

/-- A page in use keeps its block. If it is discarded, its block has what the device has. -/
theorem Counted.page_used (hc : s.Counted) (hm : Move s a cmd s') {c} (hp : p ∈ (s.pc c).used) :
    (s'.page p).blockId = (s.page p).blockId ∧
      ((s.page p).discarded = false → (s'.page p).discarded = false ∨
        s'.dev (s.page p).blockId = (s.note a cmd v).current (s.page p).blockId) := by
  have hheld := Pc.held_of_used hp
  obtain ⟨hblock, hd⟩ := page_move hm (hc.born c p hheld)
  refine ⟨hblock, fun hnot => ?_⟩
  rcases hd with heq | ⟨b, hpc, rfl, hb⟩ | ⟨b, fresh, hpc⟩
  · exact .inl (heq.trans hnot)
  · refine .inr ?_
    have hn : s.note a (.invalidateBlock b) v = v.write b (s.dev b) := by simp [note, hpc]
    rw [hn, (hc.entry b p hb).1, Versions.current_write_self]
    cases hm with
    | invalidate | invalidateNone => rfl
    | start _ hq => cases hq
  · -- a page that is not published is used by nobody
    obtain ⟨-, -, -, -, hothers⟩ := hc.unpublished hpc
    by_cases hca : c = a
    · subst hca
      rw [hpc] at hp
      cases hp
    · exact absurd hheld (hothers c hca)

/-! ## The steps of `sync_all` -/

variable (h : s.Scanned v n (.collect cursor))

include h

omit [Fintype γ] [DecidableEq γ] in
/-- Between two batches a block is done with, or its page is still to be found. -/
theorem Scanned.entry (hcoh : s.Coherent v) (b : Nat) :
    v.Since b (n b) (s.dev b) ∨ ∃ p, s.pageCacheMap.get? b = some p ∧ (b, p) ∈ s.after cursor := by
  by_cases hpast : ∃ m, cursor = some m ∧ b ≤ m
  · obtain ⟨m, rfl, hbm⟩ := hpast
    refine .inl ((h.scan [] m rfl b hbm).resolve_right ?_)
    rintro ⟨p, hp, -⟩
    cases hp
  cases hmap : s.pageCacheMap.get? b with
  | none =>
    rw [hcoh.values.absent b hmap]
    exact .inl (Versions.since_current (h.started b))
  | some p =>
    refine .inr ⟨p, rfl, mem_after.2 ⟨hmap, fun m hm => ?_⟩⟩
    by_contra hle
    exact hpast ⟨m, hm, by simpa using hle⟩

omit [DecidableEq γ] in
theorem Scanned.collect (hcoh : s.Coherent v) (hc : s.Counted) {e}
    (he : (s.nextBatch cursor).getLast? = some e) {c'} (hc' : e.1 = c') :
    (s.cloneAll ((s.nextBatch cursor).map Prod.snd)).Scanned v n
      (.flush ((s.nextBatch cursor).map Prod.snd) (some c')) := by
  have hpage : ∀ (l : List Nat) r, ((s.cloneAll l).page r).blockId = (s.page r).blockId ∧
      ((s.cloneAll l).page r).discarded = (s.page r).discarded := by
    intro l r
    simp only [cloneAll]
    split <;> exact ⟨rfl, rfl⟩
  refine ⟨h.started, fun batch c hs b hb => ?_, by simp⟩
  obtain ⟨rfl, hcc⟩ := Prod.mk.inj (Option.some.inj hs)
  obtain rfl : c' = c := Option.some.inj hcc
  rcases h.entry hcoh b with hold | ⟨p, hmap, hmem⟩
  · exact .inl hold
  -- the entry of `b` comes before the last one of the batch
  refine .inr ⟨p, List.mem_map.2 ⟨(b, p), ?_, rfl⟩, ?_⟩
  · have hsorted : (s.after cursor).Pairwise fun x y => x.1 < y.1 := s.pageCacheMap.sorted.filter _
    rw [← List.take_append_drop syncBatch (s.after cursor)] at hmem hsorted
    rcases List.mem_append.1 hmem with htake | hdrop
    · exact htake
    · have hlast := (List.pairwise_append.1 hsorted).2.2 e (List.mem_of_getLast? he) (b, p) hdrop
      omega
  · rw [(hpage _ p).1, (hpage _ p).2]
    exact ⟨(hc.entry b p hmap).1, hcoh.values.entry b p hmap⟩

omit [Fintype γ] [DecidableEq γ] in
theorem Scanned.finish (hcoh : s.Coherent v) (he : s.after cursor = []) : s.Scanned v n .synced := by
  refine ⟨h.started, fun batch c hs => (nomatch hs), fun _ b => (h.entry hcoh b).resolve_right ?_⟩
  rintro ⟨p, -, hmem⟩
  rw [he] at hmem
  cases hmem

omit h

omit [Fintype γ] [DecidableEq γ] [Zero α] in
theorem sync_clean (hd : (s.page p).discarded = false) : ((s.sync p).page p).dirty = false := by
  unfold sync
  split
  · rename_i hcond
    simpa [hd] using hcond
  · simp

omit [DecidableEq γ] in
/-- The page that a `sync_all` writes back needs no more to be. -/
theorem Scanned.flush (h : s.Scanned v n (.flush (p :: batch) cursor)) (hcoh : s.Coherent v)
    (hc : s.Counted) (hp : (s.page p).discarded = false → s.Listed p) :
    (s.sync p).Scanned v n (.release p (.flush batch cursor)) := by
  have hvalues := hcoh.values.sync hc fun hd => .inl (hp hd)
  refine ⟨h.started, fun l c hs b hb => ?_, by simp⟩
  cases hs
  rcases h.scan (p :: batch) c rfl b hb with hold | ⟨r, hr, hblock, hd⟩
  · refine .inl ?_
    rcases sync_dev (s := s) (p := p) b with heq | ⟨hpb, hd, -, heq⟩
    · rw [heq]
      exact hold
    · rw [heq, hcoh.values.value _ p (hp hd), hpb]
      exact Versions.since_current (h.started b)
  · by_cases hrp : r = p
    · subst hrp
      refine .inl ?_
      have hl : (s.sync r).pageCacheMap.get? b = some r := by
        rw [(sync_frame r).2.1, ← hblock]
        exact hp hd
      rw [hvalues.clean b r hl (sync_clean hd)]
      exact Versions.since_current (h.started b)
    · refine .inr ⟨r, (List.mem_cons.1 hr).resolve_left hrp, ?_, ?_⟩
      · rw [(sync_counts p r).2, hblock]
      · rw [(sync_page r).1, hd]

/-- A step of an activity, for its own `sync_all`. -/
theorem Scanned.own (h : s.Scanned v n (s.pc a)) (hcoh : s.Coherent v) (hc : s.Counted) (hm : Move s a cmd s')
    (hcmd : cmd ≠ .syncAll) : s'.Scanned (s.note a cmd v) n (s'.pc a) := by
  have hkeep : ∀ y, y.scan = (s.pc a).scan → (y = .synced → s.pc a = .synced) → s'.Scanned (s.note a cmd v) n y :=
    fun y => h.keep extends_note (hcoh.dev_move hm) (fun p hp => hc.page_used hm hp)
  cases hm with
  | start hpc hq =>
    rw [goto_pc_self]
    exact hkeep _ (by rw [hq.scan.1, hpc]; rfl) fun hd => absurd hd hq.scan.2
  | syncAll => exact absurd rfl hcmd
  | pass hq | clone hq _ =>
    rw [goto_pc_self]
    exact hkeep _ hq.scan.1 fun hd => absurd hd hq.scan.2
  | letGo hpc | ownFrame hpc _ | unmap hpc | insertId hpc | forget hpc | create hpc | duplicate hpc _ | clear hpc | remove hpc _ _
  | invalidate hpc _ | invalidateNone hpc _ | map hpc | share hpc _ | unmapped hpc =>
    refine hkeep _ ?_ ?_
    · rw [hpc]
      simp [create, Pc.scan, Cont.scan]
    · simp [create]
  | @publish b p fresh hpc _ =>
    rw [goto_pc_self]
    refine hkeep _ ?_ ?_
    · rw [hpc]
      cases fresh <;> rfl
    · cases fresh <;> simp
  | modify hpc | store hpc => exact hkeep _ rfl id
  | callSync hpc =>
    rw [congrFun (sync_frame _).1 a]
    exact hkeep _ rfl id
  | @drop p k hpc =>
    rw [goto_pc_self]
    refine hkeep _ ?_ ?_
    · rw [hpc]
      split
      · rfl
      · exact Cont.scan_pc
    · split
      · simp
      · exact fun hd => absurd hd Cont.pc_ne_synced
  | @sync p q hq =>
    rw [goto_pc_self]
    generalize hx : s.pc a = x at hq
    cases hq with
    | back | evict => exact hkeep _ (by rw [hx]; rfl) (by simp)
    | drop => exact hkeep _ (by rw [hx]; exact Cont.scan_pc) fun hd => absurd hd Cont.pc_ne_synced
    | flush =>
      rw [note_next (by simp [hx])]
      rw [hx] at h
      have hscanned := h.flush hcoh hc fun hd => (hcoh.ok a).used p (by rw [hx]; exact List.mem_cons_self) hd
      exact ⟨hscanned.started, hscanned.scan, hscanned.done⟩
  | collect hpc he =>
    rw [goto_pc_self, note_next (by simp [hpc])]
    rw [hpc] at h
    have hscanned := h.collect hcoh hc he rfl
    exact ⟨hscanned.started, hscanned.scan, hscanned.done⟩
  | finish hpc he =>
    rw [goto_pc_self, note_next (by simp [hpc])]
    rw [hpc] at h
    have hscanned := h.finish hcoh he
    exact ⟨hscanned.started, hscanned.scan, hscanned.done⟩

end

end PageCacheManager

end ShellCore.Block
