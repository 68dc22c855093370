import ShellCore.Block.LostUpdate

/-!
# Stores through shared mappings

A store of the user goes to the frame of the page and does not mark the page dirty. Here the calls are made
one after another, as in a sequence of stores, syncs, evictions and `munmap`s: an activity takes a step only
while no other one is in a call. Then the steps are timely of themselves, and what is mapped stays in the
cache. If every store meets a page that is marked dirty, the device has all stores when a sync is complete; a
store to a clean page is lost.
-/

namespace ShellCore.Block

/-- The frames that the activity has mapped, or has still to drop. -/
def Cont.frames : Cont → List Nat
  | unmap p | mapped p _ => [p]
  | _ => []

def Pc.frames : Pc → List Nat
  | mapped p _ | unmapped p => [p]
  | release _ k | drop _ k | backId _ k | back _ k | backSync _ k => k.frames
  | _ => []

/-- The activity is not in a call. -/
def Pc.Resting : Pc → Prop
  | idle | hold _ | mapped _ _ => True
  | _ => False

instance : DecidablePred Pc.Resting
  | .idle | .hold _ | .mapped _ _ => isTrue trivial
  | .insertId .. | .lookup .. | .create .. | .publish .. | .clear .. | .cachedId .. | .cached .. | .backId .. | .back ..
  | .backSync .. | .release .. | .drop .. | .evict .. | .evictSync .. | .evictFrame .. | .evictRemove .. | .forget ..
  | .collect .. | .flush .. | .synced | .unmapped .. => isFalse id

/-- A place where the activity relies on what it has seen or done before. -/
def Pc.Alone : Pc → Prop
  | evictFrame _ _ | evictRemove _ _ | publish _ _ false | clear _ => True
  | _ => False

/-- The activity is in a `sync_all`, or has completed it. -/
def Pc.Scans (x : Pc) : Prop := x.scan.isSome = true ∨ x = .synced

section

variable {x y : Pc} {b p : Nat}

theorem Cont.frames_pc {k : Cont} : k.pc.frames = k.frames := by
  cases k <;> rfl

theorem Starts.frames {γ α : Type} {cmd : Cmd γ α} (h : Starts cmd x) : x.frames = [] := by
  cases h <;> rfl

theorem Passes.frames (h : Passes x y) : y.frames = x.frames := by
  cases h with
  | backNoId | backNone => exact Cont.frames_pc
  | _ => rfl

theorem Clones.frames (h : Clones b p x y) : y.frames = x.frames := by
  cases h <;> rfl

theorem Syncs.frames (h : Syncs p x y) : y.frames = x.frames := by
  cases h with
  | drop => exact Cont.frames_pc
  | _ => rfl

theorem Cont.not_alone_pc {k : Cont} : ¬k.pc.Alone := by
  cases k <;> exact id

theorem Passes.not_alone (h : Passes x y) : ¬y.Alone := by
  cases h with
  | backNoId | backNone => exact Cont.not_alone_pc
  | _ => exact id

theorem Clones.not_alone (h : Clones b p x y) : ¬y.Alone := by
  cases h <;> exact id

theorem Syncs.scans (h : Syncs p x y) (hy : y.Scans) : x.Scans := by
  cases h with
  | back => exact hy.imp_right (by simp)
  | evict => simp [Pc.Scans, Pc.scan] at hy
  | flush => exact .inl rfl
  | drop =>
    refine .inl ?_
    have hs := hy.resolve_right Cont.pc_ne_synced
    rwa [Cont.scan_pc] at hs

end

namespace PageCacheManager

variable {γ α : Type} [DecidableEq γ] [Zero α] {s s' : PageCacheManager γ α} {a : γ} {cmd : Cmd γ α} {p : Nat}

/-! ## What one step can do -/

variable (hm : Move s a cmd s')

include hm

theorem map_move : s'.pageCacheMap = s.pageCacheMap ∨
    (∃ b r, s.pageCacheMap.get? b = none ∧ s'.pageCacheMap = s.pageCacheMap.insert b r) ∨
    (∃ b r, s.pc a = .evictRemove b r ∧ s.pageCacheMap.get? b = some r ∧ s'.pageCacheMap = s.pageCacheMap.erase b) ∨
    ∃ b, cmd = .invalidateBlock b := by
  cases hm with
  | callSync | sync => exact .inl (sync_frame _).2.1
  | publish _ hb => exact .inr (.inl ⟨_, _, hb, rfl⟩)
  | remove hpc hb _ => exact .inr (.inr (.inl ⟨_, _, hpc, hb, rfl⟩))
  | invalidate | invalidateNone => exact .inr (.inr (.inr ⟨_, rfl⟩))
  | _ => exact .inl rfl

omit hm in
/-- What leaves the map has been invalidated or evicted. -/
theorem listed_move [Fintype γ] (hc : s.Counted) (hm : Move s a cmd s') (hl : s.Listed p) :
    s'.Listed p ∨ (∃ b, s.pc a = .evictRemove b p) ∨ ∃ b, cmd = .invalidateBlock b := by
  have hblock := (page_move hm (hc.entry _ p hl).2).1
  have hl' : s.pageCacheMap.get? (s.page p).blockId = some p := hl
  unfold Listed
  rw [hblock]
  rcases map_move hm with heq | ⟨b, r, hb, heq⟩ | ⟨b, r, hpc, hb, heq⟩ | hinv
  · rw [heq]
    exact .inl hl
  · have hne : (s.page p).blockId ≠ b := by
      rintro rfl
      cases hl'.symm.trans hb
    rw [heq, OrdMap.get?_insert_of_ne hne]
    exact .inl hl
  · by_cases hbp : (s.page p).blockId = b
    · subst hbp
      obtain rfl := Option.some.inj (hl'.symm.trans hb)
      exact .inr (.inl ⟨_, hpc⟩)
    · rw [heq, OrdMap.get?_erase, if_neg hbp]
      exact .inl hl
  · exact .inr (.inr hinv)

omit hm [DecidableEq γ] [Zero α] in
theorem sync_frameRefs (p r : Nat) : ((s.sync p).page r).frameRefs = (s.page r).frameRefs := by
  unfold sync
  split
  · rfl
  · exact setPage_field (·.frameRefs) (by rfl) r

/-- The references to frames change with the mappings of the activity. A mapping comes from another one, or from a page in
use. -/
theorem frames_move :
    ((s'.pc a).frames = (s.pc a).frames ∧ ∀ p, p < s.next → (s'.page p).frameRefs = (s.page p).frameRefs) ∨
    (∃ r, s'.page = (s.cloneFrame r).page ∧ (s.pc a).frames = [] ∧ (s'.pc a).frames = [r] ∧
      ((∃ c, r ∈ (s.pc c).frames) ∨ s.pc a = .hold r)) ∨
    ∃ r, s'.page = (s.dropFrame r).page ∧ (s.pc a).frames = [r] ∧ (s'.pc a).frames = [] := by
  cases hm with
  | start hpc hq => exact .inl ⟨by rw [goto_pc_self, hq.frames, hpc]; rfl, fun _ _ => rfl⟩
  | pass hq => exact .inl ⟨by rw [goto_pc_self, hq.frames], fun _ _ => rfl⟩
  | clone hq _ => exact .inl ⟨by rw [goto_pc_self, hq.frames], fun p _ => setPage_field (·.frameRefs) (by rfl) p⟩
  | sync hq => exact .inl ⟨by rw [goto_pc_self, hq.frames], fun p _ => sync_frameRefs _ p⟩
  | callSync => exact .inl ⟨by rw [(sync_frame _).1], fun p _ => sync_frameRefs _ p⟩
  | syncAll hpc | ownFrame hpc _ | letGo hpc | unmap hpc | insertId hpc | forget hpc | invalidateNone hpc _ | finish hpc _ =>
    exact .inl ⟨by rw [goto_pc_self, hpc]; rfl, fun _ _ => rfl⟩
  | clear hpc | remove hpc _ _ | invalidate hpc _ =>
    exact .inl ⟨by rw [goto_pc_self, hpc]; rfl, fun p _ => setPage_field (·.frameRefs) (by rfl) p⟩
  | modify | store => exact .inl ⟨rfl, fun p _ => setPage_field (·.frameRefs) (by rfl) p⟩
  | create hpc =>
    refine .inl ⟨by rw [create, goto_pc_self, hpc]; rfl, fun p hp => congrArg _ (setPage_page_of_ne ?_)⟩
    omega
  | @publish b r fresh hpc _ =>
    refine .inl ⟨?_, fun p _ => setPage_field (·.frameRefs) (by rfl) p⟩
    rw [goto_pc_self, hpc]
    cases fresh <;> rfl
  | duplicate hpc _ =>
    refine .inl ⟨by rw [goto_pc_self, hpc]; rfl, fun p _ => ?_⟩
    exact (setPage_field (·.frameRefs) (by rfl) p).trans (setPage_field (·.frameRefs) (by rfl) p)
  | drop hpc =>
    refine .inl ⟨?_, fun p _ => setPage_field (·.frameRefs) (by rfl) p⟩
    rw [goto_pc_self, hpc]
    split
    · rfl
    · exact Cont.frames_pc
  | collect hpc _ =>
    refine .inl ⟨by rw [goto_pc_self, hpc]; rfl, fun p _ => ?_⟩
    simp only [goto_page, cloneAll]
    split <;> rfl
  | @map r key hpc => exact .inr (.inl ⟨r, rfl, by rw [hpc]; rfl, by rw [goto_pc_self]; rfl, .inr hpc⟩)
  | @share c r key hpc hc =>
    exact .inr (.inl ⟨r, rfl, by rw [hpc]; rfl, by rw [goto_pc_self]; rfl, .inl ⟨c, by simp [hc, Pc.frames]⟩⟩)
  | @unmapped r hpc => exact .inr (.inr ⟨r, rfl, by rw [hpc]; rfl, by rw [goto_pc_self]; rfl⟩)

theorem frameRefs_move (hp : p < s.next) (hpos : 1 ≤ (s.page p).frameRefs) :
    (s'.page p).frameRefs + (s.pc a).frames.count p = (s.page p).frameRefs + (s'.pc a).frames.count p := by
  rcases frames_move hm with ⟨hf, hrefs⟩ | ⟨r, hpage, hf, hf', -⟩ | ⟨r, hpage, hf, hf'⟩
  · rw [hf, hrefs p hp]
  · rw [hf, hf', hpage]
    by_cases hr : p = r
    · subst hr
      simp [cloneFrame]
    · simp [cloneFrame, hr, Ne.symm hr]
  · rw [hf, hf', hpage]
    by_cases hr : p = r
    · subst hr
      simp [dropFrame]
      omega
    · simp [dropFrame, hr, Ne.symm hr]

/-- A new page has no references to its frame but its own. -/
theorem next_move : s'.next = s.next ∨
    s'.next = s.next + 1 ∧ (s'.page s.next).frameRefs = 1 ∧ (s.pc a).frames = [] ∧ (s'.pc a).frames = [] := by
  cases hm with
  | @create b fresh hpc =>
    refine .inr ⟨rfl, ?_, by rw [hpc]; rfl, ?_⟩
    · show ((s.setPage s.next _).page s.next).frameRefs = 1
      rw [setPage_page_self]
      rfl
    · rw [create, goto_pc_self]
      rfl
  | callSync | sync => exact .inl (sync_frame _).2.2.1
  | _ => exact .inl rfl

omit hm in
/-- A page that the activity comes to use is in the map. -/
theorem used_move [Fintype γ] (hc : s.Counted) (hm : Move s a cmd s') (hp : p ∈ (s'.pc a).used) :
    p ∈ (s.pc a).used ∨ s'.Listed p := by
  cases hm with
  | start hpc hq =>
    rw [goto_pc_self] at hp
    have hheld := Pc.held_of_used hp
    rw [hq.held] at hheld
    cases hheld
  | pass hq | sync hq =>
    rw [goto_pc_self] at hp
    exact .inl (hq.used (Pc.held_of_used hp))
  | clone hq hb =>
    rw [goto_pc_self] at hp
    refine (hq.used (Pc.held_of_used hp)).symm.imp_right fun heq => ?_
    subst heq
    refine (listed_setPage ?_).2 (hc.listed_entry hb)
    rfl
  | callSync =>
    rw [(sync_frame _).1] at hp
    exact .inl hp
  | modify | store => exact .inl hp
  | ownFrame hpc _ | clear hpc =>
    rw [goto_pc_self] at hp
    rw [hpc]
    exact .inl hp
  | @drop r k hpc =>
    rw [goto_pc_self] at hp
    rw [hpc]
    split at hp
    · exact .inl hp
    · rw [Cont.used_pc] at hp
      exact .inl hp
  | create =>
    rw [create, goto_pc_self] at hp
    cases hp
  | @publish b r fresh hpc _ =>
    rw [goto_pc_self] at hp
    obtain ⟨hblock, -⟩ := hc.publishing a b r fresh hpc
    have hpr : p = r := by cases fresh <;> exact List.mem_singleton.1 hp
    subst hpr
    right
    show (s.pageCacheMap.insert b p).get? ((s.clonePage p).page p).blockId = some p
    rw [clonePage, setPage_page_self, hblock, OrdMap.get?_insert_self]
  | @duplicate b r t fresh hpc hb =>
    rw [goto_pc_self] at hp
    obtain rfl := List.mem_singleton.1 hp
    right
    have hl := hc.listed_entry hb
    refine (listed_setPage ?_).2 ((listed_setPage ?_).2 hl)
    · rfl
    · rfl
  | collect hpc _ =>
    rw [goto_pc_self] at hp
    right
    obtain ⟨e, he, rfl⟩ := List.mem_map.1 hp
    have hl := hc.listed_entry (mem_after.1 (List.mem_of_mem_take he)).1
    show s.pageCacheMap.get? ((s.cloneAll _).page e.2).blockId = some e.2
    simp only [cloneAll]
    split <;> exact hl
  | syncAll | letGo | unmap | insertId | forget | remove | invalidate | invalidateNone | finish | map | share | unmapped =>
    rw [goto_pc_self] at hp
    cases hp

/-- While a `sync_all` is going on, the activity writes nothing. -/
theorem scans_move {v} (hs : (s'.pc a).Scans) :
    cmd = .syncAll ∨ cmd ≠ .syncAll ∧ (s.pc a).Scans ∧ s.note a cmd v = v := by
  have hno : ∀ {x : Pc}, x.scan = none → x ≠ .synced → ¬x.Scans := by
    rintro x hscan hne (h | h)
    · rw [hscan] at h
      cases h
    · exact hne h
  cases hm with
  | syncAll => exact .inl rfl
  | start hpc hq =>
    rw [goto_pc_self] at hs
    exact absurd hs (hno hq.scan.1 hq.scan.2)
  | pass hq | clone hq _ =>
    rw [goto_pc_self] at hs
    have hs' := hs.resolve_right hq.scan.2
    rw [hq.scan.1] at hs'
    exact .inr ⟨by simp, .inl hs', note_next (by intro b p hpc; rw [hpc] at hq; cases hq)⟩
  | sync hq =>
    rw [goto_pc_self] at hs
    exact .inr ⟨by simp, hq.scans hs, note_next (by intro b p hpc; rw [hpc] at hq; cases hq)⟩
  | callSync hpc =>
    rw [(sync_frame _).1, hpc] at hs
    exact absurd hs (hno rfl (by simp))
  | modify hpc | store hpc =>
    have hs' : (s.pc a).Scans := hs
    rw [hpc] at hs'
    exact absurd hs' (hno rfl (by simp))
  | @publish b p fresh hpc _ =>
    rw [goto_pc_self] at hs
    cases fresh <;> exact absurd hs (hno rfl (by simp))
  | @drop p k hpc =>
    rw [goto_pc_self] at hs
    refine .inr ⟨by simp, .inl ?_, note_next (by simp [hpc])⟩
    rw [hpc]
    split at hs
    · exact hs.resolve_right (by simp)
    · have hs' := hs.resolve_right Cont.pc_ne_synced
      rwa [Cont.scan_pc] at hs'
  | collect hpc _ | finish hpc _ =>
    exact .inr ⟨by simp, .inl (by rw [hpc]; rfl), note_next (by simp [hpc])⟩
  | create hpc =>
    rw [create, goto_pc_self] at hs
    exact absurd hs (hno rfl (by simp))
  | ownFrame | letGo | unmap | insertId | forget | duplicate | clear | remove | invalidate | invalidateNone | map | share
  | unmapped =>
    rw [goto_pc_self] at hs
    exact absurd hs (hno rfl (by simp))

end PageCacheManager

namespace System

open PageCacheManager Relation Function

variable {γ α : Type} [DecidableEq γ] [Zero α]

/-- A step while no other activity is in a call. No block is freed, and a store of the user meets a page that is
marked dirty. -/
def MappedStep (x x' : System γ α) : Prop :=
  ∃ a cmd, (∀ c, c ≠ a → (x.cache.pc c).Resting) ∧ (∀ b, cmd ≠ .invalidateBlock b) ∧
    (∀ p key f, x.cache.pc a = .mapped p key → cmd = .store f → (x.cache.page p).dirty = true) ∧ x.step a cmd = some x'

/-- What an activity in a call can rely on, since it is alone. -/
structure Own (x : System γ α) (a : γ) : Prop where
  synced : ∀ b p, x.cache.pc a = .evictFrame b p → (x.cache.page p).dirty = false
  unmapped : ∀ b p, x.cache.pc a = .evictRemove b p → (x.cache.page p).dirty = false ∧ (x.cache.page p).frameRefs = 1
  loaded : ∀ b p, x.cache.pc a = .publish b p false → (x.cache.page p).bytes = x.cache.dev b
  zeroed : ∀ p, x.cache.pc a = .clear p → (x.cache.page p).bytes = 0
  began : (x.cache.pc a).Scans → x.began a = x.log.version

/-- No page in use is discarded, and what is mapped is in the map. -/
structure Tidy [Fintype γ] (x : System γ α) : Prop where
  inv : x.Inv
  frames : ∀ p, p < x.cache.next → (x.cache.page p).frameRefs = 1 + ∑ a, (x.cache.pc a).frames.count p
  used : ∀ a p, p ∈ (x.cache.pc a).used → (x.cache.page p).discarded = false
  mapped : ∀ a p, p ∈ (x.cache.pc a).frames → (x.cache.page p).discarded = false ∧ x.cache.Listed p
  own : ∀ a, x.Own a

variable [Fintype γ] {x x' : System γ α} {a : γ} {cmd : Cmd γ α} {d : Nat → α}

omit [DecidableEq γ] in
theorem Tidy.timely (h : x.Tidy) (a : γ) : x.cache.Timely a where
  evict b p hpc _ _ := ((h.own a).unmapped b p hpc).1
  load b p hpc _ := (h.own a).loaded b p hpc
  clear p hpc _ := (h.own a).zeroed p hpc

omit [DecidableEq γ] in
theorem Tidy.frames_pos (h : x.Tidy) {p} (hp : p < x.cache.next) : 1 ≤ (x.cache.page p).frameRefs := by
  rw [h.frames p hp]
  omega

omit [DecidableEq γ] [Fintype γ] in
theorem own_of_resting (h : (x.cache.pc a).Resting) : x.Own a := by
  cases hpc : x.cache.pc a with
  | idle | hold | mapped =>
    refine ⟨?_, ?_, ?_, ?_, ?_⟩ <;> simp [hpc, Pc.Scans, Pc.scan]
  | _ =>
    rw [hpc] at h
    exact h.elim

/-- The activity that takes the step. -/
theorem Tidy.own_step (h : x.Tidy) {s : PageCacheManager γ α} (hm : Move x.cache a cmd s) :
    Own ⟨s, x.cache.note a cmd x.log, x.begin a cmd⟩ a := by
  have hbegan : (s.pc a).Scans → x.begin a cmd a = (x.cache.note a cmd x.log).version := by
    intro hs
    rcases scans_move (v := x.log) hm hs with rfl | ⟨hcmd, hs', hnote⟩
    · cases hm with
      | syncAll hpc => simp [begin, note, hpc]
      | start _ hq => cases hq
    · have hb : x.begin a cmd = x.began := by
        cases cmd <;> first | rfl | exact absurd rfl hcmd
      rw [hb, hnote]
      exact (h.own a).began hs'
  have hplain : ∀ {y : Pc}, s.pc a = y → ¬y.Alone → Own ⟨s, x.cache.note a cmd x.log, x.begin a cmd⟩ a := by
    rintro y rfl hno
    refine ⟨fun b p hpc => ?_, fun b p hpc => ?_, fun b p hpc => ?_, fun p hpc => ?_, hbegan⟩
    all_goals exact absurd (show (s.pc a).Alone by rw [hpc]; trivial) hno
  cases hm with
  | start hpc hq => exact hplain goto_pc_self (by cases hq <;> exact id)
  | pass hq | clone hq _ => exact hplain goto_pc_self hq.not_alone
  | @ownFrame b p hpc hone =>
    refine ⟨?_, ?_, ?_, ?_, hbegan⟩ <;> simp only [goto_pc_self, reduceCtorEq, IsEmpty.forall_iff, implies_true]
    intro b' p' heq
    obtain ⟨rfl, rfl⟩ := Pc.evictRemove.inj heq
    exact ⟨(h.own a).synced b p hpc, hone⟩
  | @create b fresh hpc =>
    refine ⟨?_, ?_, ?_, ?_, hbegan⟩ <;>
      simp only [PageCacheManager.create, goto_pc_self, reduceCtorEq, IsEmpty.forall_iff, implies_true]
    intro b' p' heq
    obtain ⟨rfl, rfl, rfl⟩ := Pc.publish.inj heq
    show ((x.cache.setPage x.cache.next _).page x.cache.next).bytes = x.cache.dev b
    rw [setPage_page_self]
    rfl
  | @publish b p fresh hpc hb =>
    cases fresh with
    | false => exact hplain goto_pc_self id
    | true =>
      refine ⟨?_, ?_, ?_, ?_, hbegan⟩ <;>
        simp only [goto_pc_self, if_true, reduceCtorEq, IsEmpty.forall_iff, implies_true]
      intro p' heq
      obtain rfl := Pc.clear.inj heq
      obtain ⟨-, hfresh⟩ := (h.inv.coherent.ok a).publishing b p true hpc
      show ((x.cache.clonePage p).page p).bytes = 0
      rw [clonePage, setPage_page_self]
      exact (hfresh rfl).1
  | @sync p q hq =>
    generalize hx : x.cache.pc a = y at hq
    cases hq with
    | evict =>
      refine ⟨?_, ?_, ?_, ?_, hbegan⟩ <;>
        simp only [goto_pc_self, reduceCtorEq, IsEmpty.forall_iff, implies_true]
      intro b' p' heq
      obtain ⟨-, rfl⟩ := Pc.evictFrame.inj heq
      refine sync_clean (h.used a p ?_)
      rw [hx]
      exact List.mem_singleton_self p
    | back | flush => exact hplain goto_pc_self id
    | drop => exact hplain goto_pc_self Cont.not_alone_pc
  | callSync hpc => exact hplain ((congrFun (sync_frame _).1 a).trans hpc) id
  | modify hpc | store hpc => exact hplain hpc id
  | drop hpc =>
    refine hplain goto_pc_self ?_
    split
    · exact id
    · exact Cont.not_alone_pc
  | syncAll | letGo | unmap | insertId | forget | duplicate | clear | remove | invalidate | invalidateNone | collect | finish
  | map | share | unmapped => exact hplain goto_pc_self id

theorem Tidy.step (h : x.Tidy) (hothers : ∀ c, c ≠ a → (x.cache.pc c).Resting) (hcmd : ∀ b, cmd ≠ .invalidateBlock b)
    (hdirty : ∀ p key f, x.cache.pc a = .mapped p key → cmd = .store f → (x.cache.page p).dirty = true)
    (hstep : x.step a cmd = some x') : x'.Tidy := by
  have hi := h.inv
  have hstore : x.cache.StoreDirty a cmd := by
    intro p key f hpc hf _
    refine ⟨(h.mapped a p ?_).2, hdirty p key f hpc hf⟩
    rw [hpc]
    exact List.mem_singleton_self p
  have hi' := hi.step (h.timely a) hstore hstep
  obtain ⟨s, hs, rfl⟩ := Option.map_eq_some_iff.1 hstep
  have hm := step_move hs
  -- a page of the map is not discarded, and leaves it only if it is not mapped
  have hkept : ∀ p, x.cache.Listed p → (x.cache.page p).discarded = false → (s.page p).discarded = false := by
    intro p hl hd
    rcases (page_move hm (hi.counted.entry _ p hl).2).2 with heq | ⟨b, -, hinv, -⟩ | ⟨b, fresh, hpc⟩
    · exact heq.trans hd
    · exact absurd hinv (hcmd b)
    · exact absurd hl (hi.counted.unpublished hpc).2.2.2.1
  have hlisted : ∀ p, x.cache.Listed p → (∀ b, x.cache.pc a ≠ .evictRemove b p) → s.Listed p := by
    intro p hl hne
    rcases listed_move hi.counted hm hl with hl' | ⟨b, hpc⟩ | ⟨b, hinv⟩
    · exact hl'
    · exact absurd hpc (hne b)
    · exact absurd hinv (hcmd b)
  have hunmapped : ∀ c p, p ∈ (x.cache.pc c).frames → ∀ b, x.cache.pc a ≠ .evictRemove b p := by
    intro c p hp b hpc
    have hrefs := h.frames p (hi.counted.entry _ p (h.mapped c p hp).2).2
    have hle : (x.cache.pc c).frames.count p ≤ ∑ e, (x.cache.pc e).frames.count p :=
      Finset.single_le_sum (fun e _ => Nat.zero_le ((x.cache.pc e).frames.count p)) (Finset.mem_univ c)
    have hpos := List.count_pos_iff.2 hp
    rw [((h.own a).unmapped b p hpc).2] at hrefs
    omega
  have hmapped : ∀ c p, p ∈ (x.cache.pc c).frames → (s.page p).discarded = false ∧ s.Listed p := by
    intro c p hp
    obtain ⟨hd, hl⟩ := h.mapped c p hp
    exact ⟨hkept p hl hd, hlisted p hl (hunmapped c p hp)⟩
  refine ⟨hi', fun p hp => ?_, fun c p hp => ?_, fun c p hp => ?_, fun c => ?_⟩
  · have hpc : s.pc = update x.cache.pc a (s.pc a) := by
      funext c
      by_cases hca : c = a
      · subst hca
        rw [update_self]
      · rw [update_of_ne hca, hm.pc_of_ne hca]
    by_cases hlt : p < x.cache.next
    · have hsum : ∑ c, (s.pc c).frames.count p + (x.cache.pc a).frames.count p =
          ∑ c, (x.cache.pc c).frames.count p + (s.pc a).frames.count p := by
        have hupd := sum_actors_update (f := x.cache.pc) (t := a) (v := s.pc a) fun (y : Pc) _ => y.frames.count p
        rwa [← hpc] at hupd
      have hrefs := frameRefs_move hm hlt (h.frames_pos hlt)
      have hold := h.frames p hlt
      show (s.page p).frameRefs = 1 + ∑ c, (s.pc c).frames.count p
      omega
    · have hp' : p < s.next := hp
      rcases next_move hm with heq | ⟨heq, hone, hold, hnew⟩
      · omega
      · obtain rfl : p = x.cache.next := by omega
        have hzero : ∑ c, (s.pc c).frames.count x.cache.next = 0 := by
          refine Finset.sum_eq_zero fun c _ => List.count_eq_zero_of_not_mem fun hc => ?_
          by_cases hca : c = a
          · subst hca
            rw [hnew] at hc
            cases hc
          · rw [hm.pc_of_ne hca] at hc
            have := (hi.counted.entry _ _ (h.mapped c _ hc).2).2
            omega
        show (s.page x.cache.next).frameRefs = 1 + ∑ c, (s.pc c).frames.count x.cache.next
        rw [hone, hzero]
  · have huse : ∀ c, p ∈ (x.cache.pc c).used → (s.page p).discarded = false := by
      intro c hu
      have hd := h.used c p hu
      exact hkept p ((hi.coherent.ok c).used p hu hd) hd
    by_cases hca : c = a
    · subst hca
      rcases used_move hi.counted hm hp with hu | hl
      · exact huse c hu
      · exact hi'.coherent.values.entry _ p hl
    · have hp' : p ∈ (s.pc c).used := hp
      rw [hm.pc_of_ne hca] at hp'
      exact huse c hp'
  · have hp' : p ∈ (s.pc c).frames := hp
    by_cases hca : c = a
    · subst hca
      rcases frames_move hm with ⟨hf, -⟩ | ⟨r, -, -, hf, hr⟩ | ⟨r, -, -, hf⟩ <;> rw [hf] at hp'
      · exact hmapped c p hp'
      · obtain rfl := List.mem_singleton.1 hp'
        rcases hr with ⟨e, he⟩ | hpc
        · exact hmapped e p he
        have hu : p ∈ (x.cache.pc c).used := by
          rw [hpc]
          exact List.mem_singleton_self p
        have hd := h.used c p hu
        have hl := (hi.coherent.ok c).used p hu hd
        exact ⟨hkept p hl hd, hlisted p hl fun b hb => by rw [hpc] at hb; cases hb⟩
      · cases hp'
    · rw [hm.pc_of_ne hca] at hp'
      exact hmapped c p hp'
  · by_cases hca : c = a
    · subst hca
      exact h.own_step hm
    · refine own_of_resting ?_
      show (s.pc c).Resting
      rw [hm.pc_of_ne hca]
      exact hothers c hca

omit [DecidableEq γ] in
theorem tidy_init : (init d : System γ α).Tidy where
  inv := inv_init
  frames p hp := absurd hp (Nat.not_lt_zero p)
  used a p hp := by simp [init, PageCacheManager.init, Pc.used] at hp
  mapped a p hp := by simp [init, PageCacheManager.init, Pc.frames] at hp
  own _ := own_of_resting trivial

theorem tidy_of_mapped (h : ReflTransGen MappedStep (init d) x) : x.Tidy :=
  inv_of_reachable tidy_init
    (fun _ _ hi ⟨_, _, hothers, hcmd, hdirty, hstep⟩ => hi.step hothers hcmd hdirty hstep) h

/-- In a sequence of calls in which every store meets a page that is marked dirty, the stores are all part of the
contents of the blocks, and when a sync is complete the device has the contents. -/
theorem stores_reach_device (h : ReflTransGen MappedStep (init d) x) :
    (∀ a p key f x', x.cache.pc a = .mapped p key → x.step a (.store f) = some x' →
      x'.log.current (x.cache.page p).blockId = f (x.log.current (x.cache.page p).blockId)) ∧
    ∀ a, x.cache.pc a = .synced → ∀ b, x.cache.dev b = x.log.current b := by
  have ht := tidy_of_mapped h
  refine ⟨fun a p key f x' hpc hstep => ?_, fun a hpc b => ?_⟩
  · obtain ⟨s, -, rfl⟩ := Option.map_eq_some_iff.1 hstep
    have hd : (x.cache.page p).discarded = false := by
      refine (ht.mapped a p ?_).1
      rw [hpc]
      exact List.mem_singleton_self p
    simp [note, written, hpc, hd]
  · have hbegan := (ht.own a).began (.inr hpc)
    exact ((ht.inv.scanned a).done hpc b).eq_current (congrFun hbegan b)

/-- Whether the step is one of `MappedStep`. -/
def mappedStep (x : System γ α) (a : γ) (cmd : Cmd γ α) : Bool :=
  decide (∀ c, c ≠ a → (x.cache.pc c).Resting) &&
    match cmd, x.cache.pc a with
    | .invalidateBlock _, _ => false
    | .store _, .mapped p _ => (x.cache.page p).dirty
    | _, _ => true

def runMapped : System γ α → List (γ × Cmd γ α) → Option (System γ α) :=
  runGuarded (fun x a cmd => x.mappedStep a cmd) step

theorem mapped_of_runMapped {l} (h : x.runMapped l = some x') :
    ReflTransGen MappedStep x x' := by
  refine reaches_of_runGuarded (fun x a cmd x' hcond hstep => ?_) h
  obtain ⟨hrest, hcmd⟩ := Bool.and_eq_true_iff.1 hcond
  refine ⟨a, cmd, of_decide_eq_true hrest, ?_, ?_, hstep⟩
  · intro b hb
    rw [hb] at hcmd
    cases hcmd
  · intro p key f hpc hf
    rw [hf, hpc] at hcmd
    exact hcmd

/-- The page that the activity holds is mapped, stored to and unmapped again. -/
def storeThrough (a : γ) (f : α → α) : List (γ × Cmd γ α) :=
  [(a, .map (1, 0)), (a, .next), (a, .store f), (a, .unmap), (a, .next), (a, .next), (a, .next), (a, .next), (a, .next)]

/-- A page that `get_new_page_cache` has just made is dirty. -/
theorem stores_reach_device_new : ∃ x : System (Fin 1) Nat, ReflTransGen MappedStep (init fun _ => 0) x ∧
    x.log.current 5 = 7 ∧ x.cache.dev 5 = 7 := by
  obtain ⟨x, hrun, hpc, hcur⟩ : ∃ x, (init fun _ => 0 : System (Fin 1) Nat).runMapped
      ([(0, .getNewPageCache (1, 0) 5), (0, .next), (0, .next), (0, .next), (0, .next), (0, .next)] ++
        storeThrough 0 (fun _ => 7) ++ syncEverything 0) = some x ∧ x.cache.pc 0 = .synced ∧ x.log.current 5 = 7 :=
    exists_of_any (by decide +kernel)
  have hsteps := mapped_of_runMapped hrun
  exact ⟨x, hsteps, hcur, ((stores_reach_device hsteps).2 0 hpc 5).trans hcur⟩

/-- A page that is read from the device is clean when it is mapped, and so it is at the end: neither the `unmap_one`
nor the `sync_all` after it writes anything. -/
theorem store_not_written_back : ∃ x : System (Fin 1) Nat,
    (init fun _ => 0).run ([(0, .getPageCache (1, 0) 5), (0, .next), (0, .next), (0, .next), (0, .next)] ++
      storeThrough 0 (fun _ => 7) ++ syncEverything 0) = some x ∧
    x.cache.pc 0 = .synced ∧ x.log.current 5 = 7 ∧ x.cache.dev 5 = 0 :=
  exists_of_any (by decide +kernel)

end System

end ShellCore.Block
