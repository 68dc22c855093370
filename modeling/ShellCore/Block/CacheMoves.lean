import ShellCore.Block.PageCache

/-!
# The steps of the page cache

`Move` says what a step does to the shared state. The tables `Passes`, `Clones` and `Syncs` list the places
in the calls where nothing is done to it, a page of the map gets one more reference, and a page is written
back.
-/

namespace ShellCore.Block

/-- The calls that begin with no access to the shared state. -/
inductive Starts {γ α : Type} : Cmd γ α → Pc → Prop where
  | get {b : Nat} : Starts (.get b) (.lookup b false)
  | page {key : LogicalPageKey} {b : Nat} : Starts (.getPageCache key b) (.insertId key b false)
  | newPage {key : LogicalPageKey} {b : Nat} : Starts (.getNewPageCache key b) (.insertId key b true)
  | cached {key : LogicalPageKey} : Starts (.getCachedFilePage key) (.cachedId key)
  | writeBack {key : LogicalPageKey} : Starts (.writeBack key) (.backId key .done)
  | evict {b : Nat} : Starts (.tryEvict b) (.evict b)

/-- From a place in a call to the next one, on what has been seen in between. -/
inductive Passes : Pc → Pc → Prop where
  | miss {b : Nat} {fresh : Bool} : Passes (.lookup b fresh) (.create b fresh)
  | cachedId {key : LogicalPageKey} {b : Nat} : Passes (.cachedId key) (.cached b)
  | noId {key : LogicalPageKey} : Passes (.cachedId key) .idle
  | notCached {b : Nat} : Passes (.cached b) .idle
  | backId {key : LogicalPageKey} {b : Nat} {k : Cont} : Passes (.backId key k) (.back b k)
  | backNoId {key : LogicalPageKey} {k : Cont} : Passes (.backId key k) k.pc
  | backNone {b : Nat} {k : Cont} : Passes (.back b k) k.pc
  | notEvicted {b : Nat} : Passes (.evict b) .idle
  | mappedFrame {b p : Nat} : Passes (.evictFrame b p) (.release p .done)
  | inUse {b p : Nat} : Passes (.evictRemove b p) (.release p .done)
  | batchDone {cursor : Option Nat} : Passes (.flush [] cursor) (.collect cursor)
  | return : Passes .synced .idle

/-- Places where the page of block `b` has been found in the map. -/
inductive Clones (b p : Nat) : Pc → Pc → Prop where
  | lookup {fresh : Bool} : Clones b p (.lookup b fresh) (.hold p)
  | cached : Clones b p (.cached b) (.hold p)
  | back {k : Cont} : Clones b p (.back b k) (.backSync p k)
  | evict : Clones b p (.evict b) (.evictSync b p)

/-- Places where a page is synced. -/
inductive Syncs (p : Nat) : Pc → Pc → Prop where
  | back {k : Cont} : Syncs p (.backSync p k) (.release p k)
  | evict {b : Nat} : Syncs p (.evictSync b p) (.evictFrame b p)
  | flush {batch : List Nat} {cursor : Option Nat} :
      Syncs p (.flush (p :: batch) cursor) (.release p (.flush batch cursor))
  | drop {k : Cont} : Syncs p (.drop p k) k.pc

namespace PageCacheManager

variable {γ α : Type} [DecidableEq γ] [Zero α]

inductive Move (s : PageCacheManager γ α) (a : γ) : Cmd γ α → PageCacheManager γ α → Prop where
  | start {cmd : Cmd γ α} {q : Pc} (hpc : s.pc a = .idle) (hq : Starts cmd q) : Move s a cmd (s.goto a q)
  | syncAll (hpc : s.pc a = .idle) : Move s a .syncAll (s.goto a (.collect none))
  | pass {q : Pc} (hq : Passes (s.pc a) q) : Move s a .next (s.goto a q)
  | ownFrame {b p : Nat} (hpc : s.pc a = .evictFrame b p) (hone : (s.page p).frameRefs = 1) :
      Move s a .next (s.goto a (.evictRemove b p))
  | letGo {p : Nat} (hpc : s.pc a = .hold p) : Move s a .release (s.goto a (.release p .done))
  | unmap {p : Nat} {key : LogicalPageKey} (hpc : s.pc a = .mapped p key) :
      Move s a .unmap (s.goto a (.backId key (.unmap p)))
  | insertId {key : LogicalPageKey} {b : Nat} {fresh : Bool} (hpc : s.pc a = .insertId key b fresh) :
      Move s a .next ((s.setIds (s.ids.insert key b)).goto a (.lookup b fresh))
  | forget {b : Nat} (hpc : s.pc a = .forget b) : Move s a .next ((s.setIds (s.ids.removeBlock b)).goto a .idle)
  | clone {b p : Nat} {q : Pc} (hq : Clones b p (s.pc a) q) (hp : s.pageCacheMap.get? b = some p) :
      Move s a .next ((s.clonePage p).goto a q)
  | callSync {p : Nat} (hpc : s.pc a = .hold p) : Move s a .sync (s.sync p)
  | sync {p : Nat} {q : Pc} (hq : Syncs p (s.pc a) q) : Move s a .next ((s.sync p).goto a q)
  | create {b : Nat} {fresh : Bool} (hpc : s.pc a = .create b fresh) : Move s a .next (s.create a b fresh)
  | publish {b p : Nat} {fresh : Bool} (hpc : s.pc a = .publish b p fresh) (hb : s.pageCacheMap.get? b = none) :
      Move s a .next (((s.clonePage p).setMap (s.pageCacheMap.insert b p)).goto a (if fresh then .clear p else .hold p))
  | duplicate {b p q : Nat} {fresh : Bool} (hpc : s.pc a = .publish b p fresh) (hb : s.pageCacheMap.get? b = some q) :
      Move s a .next (((s.discardPage p).clonePage q).goto a (.hold q))
  | clear {p : Nat} (hpc : s.pc a = .clear p) : Move s a .next ((s.write p fun _ => 0).goto a (.hold p))
  | modify {p : Nat} {f : α → α} (hpc : s.pc a = .hold p) : Move s a (.modify f) (s.write p f)
  | drop {p : Nat} {k : Cont} (hpc : s.pc a = .release p k) :
      Move s a .next ((s.dropPage p).goto a (if (s.page p).strong = 1 then .drop p k else k.pc))
  | remove {b p : Nat} (hpc : s.pc a = .evictRemove b p) (hb : s.pageCacheMap.get? b = some p)
      (htwo : (s.page p).strong = 2) :
      Move s a .next ((((s.dropPage p).setMap (s.pageCacheMap.erase b)).setIds (s.ids.removeBlock b)).goto a
        (.release p .done))
  | invalidate {b p : Nat} (hpc : s.pc a = .idle) (hb : s.pageCacheMap.get? b = some p) :
      Move s a (.invalidateBlock b) (((s.discardPage p).setMap (s.pageCacheMap.erase b)).goto a (.forget b))
  | invalidateNone {b : Nat} (hpc : s.pc a = .idle) (hb : s.pageCacheMap.get? b = none) :
      Move s a (.invalidateBlock b) (s.goto a (.forget b))
  | collect {cursor : Option Nat} {e : Nat × Nat} (hpc : s.pc a = .collect cursor)
      (he : (s.nextBatch cursor).getLast? = some e) :
      Move s a .next ((s.cloneAll ((s.nextBatch cursor).map Prod.snd)).goto a
        (.flush ((s.nextBatch cursor).map Prod.snd) (some e.1)))
  | finish {cursor : Option Nat} (hpc : s.pc a = .collect cursor) (he : s.after cursor = []) :
      Move s a .next (s.goto a .synced)
  | map {p : Nat} {key : LogicalPageKey} (hpc : s.pc a = .hold p) :
      Move s a (.map key) ((s.cloneFrame p).goto a (.release p (.mapped p key)))
  | share {c : γ} {p : Nat} {key : LogicalPageKey} (hpc : s.pc a = .idle) (hc : s.pc c = .mapped p key) :
      Move s a (.share c) ((s.cloneFrame p).goto a (.mapped p key))
  | store {p : Nat} {key : LogicalPageKey} {f : α → α} (hpc : s.pc a = .mapped p key) : Move s a (.store f) (s.store p f)
  | unmapped {p : Nat} (hpc : s.pc a = .unmapped p) : Move s a .next ((s.dropFrame p).goto a .idle)

variable {s s' : PageCacheManager γ α} {a : γ} {cmd : Cmd γ α}

theorem move_publish {b p fresh} (hpc : s.pc a = .publish b p fresh) :
    Move s a .next (s.publish a b p fresh) := by
  unfold publish
  cases hb : s.pageCacheMap.get? b with
  | some q => exact .duplicate hpc hb
  | none => exact .publish hpc hb

theorem move_evictRemove {b p} (hpc : s.pc a = .evictRemove b p) : Move s a .next (s.evictRemove a b p) := by
  unfold evictRemove
  split
  · rename_i h
    exact .remove hpc h.1 h.2
  · exact .pass (hpc ▸ .inUse)

omit [DecidableEq γ] [Zero α] in
theorem after_eq_nil {cursor} (h : (s.nextBatch cursor).getLast? = none) :
    s.after cursor = [] := by
  rw [List.getLast?_eq_none_iff, List.take_eq_nil_iff] at h
  exact h.resolve_left (by decide)

theorem move_collect {cursor} (hpc : s.pc a = .collect cursor) : Move s a .next (s.collect a cursor) := by
  unfold collect
  cases he : (s.nextBatch cursor).getLast? with
  | none => exact .finish hpc (after_eq_nil he)
  | some e => exact .collect hpc he

theorem goOn_move {q} (hpc : s.pc a = q) (h : s.goOn a q = some s') : Move s a .next s' := by
  cases q with
  | insertId key b fresh =>
    cases h
    exact .insertId hpc
  | lookup b fresh =>
    simp only [goOn] at h
    split at h <;> cases h
    case h_1 p hb => exact .clone (hpc ▸ .lookup) hb
    case h_2 => exact .pass (hpc ▸ .miss)
  | create b fresh =>
    cases h
    exact .create hpc
  | publish b p fresh =>
    cases h
    exact move_publish hpc
  | clear p =>
    cases h
    exact .clear hpc
  | cachedId key =>
    simp only [goOn] at h
    split at h <;> cases h
    · exact .pass (hpc ▸ .cachedId)
    · exact .pass (hpc ▸ .noId)
  | cached b =>
    simp only [goOn] at h
    split at h <;> cases h
    case h_1 p hb => exact .clone (hpc ▸ .cached) hb
    case h_2 => exact .pass (hpc ▸ .notCached)
  | backId key k =>
    simp only [goOn] at h
    split at h <;> cases h
    · exact .pass (hpc ▸ .backId)
    · exact .pass (hpc ▸ .backNoId)
  | back b k =>
    simp only [goOn] at h
    split at h <;> cases h
    case h_1 p hb => exact .clone (hpc ▸ .back) hb
    case h_2 => exact .pass (hpc ▸ .backNone)
  | backSync p k =>
    cases h
    exact .sync (hpc ▸ .back)
  | release p k =>
    cases h
    exact .drop hpc
  | drop p k =>
    cases h
    exact .sync (hpc ▸ .drop)
  | evict b =>
    cases hb : s.pageCacheMap.get? b with
    | some p =>
      simp only [goOn, hb] at h
      split at h
      · cases h
        exact .pass (hpc ▸ .notEvicted)
      · cases h
        exact .clone (hpc ▸ .evict) hb
    | none =>
      simp only [goOn, hb] at h
      cases h
      exact .pass (hpc ▸ .notEvicted)
  | evictSync b p =>
    cases h
    exact .sync (hpc ▸ .evict)
  | evictFrame b p =>
    cases h
    split
    · exact .pass (hpc ▸ .mappedFrame)
    · rename_i hone
      exact .ownFrame hpc (not_not.1 hone)
  | evictRemove b p =>
    cases h
    exact move_evictRemove hpc
  | forget b =>
    cases h
    exact .forget hpc
  | collect cursor =>
    cases h
    exact move_collect hpc
  | flush batch cursor =>
    cases batch with
    | nil =>
      cases h
      exact .pass (hpc ▸ .batchDone)
    | cons p batch =>
      cases h
      exact .sync (hpc ▸ .flush)
  | synced =>
    cases h
    exact .pass (hpc ▸ .return)
  | unmapped p =>
    cases h
    exact .unmapped hpc
  | idle | hold | mapped => cases h

theorem move_invalidate {b} (hpc : s.pc a = .idle) :
    Move s a (.invalidateBlock b) (s.invalidateBlock a b) := by
  unfold invalidateBlock
  cases hb : s.pageCacheMap.get? b with
  | some p => exact .invalidate hpc hb
  | none => exact .invalidateNone hpc hb

theorem start_move (hpc : s.pc a = .idle) (h : s.start a cmd = some s') : Move s a cmd s' := by
  cases cmd with
  | get b =>
    cases h
    exact .start hpc .get
  | getPageCache key b =>
    cases h
    exact .start hpc .page
  | getNewPageCache key b =>
    cases h
    exact .start hpc .newPage
  | getCachedFilePage key =>
    cases h
    exact .start hpc .cached
  | writeBack key =>
    cases h
    exact .start hpc .writeBack
  | tryEvict b =>
    cases h
    exact .start hpc .evict
  | invalidateBlock b =>
    cases h
    exact move_invalidate hpc
  | syncAll =>
    cases h
    exact .syncAll hpc
  | share c =>
    cases hc : s.pc c with
    | mapped p key =>
      simp only [start, hc] at h
      cases h
      exact .share hpc hc
    | _ => simp [start, hc] at h
  | next | modify | sync | release | map | store | unmap => cases h

theorem hold_move {p} (hpc : s.pc a = .hold p) (h : s.step a cmd = some s') : Move s a cmd s' := by
  unfold step at h
  rw [hpc] at h
  cases cmd with
  | modify f =>
    cases h
    exact .modify hpc
  | sync =>
    cases h
    exact .callSync hpc
  | release =>
    cases h
    exact .letGo hpc
  | map key =>
    cases h
    exact .map hpc
  | _ => cases h

theorem mapped_move {p key} (hpc : s.pc a = .mapped p key) (h : s.step a cmd = some s') :
    Move s a cmd s' := by
  unfold step at h
  rw [hpc] at h
  cases cmd with
  | store f =>
    cases h
    exact .store hpc
  | unmap =>
    cases h
    exact .unmap hpc
  | _ => cases h

theorem step_move (h : s.step a cmd = some s') : Move s a cmd s' := by
  by_cases hn : cmd = .next
  · subst hn
    exact goOn_move rfl (by simpa [step] using h)
  · cases hpc : s.pc a with
    | idle =>
      refine start_move hpc ?_
      unfold step at h
      rw [hpc] at h
      cases cmd <;> first | exact absurd rfl hn | exact h
    | hold p => exact hold_move hpc h
    | mapped p key => exact mapped_move hpc h
    | _ =>
      unfold step at h
      rw [hpc] at h
      cases cmd <;> first | exact absurd rfl hn | cases h

omit [DecidableEq γ] [Zero α] in
theorem sync_frame (p : Nat) : (s.sync p).pc = s.pc ∧ (s.sync p).pageCacheMap = s.pageCacheMap ∧ (s.sync p).next = s.next ∧
    (s.sync p).ids = s.ids := by
  unfold sync
  split
  · exact ⟨rfl, rfl, rfl, rfl⟩
  · exact ⟨rfl, rfl, rfl, rfl⟩

/-- A step moves only the activity that takes it. -/
theorem Move.pc_of_ne (h : Move s a cmd s') {c} (hc : c ≠ a) : s'.pc c = s.pc c := by
  cases h with
  | modify | store => rfl
  | callSync => rw [(sync_frame _).1]
  | sync => rw [goto_pc_of_ne hc, (sync_frame _).1]
  | _ => exact goto_pc_of_ne hc

/-- What a step does to the index of file pages. -/
theorem Move.ids (h : Move s a cmd s') : s'.ids = s.ids ∨ (∃ key b, s'.ids = s.ids.insert key b) ∨
    ∃ b, s'.ids = s.ids.removeBlock b := by
  cases h with
  | insertId => exact .inr (.inl ⟨_, _, rfl⟩)
  | forget | remove => exact .inr (.inr ⟨_, rfl⟩)
  | callSync | sync => exact .inl (sync_frame _).2.2.2
  | _ => exact .inl rfl

end PageCacheManager

end ShellCore.Block
