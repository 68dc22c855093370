import ShellCore.Block.Writeback

/-!
# No update is lost

Runs of the cache together with the contents of the blocks and, for each activity, how many versions each
block had when the activity last called `sync_all`. In a run whose steps are timely a caller sees the current
contents of a block, what is evicted is on the device, and a `sync_all` has brought to the device everything
that was written before it. Each of the three conditions is needed: the failing runs are at the end.
-/

namespace ShellCore.Block

open Relation Function PageCacheManager

structure System (γ α : Type) where
  cache : PageCacheManager γ α
  log : Versions Nat α
  began : γ → Nat → Nat

namespace System

variable {γ α : Type} [DecidableEq γ] [Zero α]

def init (d : Nat → α) : System γ α where
  cache := PageCacheManager.init d
  log := Versions.init d
  began _ _ := 0

/-- The versions that a `sync_all` finds. -/
def begin (x : System γ α) (a : γ) : Cmd γ α → γ → Nat → Nat
  | .syncAll => update x.began a x.log.version
  | _ => x.began

def step (x : System γ α) (a : γ) (cmd : Cmd γ α) : Option (System γ α) :=
  (x.cache.step a cmd).map fun s => ⟨s, x.cache.note a cmd x.log, x.begin a cmd⟩

def run : System γ α → List (γ × Cmd γ α) → Option (System γ α) := runCalls step

def Step (x x' : System γ α) : Prop := ∃ a cmd, x.step a cmd = some x'

/-- A timely step, other than a store of the user to a mapped page. -/
def TimelyStep (x x' : System γ α) : Prop :=
  ∃ a cmd, x.cache.Timely a ∧ (∀ f, cmd ≠ .store f) ∧ x.step a cmd = some x'

/-- A page that is in the map or that a caller was given. -/
def Live (x : System γ α) (p : Nat) : Prop := x.cache.Listed p ∨ ∃ a, p ∈ (x.cache.pc a).used

structure Inv [Fintype γ] (x : System γ α) : Prop where
  counted : x.cache.Counted
  coherent : x.cache.Coherent x.log
  scanned : ∀ a, x.cache.Scanned x.log (x.began a) (x.cache.pc a)

variable [Fintype γ] {x x' : System γ α} {a : γ} {cmd : Cmd γ α} {d : Nat → α}

omit [DecidableEq γ] in
theorem inv_init : (init d : System γ α).Inv where
  counted := PageCacheManager.counted_init
  coherent := PageCacheManager.coherent_init
  scanned _ := ⟨fun _ => le_refl _, fun _ _ hs => (nomatch hs), fun hd => (nomatch hd)⟩

/-- A timely step keeps the invariant, if a store meets a dirty page. -/
theorem Inv.step (h : x.Inv) (ht : x.cache.Timely a) (hs : x.cache.StoreDirty a cmd) (hstep : x.step a cmd = some x') :
    x'.Inv := by
  obtain ⟨s, hs', rfl⟩ := Option.map_eq_some_iff.1 hstep
  have hm := step_move hs'
  refine ⟨h.counted.move hm, h.coherent.move h.counted hm ht hs, fun c => ?_⟩
  by_cases hca : c = a
  · subst hca
    by_cases hcmd : cmd = .syncAll
    · subst hcmd
      cases hm with
      | syncAll hpc =>
        rw [goto_pc_self]
        refine ⟨fun b => ?_, fun batch n hn => ?_, by simp⟩
        · simp [begin, note, hpc]
        · cases hn
      | start _ hq => cases hq
    · have hb : x.begin c cmd = x.began := by
        cases cmd <;> first | rfl | exact absurd rfl hcmd
      show s.Scanned _ (x.begin c cmd c) (s.pc c)
      rw [hb]
      exact (h.scanned c).own h.coherent h.counted hm hcmd
  · have hb : x.begin a cmd c = x.began c := by
      cases cmd <;> first | rfl | exact update_of_ne hca _ _
    have hpc : s.pc c = x.cache.pc c := hm.pc_of_ne hca
    show s.Scanned _ (x.begin a cmd c) (s.pc c)
    rw [hb, hpc]
    exact (h.scanned c).keep extends_note (h.coherent.dev_move hm) (fun p hp => h.counted.page_used hm hp)
      rfl id

theorem inv_of_timely (h : ReflTransGen TimelyStep (init d) x) : x.Inv :=
  inv_of_reachable inv_init
    (fun _ _ hi ⟨_, _, ht, hs, hstep⟩ => hi.step ht (fun _ _ f _ hf => absurd hf (hs f)) hstep) h

/-- What leaves the map is discarded, or clean when `try_evict` removes it. -/
theorem Inv.on_device (h : x.Inv) (ht : x.cache.Timely a) (hstep : x.step a cmd = some x') {b p}
    (hb : x.cache.pageCacheMap.get? b = some p) (hgone : x'.cache.pageCacheMap.get? b = none) :
    (x'.cache.page p).discarded = true ∨ x.cache.dev b = x.log.current b := by
  obtain ⟨s, hs, rfl⟩ := Option.map_eq_some_iff.1 hstep
  have hkept : ∀ m : OrdMap Nat, m.get? b = none → m ≠ x.cache.pageCacheMap := by
    rintro m hm rfl
    cases hb.symm.trans hm
  cases step_move hs with
  | callSync | sync => exact absurd (sync_frame _).2.1 (hkept _ hgone)
  | @publish c r fresh hpc hc =>
    have hgone' : (x.cache.pageCacheMap.insert c r).get? b = none := hgone
    rw [OrdMap.get?_insert] at hgone'
    split at hgone'
    · cases hgone'
    · cases hb.symm.trans hgone'
  | @remove c r hpc hc htwo =>
    have hgone' : (x.cache.pageCacheMap.erase c).get? b = none := hgone
    rw [OrdMap.get?_erase] at hgone'
    split at hgone'
    · rename_i hbc
      subst hbc
      refine .inr (h.coherent.values.clean b r hc ?_)
      exact ht.evict b r hpc hc htwo
    · cases hb.symm.trans hgone'
  | @invalidate c r hpc hc =>
    have hgone' : (x.cache.pageCacheMap.erase c).get? b = none := hgone
    rw [OrdMap.get?_erase] at hgone'
    split at hgone'
    · rename_i hbc
      subst hbc
      obtain rfl := Option.some.inj (hb.symm.trans hc)
      exact .inl (by simp)
    · cases hb.symm.trans hgone'
  | _ => exact absurd rfl (hkept _ hgone)

/-- A timely run loses no update. Of a block there is at most one live page that is not discarded; who was
given it reads what the last complete write has left; what `try_evict` takes out of the map is on the device;
when a `sync_all` is complete, the device has of each block a version not older than the one at the call; and
a step writes to the device only from a page that is not discarded. -/
theorem no_lost_update (h : ReflTransGen TimelyStep (init d) x) :
    (∀ p r, x.Live p → x.Live r → (x.cache.page p).discarded = false → (x.cache.page r).discarded = false →
      (x.cache.page p).blockId = (x.cache.page r).blockId → p = r) ∧
    (∀ a p, p ∈ (x.cache.pc a).used → (x.cache.page p).discarded = false →
      (x.cache.page p).bytes = x.log.current (x.cache.page p).blockId) ∧
    (∀ a cmd x' b p, x.cache.Timely a → x.step a cmd = some x' → x.cache.pageCacheMap.get? b = some p →
      x'.cache.pageCacheMap.get? b = none → (x'.cache.page p).discarded = false → x.cache.dev b = x.log.current b) ∧
    (∀ a, x.cache.pc a = .synced → ∀ b, x.log.Since b (x.began a b) (x.cache.dev b)) ∧
    ∀ a cmd x' b, x.step a cmd = some x' → x'.cache.dev b ≠ x.cache.dev b →
      ∃ p, (x.cache.page p).blockId = b ∧ (x.cache.page p).discarded = false ∧ x'.cache.dev b = (x.cache.page p).bytes := by
  have hi := inv_of_timely h
  have hlisted : ∀ p, x.Live p → (x.cache.page p).discarded = false → x.cache.Listed p := by
    rintro p (hl | ⟨a, hp⟩) hd
    · exact hl
    · exact (hi.coherent.ok a).used p hp hd
  refine ⟨fun p r hp hr hdp hdr hb => ?_, fun a p hp hd => ?_, fun a cmd x' b p ht hstep hb hgone hd => ?_,
    fun a hpc => (hi.scanned a).done hpc, fun a cmd x' b hstep hne => ?_⟩
  · have h1 : x.cache.pageCacheMap.get? _ = some p := hlisted p hp hdp
    have h2 : x.cache.pageCacheMap.get? _ = some r := hlisted r hr hdr
    rw [hb, h2] at h1
    exact (Option.some.inj h1).symm
  · exact hi.coherent.values.value _ p ((hi.coherent.ok a).used p hp hd)
  · refine (hi.on_device ht hstep hb hgone).resolve_left ?_
    rw [hd]
    exact Bool.false_ne_true
  · obtain ⟨s, hs, rfl⟩ := Option.map_eq_some_iff.1 hstep
    obtain ⟨p, hb, hd, -, hdev⟩ := (writes_back (step_move hs) b).resolve_left hne
    exact ⟨p, hb, hd, hdev⟩

omit [Fintype γ] in
/-- A run that is checked to be timely and to have no store. -/
def runTimely [DecidableEq α] : System γ α → List (γ × Cmd γ α) → Option (System γ α) :=
  runGuarded (fun x a cmd => x.cache.timely a && !cmd.isStore) step

omit [Fintype γ] in
theorem timely_of_runTimely [DecidableEq α] {l} (h : x.runTimely l = some x') :
    ReflTransGen TimelyStep x x' := by
  refine reaches_of_runGuarded (fun x a cmd x' hcond hstep => ?_) h
  obtain ⟨ht, hs⟩ : x.cache.timely a = true ∧ cmd.isStore = false := by simpa using hcond
  refine ⟨a, cmd, timely_of_timely ht, fun f hf => ?_, hstep⟩
  rw [hf] at hs
  cases hs

/-- A page for block 5 is got from the device, and let go. -/
def getAndDrop (a : γ) : List (γ × Cmd γ α) := [(a, .get 5), (a, .next), (a, .next), (a, .next), (a, .release), (a, .next)]

/-- The cached block 5 is written. -/
def writeCached (a : γ) (f : α → α) : List (γ × Cmd γ α) := [(a, .get 5), (a, .next), (a, .modify f), (a, .release), (a, .next)]

def syncEverything (a : γ) : List (γ × Cmd γ α) :=
  [(a, .syncAll), (a, .next), (a, .next), (a, .next), (a, .next), (a, .next)]

theorem no_lost_update_synced : ∃ x : System (Fin 1) Nat, ReflTransGen TimelyStep (init fun _ => 0) x ∧
    x.cache.dev 5 = 7 ∧ x.log.Since 5 (x.began 0 5) (x.cache.dev 5) := by
  obtain ⟨x, hrun, hpc, hdev⟩ : ∃ x, (init fun _ => 0 : System (Fin 1) Nat).runTimely
      (getAndDrop 0 ++ writeCached 0 (fun _ => 7) ++ syncEverything 0) = some x ∧ x.cache.pc 0 = .synced ∧ x.cache.dev 5 = 7 :=
    exists_of_any (by decide +kernel)
  have hsteps := timely_of_runTimely hrun
  obtain ⟨-, -, -, hsync, -⟩ := no_lost_update hsteps
  exact ⟨x, hsteps, hdev, hsync 0 hpc 5⟩

/-! ## Runs that need not be timely -/

omit [Fintype γ] in
/-- What every step of the cache keeps holds in every run. -/
theorem cache_of_steps {I : PageCacheManager γ α → Prop} (h₀ : I (.init d))
    (hI : ∀ s a cmd s', I s → Move s a cmd s' → I s') (h : ReflTransGen Step (init d) x) : I x.cache := by
  refine inv_of_reachable (I := fun x => I x.cache) h₀ ?_ h
  rintro x x' hx ⟨a, cmd, hstep⟩
  obtain ⟨s, hs, rfl⟩ := Option.map_eq_some_iff.1 hstep
  exact hI _ _ _ _ hx (step_move hs)

omit [Fintype γ] in
/-- Each direction of the index of file pages inverts the other. -/
theorem index_agrees (h : ReflTransGen Step (init d) x) : x.cache.ids.Agrees := by
  refine cache_of_steps (I := fun s => s.ids.Agrees) CacheIdMap.agrees_new (fun s a cmd s' hs hm => ?_) h
  rcases hm.ids with he | ⟨key, b, he⟩ | ⟨b, he⟩
  · rwa [he]
  · rw [he]
    exact hs.insert
  · rw [he]
    exact hs.removeBlock

theorem index_agrees_entered : ∃ x : System (Fin 1) Nat, x.cache.ids.get (1, 0) = some 5 ∧ x.cache.ids.Agrees := by
  obtain ⟨x, hsteps, hx⟩ : ∃ x : System (Fin 1) Nat, ReflTransGen Step (init fun _ => 0) x ∧ x.cache.ids.get (1, 0) = some 5 :=
    exists_steps_of_any [(0, .getPageCache (1, 0) 5), (0, .next)] (by decide +kernel)
  exact ⟨x, hx, index_agrees hsteps⟩

/-- A page is counted once for the map and once for each reference of an activity. -/
theorem references_counted (h : ReflTransGen Step (init d) x) : x.cache.Counted :=
  cache_of_steps counted_init (fun _ _ _ _ hs hm => hs.move hm) h

/-- One activity has the page that is in the map in its hands while another begins to look for it. -/
theorem references_counted_held : ∃ x : System (Fin 2) Nat, x.cache.pageCacheMap.get? 5 = some 0 ∧
    x.cache.pc 0 = .hold 0 ∧ x.cache.Counted := by
  obtain ⟨x, hsteps, hmap, hhold⟩ : ∃ x : System (Fin 2) Nat, ReflTransGen Step (init fun _ => 0) x ∧
      x.cache.pageCacheMap.get? 5 = some 0 ∧ x.cache.pc 0 = .hold 0 :=
    exists_steps_of_any [(0, .get 5), (0, .next), (0, .next), (0, .next), (1, .get 5)] (by decide +kernel)
  exact ⟨x, hmap, hhold, references_counted hsteps⟩

/-! ## The failing runs -/

/-- `c` writes the page after `a` has written it back and before `a` takes it out of the map. It is not on the
device when `e` reads the block from there. -/
def evictedDirty (a c e : γ) (f : α → α) : List (γ × Cmd γ α) :=
  getAndDrop c ++ [(a, .tryEvict 5), (a, .next), (a, .next), (a, .next)] ++ writeCached c f ++
    [(a, .next), (e, .get 5), (e, .next), (e, .next), (e, .next)]

/-- `e` has read the block from the device. It enters its page in the map after that of `c` has been written,
written back and evicted. -/
def loadedStale (a c e : γ) (f : α → α) : List (γ × Cmd γ α) :=
  [(e, .get 5), (e, .next), (e, .next)] ++ getAndDrop c ++ writeCached c f ++
    [(a, .tryEvict 5), (a, .next), (a, .next), (a, .next), (a, .next), (a, .next), (a, .next), (e, .next)]

/-- `c` finds the new page of `e` in the map and writes it, before `e` zeroes it for the second time. -/
def zeroedLate (c e : γ) (f : α → α) : List (γ × Cmd γ α) :=
  [(e, .getNewPageCache (1, 0) 5), (e, .next), (e, .next), (e, .next), (e, .next)] ++ writeCached c f ++ [(e, .next)]

/-- `c` has a page of block 5 that is not discarded and does not hold what was written last. -/
def Stale (x : System γ α) (c : γ) : Prop :=
  ∃ p, x.cache.pc c = .hold p ∧ (x.cache.page p).blockId = 5 ∧ (x.cache.page p).discarded = false ∧
    (x.cache.page p).bytes ≠ x.log.current 5

omit [Fintype γ] in
theorem stale_of_run [DecidableEq α] {c : γ} {l : List (γ × Cmd γ α)} (p : Nat)
    (h : (((init d).run l).any fun x => decide (x.cache.pc c = .hold p ∧ (x.cache.page p).blockId = 5 ∧
      (x.cache.page p).discarded = false ∧ (x.cache.page p).bytes ≠ x.log.current 5)) = true) :
    ∃ x, ReflTransGen Step (init d) x ∧ (init d).run l = some x ∧ x.Stale c := by
  obtain ⟨x, hrun, hstale⟩ := exists_of_any h
  exact ⟨x, steps_of_runCalls hrun, hrun, p, hstale⟩

/-- Each of the three runs loses the update. -/
theorem update_lost :
    (∃ x : System (Fin 3) Nat, ReflTransGen Step (init fun _ => 0) x ∧
      (init fun _ => 0).run (evictedDirty 0 1 2 fun _ => 7) = some x ∧ x.Stale 2) ∧
    (∃ x : System (Fin 3) Nat, ReflTransGen Step (init fun _ => 0) x ∧
      (init fun _ => 0).run (loadedStale 0 1 2 fun _ => 7) = some x ∧ x.Stale 2) ∧
    ∃ x : System (Fin 3) Nat, ReflTransGen Step (init fun _ => 0) x ∧
      (init fun _ => 0).run (zeroedLate 1 2 fun _ => 7) = some x ∧ x.Stale 2 :=
  ⟨stale_of_run 1 (by decide +kernel), stale_of_run 0 (by decide +kernel), stale_of_run 0 (by decide +kernel)⟩

end System

end ShellCore.Block
