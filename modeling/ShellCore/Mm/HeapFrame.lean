import ShellCore.Lib.Actors
import ShellCore.Mm.HeapSpec

/-!
# Which calls of `brk` leave other mappings alone

`BrkCorrect` is the contract of `brk`: after success the heap range is backed by heap areas and every
other mapping is as before, after failure nothing has changed. The code finds the heap by position
only. `BrkSafe` is the exact condition on the address space and the request under which the contract
holds.
-/

namespace ShellCore.Mm

open MapArea Option OrdMap Nat

/-- Anonymous, private, readable and writable. -/
def MapArea.IsAnonPrivateRw (a : MapArea) : Prop :=
  a.mapType = .framed ∧ a.isShared = false ∧ a.backingFile = none ∧ a.mapPerm.r = true ∧ a.mapPerm.w = true

variable {a : MapArea} {s s' : Populating} {fv : Files} {ms₁ : MemorySet} {m : Arith}

namespace MemorySet

variable {ms ms' : MemorySet} {phys phys' : Phys}

variable (ms)

/-- The page at which the heap ends. -/
def topPage : Nat := (ms.brk + 4095) / 4096

/-- An area of the heap: anonymous, private, readable and writable memory between the initial and
the current break. Every other area is a mapping that is not part of the heap. -/
def IsHeap (a : MapArea) : Prop :=
  a.IsAnonPrivateRw ∧ ms.heapPage ≤ a.start ∧ a.stop ≤ ms.topPage

/-- The two bounds of the heap, as `exec` and earlier calls leave them. -/
structure HeapOk (ms : MemorySet) : Prop where
  ordered : ms.startBrk ≤ ms.brk
  bound : ms.brk ≤ USER_APP_MAX_SIZE

/-- What a successful call promises. -/
structure BrkKeeps (ms : MemorySet) (phys : Phys) (ms' : MemorySet) (phys' : Phys) : Prop where
  covered : ∀ p, ms.heapPage ≤ p → p < ms'.topPage →
    ∃ k a, ms'.areas.get? k = some a ∧ a.contains p = true ∧ ms'.IsHeap a
  apart : ∀ k a p, ms.areas.get? k = some a → ¬ms.IsHeap a → a.contains p = true →
    ¬(ms.heapPage ≤ p ∧ p < ms'.topPage)
  kept : ∀ k a, ms.areas.get? k = some a → ¬ms.IsHeap a → ms'.areas.get? k = some a ∧
    (∀ v, a.contains v = true → ms'.pt v = ms.pt v) ∧
    ∀ v f, a.dataFrames.get? v = some f → phys'.mem f = phys.mem f

/-- The contract of a returning call. -/
def BrkCorrect (phys : Phys) : Returned Nat → Prop
  | (.ok _, ms', phys') => BrkKeeps ms phys ms' phys'
  | (.error _, ms', _) => ms' = ms

/-- Every page from the heap start up to `n` belongs to the heap. -/
def Covered (n : Nat) : Prop :=
  ∀ p, ms.heapPage ≤ p → p < n → ∃ k a, ms.areas.get? k = some a ∧ a.contains p = true ∧ ms.IsHeap a

/-- The page that the requested break is rounded to. -/
def requestedTop (addr : Nat) : Nat :=
  if addr = 0 then ms.topPage else (addr % 2 ^ 39 + 4095) / 4096

/-- The call fails: the request lies below the heap, memory is short, another area is in the way,
or there is nothing to give up. -/
def Refused (freeFrames addr : Nat) : Prop :=
  let f := ms.topPage
  let t := ms.requestedTop addr
  addr ≠ 0 ∧ (addr < ms.startBrk ∨
    ms.brk < addr ∧ (t < f ∨ f < t ∧ (freeFrames < (t - f) / 4096 ∨ Blocked ms f t)) ∨
    ms.startBrk ≤ addr ∧ addr ≤ ms.brk ∧ t < f ∧
      ∀ k a, ms.areas.get? k = some a → isShrunk ms.heapPage f t a = false)

/-- An area that moving the break from page `f` to page `t` runs into. -/
def Touched (f t : Nat) (a : MapArea) : Prop :=
  f < t ∧ (a.start < t ∧ f < a.stop ∨ ms.heapPage ≤ a.start ∧ a.stop = f) ∨
    t < f ∧ isShrunk ms.heapPage f t a = true

/-- The condition under which `brk` keeps its contract: it fails, or the request fits in an address,
the heap has no holes, and no foreign mapping is touched. -/
def BrkSafe (freeFrames addr : Nat) : Prop :=
  Refused ms freeFrames addr ∨
    addr < 2 ^ 39 ∧ Covered ms (min ms.topPage (ms.requestedTop addr)) ∧
      ∀ k a, ms.areas.get? k = some a → ¬ms.IsHeap a → ¬Touched ms ms.topPage (ms.requestedTop addr) a

/-- The frames the allocator hands out are not resident anywhere in the address space. -/
def Fresh (phys : Phys) : Prop :=
  ∀ f ∈ phys.free, ∀ k a v, ms.areas.get? k = some a → a.dataFrames.get? v ≠ some f

variable {ms}

theorem HeapOk.heapPage_le (h : ms.HeapOk) : ms.heapPage ≤ ms.topPage := by
  have := h.ordered
  unfold heapPage topPage
  omega

theorem HeapOk.topPage_le (h : ms.HeapOk) : ms.topPage ≤ maxVpn := by
  have := h.bound
  unfold topPage maxVpn
  unfold USER_APP_MAX_SIZE PAGE_SIZE at *
  omega

/-- Where the heap is covered there is no foreign mapping. -/
theorem Covered.apart (hinv : ms.Inv) {n} (hc : Covered ms n) {k p}
    (ha : ms.areas.get? k = some a) (hforeign : ¬ms.IsHeap a) (hp : a.contains p = true) :
    ¬(ms.heapPage ≤ p ∧ p < n) := by
  rintro ⟨h1, h2⟩
  obtain ⟨k', b, hb, hpb, hheap⟩ := hc p h1 h2
  rw [contains_iff] at hp hpb
  obtain ⟨_, rfl⟩ := hinv.unique ha hb hp hpb
  exact hforeign hheap

/-- A break beyond the address width is never backed by memory. -/
theorem not_brkKeeps_of_large (hheap : ms.HeapOk) (hbig : 2 ^ 39 ≤ ms'.brk)
    (hstop : ∀ k a, ms'.areas.get? k = some a → a.stop ≤ maxVpn ∨ a.stop ≤ (ms'.brk % 2 ^ 39 + 4095) / 4096) :
    ¬BrkKeeps ms phys ms' phys' := by
  intro h
  have h1 := hheap.heapPage_le
  have h2 := hheap.topPage_le
  have h3 : maxVpn = 2 ^ 26 := rfl
  obtain ⟨k, a, ha, hp, _⟩ := h.covered (max maxVpn ((ms'.brk % 2 ^ 39 + 4095) / 4096)) (by omega) (by
    unfold topPage
    omega)
  rw [contains_iff] at hp
  have := hstop k a ha
  omega

/-- A call that leaves the areas and the entries alone keeps its contract if the heap has no hole. -/
theorem brkKeeps_same (hinv : ms.Inv) {b} (hb : (b + 4095) / 4096 = ms.topPage) :
    BrkKeeps ms phys { ms with brk := b } phys ↔ Covered ms ms.topPage := by
  constructor
  · intro h p h1 h2
    obtain ⟨k, a, ha, hp, hkind, hlow, hhigh⟩ := h.covered p h1 (by show p < (b + 4095) / 4096; omega)
    exact ⟨k, a, ha, hp, hkind, hlow, by have : a.stop ≤ (b + 4095) / 4096 := hhigh; omega⟩
  · intro hc
    refine ⟨fun p h1 h2 => ?_, fun k a p ha hf hp hin => ?_, fun k a ha _ => ⟨ha, fun _ _ => rfl, fun _ _ _ => rfl⟩⟩
    · have h2 : p < (b + 4095) / 4096 := h2
      obtain ⟨k, a, ha, hp, hkind, hlow, hhigh⟩ := hc p h1 (by omega)
      exact ⟨k, a, ha, hp, hkind, hlow, by show a.stop ≤ (b + 4095) / 4096; omega⟩
    · have h2 : p < (b + 4095) / 4096 := hin.2
      exact hc.apart hinv ha hf hp ⟨hin.1, by omega⟩

/-- Shrinking keeps the contract if what stays has no hole and only heap areas are cut. -/
theorem brkKeeps_shrunk (hinv : ms.Inv) {t addr} (ht : t < ms.topPage)
    (haddr : (addr + 4095) / 4096 = t) (hs : Shrunk ms.heapPage ms.topPage t ms ms₁) :
    BrkKeeps ms phys { ms₁ with brk := addr } phys ↔ Covered ms t ∧
      ∀ k a, ms.areas.get? k = some a → ¬ms.IsHeap a → isShrunk ms.heapPage ms.topPage t a = false := by
  have hpage : heapPage { ms₁ with brk := addr } = ms.heapPage := by unfold heapPage; rw [hs.startBrk]
  constructor
  · intro h
    have huncut : ∀ k a, ms.areas.get? k = some a → ¬ms.IsHeap a → isShrunk ms.heapPage ms.topPage t a = false := by
      intro k a ha hf
      by_contra hcut
      rw [Bool.not_eq_false] at hcut
      have hget : (shrunkParts ms.heapPage ms.topPage t a).head? = some a := by
        have := (h.kept k a ha hf).1
        rw [show ({ ms₁ with brk := addr } : MemorySet).areas.get? k = _ from hs.get? k, ha] at this
        exact this
      rw [shrunkParts, if_pos hcut] at hget
      split at hget
      · have hstop := congrArg MapArea.stop (some.inj hget)
        have := (isShrunk_iff.1 hcut).2.1
        exact absurd hstop (Nat.ne_of_lt this)
      · cases hget
    refine ⟨fun p h1 h2 => ?_, huncut⟩
    obtain ⟨k, a', ha', hp, hkind, hlow, hhigh⟩ := h.covered p h1 (by show p < (addr + 4095) / 4096; omega)
    rw [show ({ ms₁ with brk := addr } : MemorySet).areas.get? k = _ from hs.get? k] at ha'
    obtain ⟨a, ha, hpart⟩ := bind_eq_some_iff.1 ha'
    refine ⟨k, a, ha, ?_⟩
    unfold shrunkParts at hpart
    by_cases hcut : isShrunk ms.heapPage ms.topPage t a = true
    · have hheap : ms.IsHeap a := by
        by_contra hf
        rw [huncut k a ha hf] at hcut
        cases hcut
      refine ⟨?_, hheap⟩
      rw [if_pos hcut] at hpart
      split at hpart
      · cases hpart
        rw [contains_iff] at hp ⊢
        have := (isShrunk_iff.1 hcut).2.1
        exact ⟨hp.1, by omega⟩
      · cases hpart
    · rw [if_neg hcut] at hpart
      obtain rfl := some.inj hpart
      have hhigh : a.stop ≤ (addr + 4095) / 4096 := hhigh
      exact ⟨hp, hkind, hpage ▸ hlow, by omega⟩
  · rintro ⟨hc, huncut⟩
    refine ⟨fun p h1 h2 => ?_, fun k a p ha hf hp hin => ?_, fun k a ha hf => ⟨?_, fun v hv => ?_, fun _ _ _ => rfl⟩⟩
    · have h2 : p < (addr + 4095) / 4096 := h2
      obtain ⟨k, a, ha, hp, hkind, hlow, hhigh⟩ := hc p h1 (by omega)
      have hget : ({ ms₁ with brk := addr } : MemorySet).areas.get? k =
          (shrunkParts ms.heapPage ms.topPage t a).head? := (hs.get? k).trans (by rw [ha]; rfl)
      rw [contains_iff] at hp
      by_cases hcut : isShrunk ms.heapPage ms.topPage t a = true
      · refine ⟨k, a.leftPart t, ?_, contains_iff.2 ⟨hp.1, by show p < t; omega⟩, hkind, hpage ▸ hlow, ?_⟩
        · rw [hget, shrunkParts, if_pos hcut, if_pos (by omega)]
          rfl
        · show t ≤ (addr + 4095) / 4096
          omega
      · refine ⟨k, a, ?_, contains_iff.2 hp, hkind, hpage ▸ hlow, ?_⟩
        · rw [hget, shrunkParts, if_neg hcut]
          rfl
        · rw [isShrunk_iff] at hcut
          show a.stop ≤ (addr + 4095) / 4096
          omega
    · have h2 : p < (addr + 4095) / 4096 := hin.2
      exact hc.apart hinv ha hf hp ⟨hin.1, by omega⟩
    · rw [show ({ ms₁ with brk := addr } : MemorySet).areas.get? k = _ from hs.get? k, ha, bind_some,
        shrunkParts, huncut k a ha hf]
      rfl
    · show ms₁.pt v = ms.pt v
      rw [hs.entries, if_neg]
      rintro ⟨x, hx, hcut, _, hsome⟩
      obtain ⟨g, hg⟩ := isSome_iff_exists.1 hsome
      have hxa := mem_entries.1 hx
      obtain ⟨h1, h2, _⟩ := (hinv.area x.1 x.2 hxa).resident v g hg
      obtain ⟨_, rfl⟩ := hinv.unique ha hxa (contains_iff.1 hv) ⟨h1, h2⟩
      rw [huncut k x.2 ha hf] at hcut
      cases hcut

/-- The heap area that growing leaves under key `k`: it ends at the new top, and what it held below
the old top was a heap area before. -/
structure GrownArea (ms : MemorySet) (k t : Nat) (a : MapArea) : Prop where
  kind : a.IsAnonPrivateRw
  low : ms.heapPage ≤ a.start
  start : a.start ≤ ms.topPage
  stop : a.stop = t
  old : ∀ b, ms.areas.get? k = some b → ms.IsHeap b
  below : ∀ p, a.start ≤ p → p < ms.topPage → ∃ b, ms.areas.get? k = some b ∧ b.contains p = true
  above : ∀ b, ms.areas.get? k = some b → a.start ≤ b.start

/-- Growing keeps the contract if the heap had no hole and no foreign mapping meets the new pages. -/
theorem brkKeeps_grown (hinv : ms.Inv) (hheap : ms.HeapOk) {k t addr pt}
    (ht : ms.topPage < t) (haddr : (addr + 4095) / 4096 = t) (ha : GrownArea ms k t a)
    (hpt : ∀ v, ¬(ms.topPage ≤ v ∧ v < t) → pt v = ms.pt v)
    (hmem : ∀ k b v f, ms.areas.get? k = some b → b.dataFrames.get? v = some f → phys'.mem f = phys.mem f) :
    BrkKeeps ms phys { ms with areas := ms.areas.insert k a, pt, brk := addr } phys' ↔
      Covered ms ms.topPage ∧ ∀ k b, ms.areas.get? k = some b → ¬ms.IsHeap b → ¬(b.start < t ∧ ms.topPage < b.stop) := by
  have hle := hheap.heapPage_le
  constructor
  · intro h
    refine ⟨fun p h1 h2 => ?_, fun k' b hb hf hmeet => ?_⟩
    · have hlt : p < (addr + 4095) / 4096 := by omega
      obtain ⟨k', b, hb, hp, hkind, hlow, hhigh⟩ := h.covered p h1 hlt
      by_cases hk : k' = k
      · subst hk
        obtain rfl := some.inj (get?_insert_self.symm.trans hb)
        obtain ⟨c, hc, hpc⟩ := ha.below p (contains_iff.1 hp).1 h2
        exact ⟨k', c, hc, hpc, ha.old c hc⟩
      · have hb : ms.areas.get? k' = some b := (get?_insert_of_ne hk).symm.trans hb
        refine ⟨k', b, hb, hp, ?_⟩
        by_contra hf
        exact h.apart k' b p hb hf hp ⟨h1, hlt⟩
    · -- the first page of the overlap lies in the new heap range
      have hne : b.start < b.stop := by
        have hbounds := (hinv.area k' b hb).bounds
        rcases lt_or_eq_of_le hbounds with hlt | heq
        · exact hlt
        · have := hinv.empty k' b hb heq
          omega
      refine h.apart k' b (max b.start ms.topPage) hb hf (contains_iff.2 ⟨by omega, by omega⟩) ⟨by omega, ?_⟩
      show max b.start ms.topPage < (addr + 4095) / 4096
      omega
  · rintro ⟨hc, hmeet⟩
    have hkept : ∀ k' b, ms.areas.get? k' = some b → ¬ms.IsHeap b → k' ≠ k := by
      rintro k' b hb hf rfl
      exact hf (ha.old b hb)
    refine ⟨fun p h1 h2 => ?_, fun k' b p hb hf hp hin => ?_, fun k' b hb hf => ⟨?_, fun v hv => ?_, ?_⟩⟩
    · have h2 : p < (addr + 4095) / 4096 := h2
      by_cases htop : ms.topPage ≤ p
      · refine ⟨k, a, get?_insert_self, contains_iff.2 ?_, ha.kind, ha.low, ?_⟩
        · have := ha.start
          have := ha.stop
          omega
        · exact le_of_eq (ha.stop.trans haddr.symm)
      · obtain ⟨k', b, hb, hp, hkind, hlow, hhigh⟩ := hc p h1 (by omega)
        by_cases hk : k' = k
        · subst hk
          refine ⟨k', a, get?_insert_self, contains_iff.2 ?_, ha.kind, ha.low, ?_⟩
          · have := ha.above b hb
            have := ha.stop
            have := (contains_iff.1 hp).1
            omega
          · exact le_of_eq (ha.stop.trans haddr.symm)
        · refine ⟨k', b, (get?_insert_of_ne hk).trans hb, hp, hkind, hlow, ?_⟩
          show b.stop ≤ (addr + 4095) / 4096
          omega
    · have h2 : p < (addr + 4095) / 4096 := hin.2
      by_cases htop : ms.topPage ≤ p
      · have := contains_iff.1 hp
        exact hmeet k' b hb hf ⟨by omega, by omega⟩
      · exact hc.apart hinv hb hf hp ⟨hin.1, by omega⟩
    · exact (get?_insert_of_ne (hkept k' b hb hf)).trans hb
    · refine hpt v fun hin => hmeet k' b hb hf ?_
      have := contains_iff.1 hv
      exact ⟨by omega, by omega⟩
    · exact fun v f hv => hmem k' b v f hb hv

/-! ## The two ways of growing -/

/-- The page table and the memory after a heap area was populated from `lo` to `t`. -/
theorem populated_frame {used lo hi}
    (hfresh : Fresh ms phys) (hpt : s.pt = ms.pt) (hphys : s.phys = phys)
    (h : Populated fv (fun w => lo ≤ w ∧ w < hi) used s s') :
    (∀ v, ¬(lo ≤ v ∧ v < hi) → s'.pt v = ms.pt v) ∧
      ∀ k b v f, ms.areas.get? k = some b → b.dataFrames.get? v = some f → s'.phys.mem f = phys.mem f := by
  refine ⟨fun v hv => ?_, fun k b v f hb hf => ?_⟩
  · rcases h.page v with hsame | ⟨hin, _⟩
    · rw [hsame.2, hpt]
    · exact absurd hin hv
  · rw [h.mem f fun hused => ?_, hphys]
    refine hfresh f ?_ k b v hb hf
    rw [← hphys, h.free]
    exact List.mem_append_left _ hused

theorem appendTo_framed {t}
    (hframed : s.area.mapType = .framed) (hlt : s.area.stop < t) (h : s.appendTo m fv t = some s') :
    ∃ used s₁, Populated fv (fun w => s.area.stop ≤ w ∧ w < t) used s s₁ ∧ s'.pt = s₁.pt ∧ s'.phys = s₁.phys ∧
      s'.area = { s.area with stop := t, dataFrames := s'.area.dataFrames } ∧
      s'.area.dataFrames = s₁.area.dataFrames ∧
      ∀ w, s.area.stop ≤ w → w < t → s.pt w = none ∧ ∃ f, s'.area.dataFrames.get? w = some f := by
  simp only [Populating.appendTo, bind_eq_bind, bind_eq_some_iff] at h
  obtain ⟨s₁, h₁, r, hr, h⟩ := h
  obtain ⟨_, rfl⟩ := VPNRange.new_some.1 hr
  cases h
  obtain ⟨⟨used, hpop⟩, hall⟩ := Populating.mapPages_framed hframed h₁
  have hw : s.area.stop + (t - s.area.stop) = t := by omega
  rw [hw] at hpop hall
  refine ⟨used, s₁, hpop, rfl, rfl, ?_, rfl, hall⟩
  simp only
  rw [hpop.attrs]

/-- Extending a heap area. -/
theorem extended_grownArea (hinv : ms.Inv) {k t a a'} (hk : ms.areas.get? k = some a)
    (hheap : ms.IsHeap a) (hstop : a.stop = ms.topPage)
    (ha' : a' = { a with stop := t, dataFrames := a'.dataFrames }) : GrownArea ms k t a' where
  kind := by rw [ha']; exact hheap.1
  low := by rw [ha']; exact hheap.2.1
  start := by
    rw [ha']
    show a.start ≤ ms.topPage
    have := (hinv.area k a hk).bounds
    omega
  stop := congrArg MapArea.stop ha'
  old b hb := by
    obtain rfl := some.inj (hk.symm.trans hb)
    exact hheap
  below p h1 h2 := by
    rw [ha'] at h1
    exact ⟨a, hk, contains_iff.2 ⟨h1, by omega⟩⟩
  above b hb := by
    obtain rfl := some.inj (hk.symm.trans hb)
    have hstart : a'.start = a.start := by rw [ha']
    exact le_of_eq hstart

/-- Adding a heap area where none could be extended. -/
theorem added_grownArea (hinv : ms.Inv) (hheap : ms.HeapOk) {t a'}
    (hno : ∀ k a, ¬Target ms ms.topPage k a)
    (ha' : a' = { newHeapArea ms.topPage t with dataFrames := a'.dataFrames }) : GrownArea ms ms.topPage t a' := by
  have hle := hheap.heapPage_le
  have hnone : ∀ b, ms.areas.get? ms.topPage ≠ some b := by
    intro b hb
    have hkey := hinv.keyed _ b hb
    have hbounds := (hinv.area _ b hb).bounds
    refine hno ms.topPage b ⟨hb, by omega, ?_⟩
    omega
  refine ⟨?_, ?_, ?_, ?_, fun b hb => absurd hb (hnone b), fun p h1 h2 => ?_, fun b hb => absurd hb (hnone b)⟩
  · rw [ha']
    exact ⟨rfl, rfl, rfl, rfl, rfl⟩
  · rw [ha']
    exact hle
  · rw [ha']
    exact le_refl _
  · rw [ha']
    rfl
  · rw [ha'] at h1
    have h1 : ms.topPage ≤ p := h1
    omega

theorem appendTo_stop {t} (h : s.appendTo m fv t = some s') : s'.area.stop = t := by
  simp only [Populating.appendTo, bind_eq_bind, bind_eq_some_iff] at h
  obtain ⟨s₁, _, r, hr, h⟩ := h
  obtain ⟨_, rfl⟩ := VPNRange.new_some.1 hr
  cases h
  rfl

theorem map_framed (hframed : s.area.mapType = .framed) (hb : s.area.start ≤ s.area.stop) (h : s.map m fv = some s') :
    ∃ used, Populated fv (fun w => s.area.start ≤ w ∧ w < s.area.stop) used s s' := by
  have hw : s.area.start + (s.area.stop - s.area.start) = s.area.stop := by omega
  obtain ⟨hpop, _⟩ := Populating.mapPages_framed hframed h
  rwa [hw] at hpop

/-- At most one area from the heap start on ends at a given page. -/
theorem Inv.unique_stop (h : ms.Inv) {k₁ k₂ f a₁ a₂} (h₁ : ms.areas.get? k₁ = some a₁)
    (h₂ : ms.areas.get? k₂ = some a₂) (hl₁ : ms.heapPage ≤ a₁.start) (hl₂ : ms.heapPage ≤ a₂.start)
    (hs₁ : a₁.stop = f) (hs₂ : a₂.stop = f) : a₁ = a₂ := by
  have hb₁ := (h.area k₁ a₁ h₁).bounds
  have hb₂ := (h.area k₂ a₂ h₂).bounds
  have he₁ := h.empty k₁ a₁ h₁
  have he₂ := h.empty k₂ a₂ h₂
  by_cases hne : a₁.start < f ∧ a₂.start < f
  · exact (h.unique (v := f - 1) h₁ h₂ (by omega) (by omega)).2
  · -- an empty area sits at the heap start, so both are empty there
    have hk₁ := h.keyed k₁ a₁ h₁
    have hk₂ := h.keyed k₂ a₂ h₂
    obtain rfl : k₁ = k₂ := by omega
    exact some.inj (h₁.symm.trans h₂)

/-- Growing by an area of the heap, for any requested address. -/
theorem brkKeeps_of_grownArea (hinv : ms.Inv) (hheap : ms.HeapOk) {k t addr pt}
    (haddr : t = (addr % 2 ^ 39 + 4095) / 4096) (hlt : ms.topPage < t) (ha : GrownArea ms k t a)
    (hpt : ∀ v, ¬(ms.topPage ≤ v ∧ v < t) → pt v = ms.pt v)
    (hmem : ∀ k b v f, ms.areas.get? k = some b → b.dataFrames.get? v = some f → phys'.mem f = phys.mem f)
    (hadj : ∀ k b, ms.areas.get? k = some b → ¬ms.IsHeap b → ms.heapPage ≤ b.start → b.stop ≠ ms.topPage) :
    BrkKeeps ms phys { ms with areas := ms.areas.insert k a, pt, brk := addr } phys' ↔
      addr < 2 ^ 39 ∧ Covered ms ms.topPage ∧
        ∀ k a, ms.areas.get? k = some a → ¬ms.IsHeap a → ¬Touched ms ms.topPage t a := by
  have htouched : ∀ k b, ms.areas.get? k = some b → ¬ms.IsHeap b →
      (Touched ms ms.topPage t b ↔ b.start < t ∧ ms.topPage < b.stop) := by
    intro k b hb hf
    have := hadj k b hb hf
    unfold Touched
    constructor
    · rintro (⟨_, hmeet | ⟨h1, h2⟩⟩ | ⟨hgt, _⟩)
      · exact hmeet
      · exact absurd h2 (this h1)
      · omega
    · exact fun hmeet => Or.inl ⟨hlt, Or.inl hmeet⟩
  by_cases hbig : addr < 2 ^ 39
  · rw [brkKeeps_grown hinv hheap hlt (by omega) ha hpt hmem]
    refine ⟨fun h => ⟨hbig, h.1, fun k b hb hf ht => h.2 k b hb hf ((htouched k b hb hf).1 ht)⟩,
      fun h => ⟨h.2.1, fun k b hb hf hm => h.2.2 k b hb hf ((htouched k b hb hf).2 hm)⟩⟩
  · refine ⟨fun h => absurd h (not_brkKeeps_of_large hheap (not_lt.1 hbig) fun k' b hb => ?_),
      fun h => absurd h.1 hbig⟩
    by_cases hk : k' = k
    · subst hk
      obtain rfl := some.inj (get?_insert_self.symm.trans hb)
      exact Or.inr (le_of_eq (ha.stop.trans haddr))
    · exact Or.inl (hinv.limit k' b ((get?_insert_of_ne hk).symm.trans hb))

/-- A successful growth, seen from the contract. -/
theorem brkKeeps_of_grown (hinv : ms.Inv) (hheap : ms.HeapOk) (hfresh : Fresh ms phys)
    {t addr} (haddr : t = (addr % 2 ^ 39 + 4095) / 4096) (hlt : ms.topPage < t)
    (hg : Grown m fv ms.topPage t ms phys (.ok (), ms₁, phys')) :
    BrkKeeps ms phys { ms₁ with brk := addr } phys' ↔ addr < 2 ^ 39 ∧ Covered ms ms.topPage ∧
      ∀ k a, ms.areas.get? k = some a → ¬ms.IsHeap a → ¬Touched ms ms.topPage t a := by
  have hle := hheap.heapPage_le
  -- an area that holds the old top is a foreign mapping inside the new heap range
  have hinside : ∀ k a, ms.areas.get? k = some a → a.start ≤ ms.topPage → ms.topPage < a.stop → ∀ ms₂ : MemorySet,
      ms₂.brk = addr → (BrkKeeps ms phys ms₂ phys' ↔ addr < 2 ^ 39 ∧ Covered ms ms.topPage ∧
        ∀ k a, ms.areas.get? k = some a → ¬ms.IsHeap a → ¬Touched ms ms.topPage t a) := by
    intro k a ha h1 h2 ms₂ hbrk
    have hf : ¬ms.IsHeap a := fun hc => not_lt.2 hc.2.2 h2
    constructor
    · intro h
      refine absurd ⟨hle, ?_⟩ (h.apart k a ms.topPage ha hf (contains_iff.2 ⟨h1, h2⟩))
      rw [topPage, topPage, hbrk]
      unfold topPage at hlt
      omega
    · rintro ⟨_, _, h⟩
      exact absurd (Or.inl ⟨hlt, Or.inl ⟨by omega, h2⟩⟩) (h k a ha hf)
  cases hg with
  | covered k a hfree htarget hcov =>
    obtain ⟨ha, _, hpos⟩ := htarget
    exact hinside k a ha (by omega) (by omega) _ rfl
  | extended k a s hfree htarget hstop happ =>
    obtain ⟨ha, hlow, ⟨h1, h2⟩ | hend⟩ := htarget
    · exact hinside k a ha h1 h2 _ rfl
    · by_cases hkind : ms.IsHeap a
      · obtain ⟨used, s₁, hpop, hspt, hsphys, harea, _, _⟩ := appendTo_framed hkind.1.1 (show a.stop < t by omega) happ
        obtain ⟨hpt, hmem⟩ := populated_frame hfresh rfl rfl hpop
        rw [hspt, hsphys]
        refine brkKeeps_of_grownArea hinv hheap haddr hlt (extended_grownArea hinv ha hkind hend harea)
          (hend ▸ hpt) hmem fun k' b hb hf hlowb hbend => hf ?_
        exact hinv.unique_stop ha hb hlow hlowb hend hbend ▸ hkind
      · -- a foreign area that ends at the old top is extended
        constructor
        · intro h
          have hget := (h.kept k a ha hkind).1
          have hsame : s.area = a := some.inj (get?_insert_self.symm.trans hget)
          have hst := appendTo_stop happ
          rw [hsame] at hst
          omega
        · rintro ⟨_, _, h⟩
          exact absurd (Or.inl ⟨hlt, Or.inr ⟨hlow, hend⟩⟩) (h k a ha hkind)
  | added s hfree hno hmap =>
    obtain ⟨used, hpop⟩ := map_framed (s := ⟨newHeapArea ms.topPage t, ms.pt, phys⟩) rfl (le_of_lt hlt) hmap
    obtain ⟨hpt, hmem⟩ := populated_frame hfresh rfl rfl hpop
    refine brkKeeps_of_grownArea hinv hheap haddr hlt (added_grownArea hinv hheap hno hpop.attrs) hpt hmem ?_
    exact fun k b hb _ hlowb hbend => hno k b ⟨hb, hlowb, Or.inr hbend⟩

/-! ## The call -/

variable {m : Arith} {fv : Files} {freeFrames addr : Nat}

theorem Grown.not_blocked {f t} (h : Grown m fv f t ms phys (.ok (), ms₁, phys')) : ¬Blocked ms f t := by
  cases h <;> assumption

/-- A refused call that changes nothing keeps the contract on both sides. -/
theorem brkCorrect_of_refused {e} (h : Refused ms freeFrames addr) :
    BrkCorrect ms phys (.error e, ms, phys') ↔ BrkSafe ms freeFrames addr :=
  ⟨fun _ => Or.inl h, fun _ => rfl⟩

/-- A call that does not change the top page. -/
theorem brkSafe_same (hsame : ms.requestedTop addr = ms.topPage) (hlow : addr = 0 ∨ ms.startBrk ≤ addr) :
    BrkSafe ms freeFrames addr ↔ addr < 2 ^ 39 ∧ Covered ms ms.topPage := by
  have hnot : ¬Refused ms freeFrames addr := by
    rintro ⟨_, hlow' | ⟨_, hlt | ⟨hlt, _⟩⟩ | ⟨_, _, hlt, _⟩⟩ <;> omega
  have huntouched : ∀ a, ¬Touched ms ms.topPage ms.topPage a := by
    rintro a (⟨hlt, _⟩ | ⟨hlt, _⟩) <;> omega
  simp only [BrkSafe, hnot, false_or, hsame, min_self, huntouched, not_false_eq_true, implies_true, and_true]

/-- A call that raises the top page and is not refused. -/
theorem brkSafe_grown (hlow : ms.startBrk ≤ addr) (hlt : ms.topPage < ms.requestedTop addr)
    (hframes : ¬freeFrames < (ms.requestedTop addr - ms.topPage) / 4096)
    (hfree : ¬Blocked ms ms.topPage (ms.requestedTop addr)) :
    BrkSafe ms freeFrames addr ↔ addr < 2 ^ 39 ∧ Covered ms ms.topPage ∧
      ∀ k a, ms.areas.get? k = some a → ¬ms.IsHeap a → ¬Touched ms ms.topPage (ms.requestedTop addr) a := by
  have hnot : ¬Refused ms freeFrames addr := by
    rintro ⟨_, hlow' | ⟨_, hgt | ⟨_, hf | hb⟩⟩ | ⟨_, _, hgt, _⟩⟩
    · omega
    · omega
    · exact hframes hf
    · exact hfree hb
    · omega
  simp only [BrkSafe, hnot, false_or, min_eq_left (le_of_lt hlt)]

/-- A call that lowers the top page and finds something to cut. -/
theorem brkSafe_shrunk (hlow : ms.startBrk ≤ addr) (hhigh : addr ≤ ms.brk) (hlt : ms.requestedTop addr < ms.topPage)
    (hbrk : addr < 2 ^ 39)
    (hcut : ∃ k a, ms.areas.get? k = some a ∧ isShrunk ms.heapPage ms.topPage (ms.requestedTop addr) a = true) :
    BrkSafe ms freeFrames addr ↔ Covered ms (ms.requestedTop addr) ∧
      ∀ k a, ms.areas.get? k = some a → ¬ms.IsHeap a →
        isShrunk ms.heapPage ms.topPage (ms.requestedTop addr) a = false := by
  obtain ⟨k, a, ha, hcut⟩ := hcut
  have hnot : ¬Refused ms freeFrames addr := by
    rintro ⟨_, hlow' | ⟨hgt, _⟩ | ⟨_, _, _, hnone⟩⟩
    · omega
    · omega
    · exact absurd (hnone k a ha) (by rw [hcut]; decide)
  have htouched : ∀ a, ¬Touched ms ms.topPage (ms.requestedTop addr) a ↔
      isShrunk ms.heapPage ms.topPage (ms.requestedTop addr) a = false := by
    intro a
    rw [Touched, Bool.eq_false_iff]
    have hnlt : ¬ms.topPage < ms.requestedTop addr := by omega
    simp only [hnlt, false_and, false_or, hlt, true_and, ne_eq]
  simp only [BrkSafe, hnot, false_or, min_eq_right (le_of_lt hlt), hbrk, true_and, htouched]

/-- The result of the call, from the result of moving the areas. -/
def moved (addr : Nat) : Returned Unit → Returned Nat
  | (.error e, ms, phys) => (.error e, ms, phys)
  | (.ok (), ms, phys) => (.ok addr, { ms with brk := addr }, phys)

theorem brkCorrect_grow (hinv : ms.Inv) (hheap : ms.HeapOk) (hfresh : Fresh ms phys) (h0 : addr ≠ 0)
    (hlow : ms.startBrk ≤ addr) (hgrow : ms.brk < addr) (hlt : ms.topPage < ms.requestedTop addr)
    (hshort : ¬freeFrames < (ms.requestedTop addr - ms.topPage) / PAGE_SIZE) {r}
    (hg : Grown m fv ms.topPage (ms.requestedTop addr) ms phys r) :
    BrkCorrect ms phys (moved addr r) ↔ BrkSafe ms freeFrames addr := by
  obtain ⟨e | ⟨⟩, ms₁, phys₁⟩ := r
  · cases hg with
    | blocked hb => exact brkCorrect_of_refused ⟨h0, Or.inr (Or.inl ⟨hgrow, Or.inr ⟨hlt, Or.inr hb⟩⟩)⟩
  · rw [brkSafe_grown hlow hlt hshort hg.not_blocked]
    exact brkKeeps_of_grown hinv hheap hfresh (if_neg h0) hlt hg

theorem brkCorrect_shrink (hinv : ms.Inv) (hheap : ms.HeapOk) (h0 : addr ≠ 0) (hlow : ms.startBrk ≤ addr)
    (hhigh : addr ≤ ms.brk) (hlt : ms.requestedTop addr < ms.topPage) {r}
    (hr : ms.shrinkHeapLocked m phys (ms.topPage * PAGE_SIZE) (ms.requestedTop addr * PAGE_SIZE) ms.startBrk = some r) :
    BrkCorrect ms phys (moved addr r) ↔ BrkSafe ms freeFrames addr := by
  have hbound : ms.brk ≤ 2 ^ 38 := hheap.bound
  have htop : ms.requestedTop addr = (addr % 2 ^ 39 + 4095) / 4096 := if_neg h0
  have htople : ms.topPage ≤ 2 ^ 26 := hheap.topPage_le
  obtain ⟨res, ms₁, phys₁⟩ := r
  obtain ⟨rfl, hcase⟩ := hinv.shrinkHeapLocked (by omega) hlt (by omega) hr
  rcases hcase with ⟨hcut, rfl, hs⟩ | ⟨hnone, rfl, rfl⟩
  · rw [brkSafe_shrunk hlow hhigh hlt (by omega) hcut]
    exact brkKeeps_shrunk hinv hlt (by omega) hs
  · exact brkCorrect_of_refused ⟨h0, Or.inr (Or.inr ⟨hlow, hhigh, hlt, hnone⟩)⟩

/-- When the request lies above the break but wraps to a lower page, the number of pages does not
fit in memory. -/
theorem sub_pages_large {f t pages} (hlt : t < f) (hf : f ≤ 2 ^ 27) (h : m.sub t f = some pages) :
    2 ^ 51 ≤ pages / PAGE_SIZE := by
  unfold Arith.sub at h
  rw [if_neg (by omega)] at h
  cases m with
  | checked => cases h
  | wrapping =>
    have := some.inj h
    unfold PAGE_SIZE
    omega

/-- `brk` keeps its contract exactly under `BrkSafe`. -/
theorem brkCorrect_iff (hinv : ms.Inv) (hheap : ms.HeapOk) (hfresh : Fresh ms phys) (hframes : freeFrames < 2 ^ 51)
    {r : Returned Nat} (hr : ms.changeProgramBrk m fv freeFrames phys addr = some r) :
    BrkCorrect ms phys r ↔ BrkSafe ms freeFrames addr := by
  have htople : ms.topPage ≤ 2 ^ 26 := hheap.topPage_le
  have hbound : ms.brk ≤ 2 ^ 38 := hheap.bound
  have hord := hheap.ordered
  unfold changeProgramBrk at hr
  by_cases h0 : addr = 0
  · -- a query
    rw [if_pos h0] at hr
    cases hr
    rw [brkSafe_same (if_pos h0) (Or.inl h0), and_iff_right (by omega)]
    exact brkKeeps_same hinv rfl
  rw [if_neg h0] at hr
  have htop : ms.requestedTop addr = (addr % 2 ^ 39 + 4095) / 4096 := if_neg h0
  by_cases hlow : addr < ms.startBrk
  · rw [if_pos hlow] at hr
    cases hr
    exact brkCorrect_of_refused ⟨h0, Or.inl hlow⟩
  rw [if_neg hlow] at hr
  simp only [bind_eq_bind, bind_eq_some_iff] at hr
  obtain ⟨f, hf, t, ht, hr⟩ := hr
  obtain rfl : f = ms.topPage := by
    rw [VirtAddr.stdCeil_ofUsize hf, topPage, mod_eq_of_lt (by omega)]
  obtain rfl : t = ms.requestedTop addr := (VirtAddr.stdCeil_ofUsize ht).trans htop.symm
  have hlow : ms.startBrk ≤ addr := not_lt.1 hlow
  by_cases hsame : ms.topPage = ms.requestedTop addr
  · rw [if_pos hsame] at hr
    cases hr
    rw [brkSafe_same hsame.symm (Or.inr hlow)]
    by_cases hbig : addr < 2 ^ 39
    · rw [and_iff_right hbig]
      exact brkKeeps_same hinv (by omega)
    · refine ⟨fun h => absurd h ?_, fun h => absurd h.1 hbig⟩
      exact not_brkKeeps_of_large hheap (not_lt.1 hbig) fun k a ha => Or.inl (hinv.limit k a ha)
  rw [if_neg hsame] at hr
  by_cases hgrow : addr > ms.brk
  · rw [if_pos hgrow] at hr
    simp only [bind_eq_some_iff] at hr
    obtain ⟨pages, hpages, hr⟩ := hr
    by_cases hwrap : ms.requestedTop addr < ms.topPage
    · have hlarge := sub_pages_large hwrap (by omega) hpages
      rw [if_pos (lt_of_lt_of_le hframes hlarge)] at hr
      cases hr
      exact brkCorrect_of_refused ⟨h0, Or.inr (Or.inl ⟨hgrow, Or.inl hwrap⟩)⟩
    have hlt : ms.topPage < ms.requestedTop addr := by omega
    rw [Arith.sub_eq (le_of_lt hlt)] at hpages
    cases hpages
    by_cases hshort : freeFrames < (ms.requestedTop addr - ms.topPage) / PAGE_SIZE
    · rw [if_pos hshort] at hr
      cases hr
      exact brkCorrect_of_refused ⟨h0, Or.inr (Or.inl ⟨hgrow, Or.inr ⟨hlt, Or.inl hshort⟩⟩)⟩
    rw [if_neg hshort] at hr
    obtain ⟨r₁, hr₁, hr⟩ := bind_eq_some_iff.1 hr
    have hg := growHeapLocked_grown (by omega) hlt (by omega) hr₁
    obtain rfl : moved addr r₁ = r := by
      obtain ⟨e | ⟨⟩, ms₁, phys₁⟩ := r₁ <;> exact some.inj hr
    exact brkCorrect_grow hinv hheap hfresh h0 hlow hgrow hlt hshort hg
  · rw [if_neg hgrow] at hr
    have hlt : ms.requestedTop addr < ms.topPage := by
      unfold topPage at hsame ⊢
      omega
    obtain ⟨r₁, hr₁, hr⟩ := bind_eq_some_iff.1 hr
    obtain rfl : moved addr r₁ = r := by
      obtain ⟨e | ⟨⟩, ms₁, phys₁⟩ := r₁ <;> exact some.inj hr
    exact brkCorrect_shrink hinv hheap h0 hlow (not_lt.1 hgrow) hlt hr₁

/-! ## Two small address spaces -/

/-- An address space with one area and an empty heap that starts at page 16. -/
def smallSpace (a : MapArea) : MemorySet where
  areas := empty.insert a.start a
  pt v := if v = trampolineVpn then some ⟨0, ⟨true, false, true, true⟩⟩ else none
  startBrk := 0x10000
  brk := 0x10000

/-- Physical memory with two free frames. -/
def smallPhys : Phys where
  free := [1, 2]
  mem _ _ := 0
  shared _ _ := none
  nextShared := 0

def noFiles : Files where
  size _ := 0
  readPage _ _ _ := 0
  getFilePage _ _ := none
  getSharedPage _ _ := none

theorem smallSpace_get? {a b k} (h : (smallSpace a).areas.get? k = some b) : k = a.start ∧ b = a := by
  have h : (empty.insert a.start a).get? k = some b := h
  rw [get?_insert, get?_empty] at h
  split at h
  · rename_i hk
    exact ⟨hk, (some.inj h).symm⟩
  · cases h

theorem smallSpace_inv (hframes : a.dataFrames = .empty) (hb : a.start ≤ a.stop) (hl : a.stop ≤ maxVpn)
    (hempty : a.start = a.stop → a.start = 16) : (smallSpace a).Inv := by
  have hnone : ∀ v, a.dataFrames.get? v = none := fun v => by rw [hframes, get?_empty]
  refine ⟨?_, ?_, ?_, ?_, ?_, rfl, ?_, ?_⟩
  · intro k b hk
    obtain ⟨rfl, rfl⟩ := smallSpace_get? hk
    rfl
  · intro k b hk
    obtain ⟨rfl, rfl⟩ := smallSpace_get? hk
    refine ⟨hb, fun v f hf => ?_, fun v f hf => ?_⟩
    · cases (hnone v).symm.trans hf
    · cases (hnone v).symm.trans hf
  · intro k b hk
    obtain ⟨rfl, rfl⟩ := smallSpace_get? hk
    exact hl
  · intro k₁ a₁ k₂ a₂ v h₁ h₂ _ _
    rw [(smallSpace_get? h₁).1, (smallSpace_get? h₂).1]
  · intro v p hp hv
    have hp : (if v = trampolineVpn then some _ else none) = some p := hp
    rw [if_neg hv] at hp
    cases hp
  · intro k b hk
    obtain ⟨rfl, rfl⟩ := smallSpace_get? hk
    exact hnone _
  · intro k b hk he
    obtain ⟨rfl, rfl⟩ := smallSpace_get? hk
    rw [hempty he]
    show 16 = (0x10000 + 4095) / 4096
    decide

theorem smallSpace_fresh (hframes : a.dataFrames = .empty) : Fresh (smallSpace a) smallPhys := by
  intro f _ k b v hk hv
  obtain ⟨rfl, rfl⟩ := smallSpace_get? hk
  rw [hframes, get?_empty] at hv
  cases hv

theorem smallSpace_heapOk : (smallSpace a).HeapOk :=
  ⟨le_refl _, show 0x10000 ≤ 2 ^ 38 by decide⟩

/-- The placeholder that `exec` leaves for the heap. -/
def placeholder : MapArea := newHeapArea 16 16

/-- The first page of a fresh heap can be had. -/
theorem brkCorrect_iff_placeholder : ∃ r,
    (smallSpace placeholder).changeProgramBrk .checked noFiles 2 smallPhys 0x11000 = some r ∧
      (BrkCorrect (smallSpace placeholder) smallPhys r ↔ BrkSafe (smallSpace placeholder) 2 0x11000) := by
  obtain ⟨r, hr⟩ := isSome_iff_exists.1 (by decide +kernel :
    ((smallSpace placeholder).changeProgramBrk .checked noFiles 2 smallPhys 0x11000).isSome = true)
  exact ⟨r, hr, brkCorrect_iff (smallSpace_inv rfl (by decide) (by decide) fun _ => rfl) smallSpace_heapOk
    (smallSpace_fresh rfl) (by decide) hr⟩

/-- A page of read-only memory at the break. -/
def readOnlyPage : MapArea := { newHeapArea 16 17 with mapPerm := ⟨true, false, false, true⟩ }

/-- A read-only page is mapped at the break of a fresh address space. `brk` takes it for the heap: it
answers success, although the page is foreign to the heap and not writable. -/
theorem not_brkCorrect_readOnlyPage : ∃ r₁ r₂,
    (smallSpace placeholder).mmap ⟨.wrapping, .riscv64, 0⟩ smallPhys 0x10000 4096 ⟨true, false, false⟩ 0x32 none 0 =
        some r₁ ∧
      r₁.2.1.changeProgramBrk .wrapping noFiles 2 r₁.2.2 0x11000 = some r₂ ∧
      r₂.1.toOption = some 0x11000 ∧ ¬BrkCorrect r₁.2.1 r₁.2.2 r₂ := by
  obtain ⟨r₁, h₁, hpage, hheap, hrun⟩ : ∃ r₁, (smallSpace placeholder).mmap ⟨.wrapping, .riscv64, 0⟩ smallPhys 0x10000 4096
      ⟨true, false, false⟩ 0x32 none 0 = some r₁ ∧ r₁.2.1.areas.get? 16 = some readOnlyPage ∧ r₁.2.1.heapPage = 16 ∧
      ((r₁.2.1.changeProgramBrk .wrapping noFiles 2 r₁.2.2 0x11000).any fun r₂ =>
        decide (r₂.1.toOption = some 0x11000 ∧ r₂.2.1.brk = 0x11000)) = true := exists_of_any (by decide +kernel)
  obtain ⟨r₂, h₂, hres, hbrk⟩ := exists_of_any hrun
  refine ⟨r₁, r₂, h₁, h₂, hres, fun hc => ?_⟩
  obtain ⟨e | n, ms₂, phys₂⟩ := r₂
  · cases hres
  · have hforeign : ¬r₁.2.1.IsHeap readOnlyPage := fun h => absurd h.1.2.2.2.2 (by decide)
    refine hc.apart 16 readOnlyPage 16 hpage hforeign rfl ⟨le_of_eq hheap, ?_⟩
    rw [topPage, hbrk]
    decide

end MemorySet

end ShellCore.Mm
