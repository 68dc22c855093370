import ShellCore.Mm.Heap
import ShellCore.Mm.Populate
import ShellCore.Mm.Unmap

/-!
# What moving the break does to the areas

Shrinking replaces every cut area by its part below the new top. Growing either leaves the areas
alone, or extends the area it found, or adds an area.
-/

namespace ShellCore.Mm

open List hiding mem_keys

open MapArea Option OrdMap

variable {pt : PageTable} {a : MapArea} {s e v : Nat}

/-! ## Shrinking -/

/-- What shrinking to `t` leaves of a cut area. -/
def shrunkPart (t : Nat) (a : MapArea) : MapArea :=
  if a.start < t then a.leftPart t else { a with stop := a.start, dataFrames := .empty }

theorem unmapList_eq (h : Tracked pt a) (l : List Nat) : ∃ d, a.unmapList pt l =
    some ({ a with dataFrames := d }, fun v => if v ∈ l ∧ (a.dataFrames.get? v).isSome = true then none else pt v) ∧
      ∀ k, d.get? k = if k ∈ l then none else a.dataFrames.get? k := by
  induction l generalizing a pt with
  | nil => exact ⟨a.dataFrames, by simp [unmapList], by simp⟩
  | cons x l ih =>
    obtain ⟨d, hd, hget⟩ := ih h.erase
    refine ⟨d, ?_, fun k => ?_⟩
    · rw [unmapList, unmapOne_eq h, bind_eq_bind, bind_some]
      refine hd.trans ?_
      have hpt : ∀ v, (if v ∈ l ∧ ((a.dataFrames.erase x).get? v).isSome = true then none else a.clear x (x + 1) pt v) =
          if v ∈ x :: l ∧ (a.dataFrames.get? v).isSome = true then none else pt v := by
        intro v
        rw [clear, get?_erase]
        by_cases hv : v = x
        · subst hv
          have hin : v ≤ v ∧ v < v + 1 := by omega
          simp [hin.2]
        · have hout : ¬(x ≤ v ∧ v < x + 1) := by omega
          have hout' : ¬(x ≤ v ∧ v < x + 1 ∧ (a.dataFrames.get? v).isSome = true) := fun hc => hout ⟨hc.1, hc.2.1⟩
          simp only [hv, if_false, if_neg hout', mem_cons, false_or]
      simp only [hpt]
    · rw [hget, get?_erase]
      by_cases hk : k = x <;> simp [hk]

theorem unmap_eq (h : AreaOk pt a) :
    a.unmap pt = some ({ a with dataFrames := .empty }, a.clear a.start a.stop pt) := by
  cases ht : a.mapType with
  | guard =>
    have hnone : ∀ k, a.dataFrames.get? k = none := by
      intro k
      cases hk : a.dataFrames.get? k with
      | none => rfl
      | some f => exact absurd ht (h.resident k f hk).2.2
    have hd : a.dataFrames.without a.start (a.start + (a.stop - a.start)) = .empty := by
      ext1 k
      rw [get?_without, hnone, get?_empty, ite_self]
    have hw : a.start + (a.stop - a.start) = a.stop := by
      have := h.bounds
      omega
    unfold MapArea.unmap
    simp only [ht]
    rw [unmapPages_eq h.tracked, hd, hw]
    simp only [ht]
  | framed | file =>
    obtain ⟨d, hd, hget⟩ := unmapList_eq h.tracked a.dataFrames.keys
    have hempty : d = .empty := by
      ext1 k
      rw [hget, get?_empty]
      split
      · rfl
      · rename_i hk
        rw [mem_keys] at hk
        exact eq_none_iff_forall_ne_some.2 fun f hf => hk ⟨f, hf⟩
    have hpt : (fun v => if v ∈ a.dataFrames.keys ∧ (a.dataFrames.get? v).isSome = true then none else pt v) =
        a.clear a.start a.stop pt := by
      funext v
      unfold MapArea.clear
      cases hv : a.dataFrames.get? v with
      | none => simp
      | some f =>
        have hk : v ∈ a.dataFrames.keys := mem_keys.2 ⟨f, hv⟩
        obtain ⟨h1, h2, _⟩ := h.resident v f hv
        simp [hk, h1, h2]
    unfold MapArea.unmap
    simp only [ht]
    rw [hd, hempty, hpt]
    simp only [ht]

theorem shrinkArea_eq {t} (h : AreaOk pt a) (hto : t < a.stop) :
    MemorySet.shrinkArea t a pt = some (shrunkPart t a, a.clear t a.stop pt) := by
  unfold MemorySet.shrinkArea shrunkPart
  by_cases hlt : a.start < t
  · have hw : t + (a.stop - t) = a.stop := by omega
    rw [if_pos hlt, if_pos hlt, MapArea.shrinkTo, unmapPages_eq h.tracked, leftPart_frames h (by omega), hw]
    simp [VPNRange.new, Nat.le_of_lt hlt, leftPart]
  · have hclear : a.clear a.start a.stop pt = a.clear t a.stop pt := clear_congr h fun v h1 h2 => by omega
    rw [if_neg hlt, if_neg hlt, unmap_eq h, bind_eq_bind, bind_some, hclear]
    simp [resize_eq]

namespace MemorySet

variable {ms : MemorySet} {hs top t : Nat}

theorem isShrunk_iff {a} :
    isShrunk hs top t a = true ↔ a.start < top ∧ t < a.stop ∧ hs ≤ a.start := by
  simp only [isShrunk, Bool.not_eq_true', Bool.or_eq_false_iff, decide_eq_false_iff_not]
  omega

/-- The page table after the cut areas have given up their pages from `t` on. -/
def shrunkTable (hs top t : Nat) (pt : PageTable) (l : List (Nat × MapArea)) : PageTable :=
  l.foldl (fun pt x => if isShrunk hs top t x.2 then x.2.clear t x.2.stop pt else pt) pt

/-- The visit of the areas that shrinking makes. -/
theorem shrinkAreas_eq {l u} (hok : ∀ x ∈ l, AreaOk u.ms.pt x.2)
    (hdis : l.Pairwise Apart) : shrinkAreas hs top t u l = some {
      ms := { u.ms with
        areas := l.foldl (fun m x => if isShrunk hs top t x.2 then m.insert x.1 (shrunkPart t x.2) else m) u.ms.areas
        pt := shrunkTable hs top t u.ms.pt l }
      found := u.found || l.any fun x => isShrunk hs top t x.2
      emptyKeys := u.emptyKeys ++ l.flatMap fun x =>
        if isShrunk hs top t x.2 && t ≤ x.2.start then [x.1] else [] } := by
  induction l generalizing u with
  | nil => simp [shrinkAreas, shrunkTable]
  | cons x l ih =>
    obtain ⟨hx, hl⟩ := pairwise_cons.1 hdis
    have hxok := hok x mem_cons_self
    have hrest : ∀ y ∈ l, AreaOk u.ms.pt y.2 := fun y hy => hok y (mem_cons_of_mem _ hy)
    by_cases hsh : isShrunk hs top t x.2 = true
    · have hto := (isShrunk_iff.1 hsh).2.1
      have hempty : (shrunkPart t x.2).start ≥ (shrunkPart t x.2).stop ↔ t ≤ x.2.start := by
        unfold shrunkPart leftPart
        by_cases hlt : x.2.start < t
        · rw [if_pos hlt]
        · rw [if_neg hlt]
          simp only [ge_iff_le, Nat.le_refl, true_iff]
          omega
      rw [shrinkAreas, if_pos hsh, shrinkArea_eq hxok hto, bind_eq_bind, bind_some]
      refine (ih (fun y hy => (hrest y hy).clear hxok (hx y hy)) hl).trans ?_
      simp [shrunkTable, hsh, hempty]
    · rw [shrinkAreas, if_neg hsh, ih hrest hl]
      simp [shrunkTable, hsh]

theorem shrunkTable_apply {l} (hok : ∀ x ∈ l, AreaOk pt x.2) (hdis : l.Pairwise Apart) :
    shrunkTable hs top t pt l v =
      if ∃ x ∈ l, isShrunk hs top t x.2 = true ∧ t ≤ v ∧ (x.2.dataFrames.get? v).isSome = true
      then none else pt v := by
  unfold shrunkTable
  induction l generalizing pt with
  | nil => simp
  | cons x l ih =>
    obtain ⟨hx, hl⟩ := pairwise_cons.1 hdis
    have hxok := hok x mem_cons_self
    have hrest : ∀ y ∈ l, AreaOk pt y.2 := fun y hy => hok y (mem_cons_of_mem _ hy)
    simp only [foldl_cons, mem_cons, exists_eq_or_imp]
    by_cases hsh : isShrunk hs top t x.2 = true
    · rw [if_pos hsh, ih (fun y hy => (hrest y hy).clear hxok (hx y hy)) hl]
      have hin : x.2.clear t x.2.stop pt v =
          if t ≤ v ∧ (x.2.dataFrames.get? v).isSome = true then none else pt v := by
        unfold MapArea.clear
        cases hv : x.2.dataFrames.get? v with
        | none => simp
        | some f => simp [(hxok.resident v f hv).2.1]
      rw [hin]
      by_cases h1 : ∃ y ∈ l, isShrunk hs top t y.2 = true ∧ t ≤ v ∧ (y.2.dataFrames.get? v).isSome = true
      · rw [if_pos h1, if_pos (Or.inr h1)]
      · rw [if_neg h1]
        simp only [h1, hsh, true_and, or_false]
    · rw [if_neg hsh, ih hrest hl]
      simp only [hsh, false_and, false_or, Bool.false_eq_true]

/-- What shrinking from `top` to `t` leaves of an area. -/
def shrunkParts (hs top t : Nat) (a : MapArea) : List MapArea :=
  if isShrunk hs top t a then (if a.start < t then [a.leftPart t] else []) else [a]

/-- The effect of giving up the pages `[t, top)` of the heap that starts at `hs`. -/
structure Shrunk (hs top t : Nat) (ms ms' : MemorySet) : Prop where
  get? : ∀ k, ms'.areas.get? k = (ms.areas.get? k).bind fun a => (shrunkParts hs top t a).head?
  entries : ∀ v, ms'.pt v =
    if ∃ x ∈ ms.areas.entries, isShrunk hs top t x.2 = true ∧ t ≤ v ∧ (x.2.dataFrames.get? v).isSome = true
    then none else ms.pt v
  startBrk : ms'.startBrk = ms.startBrk
  brk : ms'.brk = ms.brk

theorem Shrunk.eq_self {ms'} (h : Shrunk hs top t ms ms')
    (hnone : ∀ k a, ms.areas.get? k = some a → isShrunk hs top t a = false) : ms' = ms := by
  have hareas : ms'.areas = ms.areas := by
    ext1 k
    rw [h.get?]
    cases ha : ms.areas.get? k with
    | none => rfl
    | some a => rw [bind_some, shrunkParts, hnone k a ha]; rfl
  have hpt : ms'.pt = ms.pt := by
    funext v
    rw [h.entries, if_neg]
    rintro ⟨x, hx, hsx, _⟩
    rw [hnone x.1 x.2 (mem_entries.1 hx)] at hsx
    cases hsx
  have h1 := h.startBrk
  have h2 := h.brk
  cases ms'
  cases ms
  simp_all

theorem shrunkTree_get? {areas : OrdMap MapArea} {k} :
    ((areas.entries.flatMap fun x => if isShrunk hs top t x.2 && t ≤ x.2.start then [x.1] else []).foldl erase
      (areas.entries.foldl (fun m x => if isShrunk hs top t x.2 then m.insert x.1 (shrunkPart t x.2) else m)
        areas)).get? k = (areas.get? k).bind fun a => (shrunkParts hs top t a).head? := by
  rw [get?_foldl_erase, foldl_insert_entries_if, get?_mapVal]
  have hmem : k ∈ (areas.entries.flatMap fun x => if isShrunk hs top t x.2 && t ≤ x.2.start then [x.1] else []) ↔
      ∃ a, areas.get? k = some a ∧ isShrunk hs top t a = true ∧ t ≤ a.start := by
    rw [mem_flatMap]
    constructor
    · rintro ⟨x, hx, hk⟩
      split at hk
      · rename_i hempty
        rw [mem_singleton.1 hk]
        exact ⟨x.2, mem_entries.1 hx, by simpa using hempty⟩
      · cases hk
    · rintro ⟨a, ha, hempty⟩
      exact ⟨(k, a), mem_entries.2 ha, by simp [hempty]⟩
  cases ha : areas.get? k with
  | none => simp
  | some a =>
    rw [bind_some, map_some]
    unfold shrunkParts
    by_cases hsh : isShrunk hs top t a = true
    · rw [if_pos hsh, if_pos hsh]
      by_cases hlt : a.start < t
      · rw [if_neg (fun hc => ?_), if_pos hlt, shrunkPart, if_pos hlt, head?_cons]
        obtain ⟨b, hb, _, hle⟩ := hmem.1 hc
        obtain rfl := some.inj (ha.symm.trans hb)
        omega
      · rw [if_pos (hmem.2 ⟨a, ha, hsh, by omega⟩), if_neg hlt, head?_nil]
    · rw [if_neg (fun hc => ?_), if_neg hsh, if_neg hsh, head?_cons]
      obtain ⟨b, hb, hbs, _⟩ := hmem.1 hc
      obtain rfl := some.inj (ha.symm.trans hb)
      exact hsh hbs

theorem stdCeil_pages {m n c} (hn : n ≤ 2 ^ 27) (h : VirtAddr.stdCeil m (n * PAGE_SIZE) = some c) :
    c = n := by
  have := VirtAddr.stdCeil_some (show n * PAGE_SIZE < 2 ^ 40 by unfold PAGE_SIZE; omega) h
  unfold PAGE_SIZE at this
  omega

/-- Shrinking the heap from page `top` to page `t`. -/
theorem Inv.shrinkHeapLocked (h : ms.Inv) {m : Arith} {phys phys' : Phys} {ms' : MemorySet}
    {res : Except Errno Unit} (htop : top ≤ 2 ^ 27) (ht : t < top) (hstart : ms.startBrk < 2 ^ 39)
    (hr : ms.shrinkHeapLocked m phys (top * PAGE_SIZE) (t * PAGE_SIZE) ms.startBrk = some (res, ms', phys')) :
    phys' = phys ∧
      ((∃ k a, ms.areas.get? k = some a ∧ isShrunk ms.heapPage top t a = true) ∧ res = .ok () ∧
          Shrunk ms.heapPage top t ms ms' ∨
        (∀ k a, ms.areas.get? k = some a → isShrunk ms.heapPage top t a = false) ∧ res = .error .ENOMEM ∧ ms' = ms) := by
  have hok : ∀ x ∈ ms.areas.entries, AreaOk ms.pt x.2 := fun x hx => h.area x.1 x.2 (mem_entries.1 hx)
  simp only [MemorySet.shrinkHeapLocked, bind_eq_bind, bind_eq_some_iff] at hr
  obtain ⟨c₁, hc₁, c₂, hc₂, hr⟩ := hr
  obtain rfl := stdCeil_pages htop hc₁
  obtain rfl := stdCeil_pages (by omega) hc₂
  rw [if_neg (by omega)] at hr
  simp only [bind_eq_some_iff] at hr
  obtain ⟨hs', hhs, u, hu, hr⟩ := hr
  have hheap : hs' = ms.heapPage := by
    rw [VirtAddr.stdCeil_ofUsize hhs, heapPage, Nat.mod_eq_of_lt hstart]
  subst hheap
  rw [shrinkAreas_eq hok h.apart] at hu
  cases hu
  simp only [nil_append, Bool.false_or] at hr
  have hareas : ∀ k, _ := fun k => @shrunkTree_get? ms.heapPage c₁ c₂ ms.areas k
  have hshrunk : Shrunk ms.heapPage c₁ c₂ ms { ms with
      areas := ((ms.areas.entries.flatMap fun x =>
        if isShrunk ms.heapPage c₁ c₂ x.2 && c₂ ≤ x.2.start then [x.1] else []).foldl erase
        (ms.areas.entries.foldl (fun m x => if isShrunk ms.heapPage c₁ c₂ x.2 then m.insert x.1 (shrunkPart c₂ x.2) else m)
          ms.areas))
      pt := shrunkTable ms.heapPage c₁ c₂ ms.pt ms.areas.entries } :=
    ⟨hareas, fun v => shrunkTable_apply hok h.apart, rfl, rfl⟩
  by_cases hany : (ms.areas.entries.any fun x => isShrunk ms.heapPage c₁ c₂ x.2) = true
  · rw [hany] at hr
    simp only [Bool.not_true, Bool.false_eq_true, if_false] at hr
    obtain ⟨rfl, hrest⟩ := Prod.mk.inj (some.inj hr)
    obtain ⟨rfl, rfl⟩ := Prod.mk.inj hrest
    obtain ⟨x, hx, hsx⟩ := any_eq_true.1 hany
    exact ⟨rfl, Or.inl ⟨⟨x.1, x.2, mem_entries.1 hx, hsx⟩, rfl, hshrunk⟩⟩
  · have hnone : ∀ k a, ms.areas.get? k = some a → isShrunk ms.heapPage c₁ c₂ a = false := by
      intro k a ha
      rw [Bool.not_eq_true, List.any_eq_false] at hany
      exact Bool.eq_false_iff.2 (hany (k, a) (mem_entries.2 ha))
    rw [Bool.not_eq_true] at hany
    rw [hany] at hr
    simp only [Bool.not_false, if_true] at hr
    obtain ⟨rfl, hrest⟩ := Prod.mk.inj (some.inj hr)
    obtain ⟨hms, rfl⟩ := Prod.mk.inj hrest
    exact ⟨rfl, Or.inr ⟨hnone, rfl, hms ▸ hshrunk.eq_self hnone⟩⟩

/-! ## Growing -/

/-- The area whose range growing from `f` extends. -/
def Target (ms : MemorySet) (f k : Nat) (a : MapArea) : Prop :=
  ms.areas.get? k = some a ∧ ms.heapPage ≤ a.start ∧ (a.start ≤ f ∧ f < a.stop ∨ a.stop = f)

/-- Another area from the heap start on lies in the way of growing from `f` to `t`. -/
def Blocked (ms : MemorySet) (f t : Nat) : Prop :=
  ∃ k a, ms.areas.get? k = some a ∧ ms.heapPage ≤ a.start ∧ ¬(a.start ≤ f ∧ f < a.stop ∨ a.stop = f) ∧
    a.start < t ∧ f < a.stop

theorem isHeapTarget_iff {f a} (h : hs ≤ a.start) :
    isHeapTarget hs f a = true ↔ a.start ≤ f ∧ f < a.stop ∨ a.stop = f := by
  simp only [isHeapTarget, Bool.or_eq_true, Bool.and_eq_true, decide_eq_true_eq, beq_iff_eq, gt_iff_lt, ge_iff_le, h,
    and_true]

theorem scanHeap_spec {f acc l} :
    ((scanHeap hs f t acc l).2 = true ↔ acc.2 = true ∨ ∃ x ∈ l, hs ≤ x.2.start ∧
        isHeapTarget hs f x.2 = false ∧ x.2.start < t ∧ f < x.2.stop) ∧
      (∀ k, (scanHeap hs f t acc l).1 = some k →
        acc.1 = some k ∨ ∃ x ∈ l, x.1 = k ∧ hs ≤ x.2.start ∧ isHeapTarget hs f x.2 = true) ∧
      ((scanHeap hs f t acc l).1 = none →
        acc.1 = none ∧ ∀ x ∈ l, hs ≤ x.2.start → isHeapTarget hs f x.2 = false) := by
  induction l generalizing acc with
  | nil => simp [scanHeap]
  | cons x l ih =>
    by_cases h1 : x.2.start < hs
    · have hstep : scanHeap hs f t acc (x :: l) = scanHeap hs f t acc l := by rw [scanHeap, if_pos h1]
      rw [hstep]
      simpa [Nat.not_le.2 h1] using @ih acc
    · by_cases h2 : isHeapTarget hs f x.2 = true
      · have hstep : scanHeap hs f t acc (x :: l) = scanHeap hs f t (some x.1, acc.2) l := by
          rw [scanHeap, if_neg h1, if_pos h2]
        obtain ⟨i1, i2, i3⟩ := @ih (some x.1, acc.2)
        rw [hstep]
        refine ⟨by simpa [h2] using i1, fun k hk => ?_, fun hk => ?_⟩
        · rcases i2 k hk with hk | ⟨y, hy, hrest⟩
          · exact Or.inr ⟨x, mem_cons_self, some.inj hk, Nat.not_lt.1 h1, h2⟩
          · exact Or.inr ⟨y, mem_cons_of_mem _ hy, hrest⟩
        · cases (i3 hk).1
      · by_cases h3 : x.2.start < t ∧ f < x.2.stop
        · have hstep : scanHeap hs f t acc (x :: l) = scanHeap hs f t (acc.1, true) l := by
            rw [scanHeap, if_neg h1, if_neg h2, if_pos (by simpa using h3)]
          rw [Bool.not_eq_true] at h2
          rw [hstep]
          simpa [Nat.not_lt.1 h1, h2, h3] using @ih (acc.1, true)
        · have hstep : scanHeap hs f t acc (x :: l) = scanHeap hs f t acc l := by
            rw [scanHeap, if_neg h1, if_neg h2, if_neg (by simpa using h3)]
          rw [Bool.not_eq_true] at h2
          rw [hstep]
          simpa only [mem_cons, exists_eq_or_imp, forall_eq_or_imp, h2, h3, and_false, false_or,
            Bool.false_eq_true, implies_true, true_and] using @ih acc

/-- The area that growing adds when there is none to extend. -/
def newHeapArea (f t : Nat) : MapArea where
  start := f
  stop := t
  dataFrames := .empty
  mapType := .framed
  mapPerm := heapPermission
  isShared := false
  isLocked := false
  backingFile := none
  pageCacheCow := false
  fileZeroFrom := none
  anonymousSharedFrames := none

/-- The ways in which growing from page `f` to page `t` can return. -/
inductive Grown (m : Arith) (fv : Files) (f t : Nat) (ms : MemorySet) (phys : Phys) : Returned Unit → Prop where
  | blocked (h : Blocked ms f t) : Grown m fv f t ms phys (.error .ENOMEM, ms, phys)
  | covered (k : Nat) (a : MapArea) (hfree : ¬Blocked ms f t) (htarget : Target ms f k a) (hcov : t ≤ a.stop) :
      Grown m fv f t ms phys (.ok (), ms, phys)
  | extended (k : Nat) (a : MapArea) (s : Populating) (hfree : ¬Blocked ms f t) (htarget : Target ms f k a)
      (hlt : a.stop < t) (hs : Populating.appendTo m ⟨a, ms.pt, phys⟩ fv t = some s) :
      Grown m fv f t ms phys (.ok (), { ms with areas := ms.areas.insert k s.area, pt := s.pt }, s.phys)
  | added (s : Populating) (hfree : ¬Blocked ms f t) (hno : ∀ k a, ¬Target ms f k a)
      (hs : Populating.map m ⟨newHeapArea f t, ms.pt, phys⟩ fv = some s) :
      Grown m fv f t ms phys (.ok (), { ms with areas := ms.areas.insert f s.area, pt := s.pt }, s.phys)

theorem growHeapLocked_grown {m fv f phys r}
    (ht : t ≤ 2 ^ 27) (hlt : f < t) (hstart : ms.startBrk < 2 ^ 39)
    (hr : ms.growHeapLocked m fv phys (f * PAGE_SIZE) (t * PAGE_SIZE) ms.startBrk = some r) :
    Grown m fv f t ms phys r := by
  simp only [MemorySet.growHeapLocked, bind_eq_bind, bind_eq_some_iff] at hr
  obtain ⟨c₁, hc₁, c₂, hc₂, hr⟩ := hr
  obtain rfl := stdCeil_pages (by omega) hc₁
  obtain rfl := stdCeil_pages ht hc₂
  rw [if_neg (by omega)] at hr
  simp only [bind_eq_some_iff] at hr
  obtain ⟨hs', hhs, hr⟩ := hr
  have hheap : hs' = ms.heapPage := by
    rw [VirtAddr.stdCeil_ofUsize hhs, heapPage, Nat.mod_eq_of_lt hstart]
  subst hheap
  have hscan := @scanHeap_spec ms.heapPage c₂ c₁ (none, false) ms.areas.entries
  generalize scanHeap ms.heapPage c₁ c₂ (none, false) ms.areas.entries = scan at hr hscan
  obtain ⟨target, conflict⟩ := scan
  obtain ⟨hconf, hsome, hnone⟩ := hscan
  have hblocked : conflict = true ↔ Blocked ms c₁ c₂ := by
    rw [hconf]
    simp only [Bool.false_eq_true, false_or]
    constructor
    · rintro ⟨x, hx, h1, h2, h3⟩
      rw [Bool.eq_false_iff, ne_eq, isHeapTarget_iff h1] at h2
      exact ⟨x.1, x.2, mem_entries.1 hx, h1, h2, h3⟩
    · rintro ⟨k, a, ha, h1, h2, h3⟩
      rw [← isHeapTarget_iff h1, Bool.not_eq_true] at h2
      exact ⟨(k, a), mem_entries.2 ha, h1, h2, h3⟩
  simp only at hr hsome hnone
  by_cases hc : conflict = true
  · rw [if_pos hc] at hr
    cases hr
    exact .blocked (hblocked.1 hc)
  · have hfree : ¬Blocked ms c₁ c₂ := fun hb => hc (hblocked.2 hb)
    rw [if_neg hc] at hr
    cases target with
    | none =>
      have hno : ∀ k a, ¬Target ms c₁ k a := by
        rintro k a ⟨ha, h1, h2⟩
        have := (hnone rfl).2 (k, a) (mem_entries.2 ha) h1
        rw [Bool.eq_false_iff, ne_eq, isHeapTarget_iff h1] at this
        exact this h2
      have hnew : MapArea.new m (c₁ * PAGE_SIZE) (c₂ * PAGE_SIZE) .framed heapPermission = some (newHeapArea c₁ c₂) := by
        have hfloor : VirtAddr.stdFloor (c₁ * PAGE_SIZE) = c₁ := by
          unfold VirtAddr.stdFloor PAGE_SIZE
          omega
        simp only [MapArea.new, hc₂, hfloor, VPNRange.new, Nat.le_of_lt hlt, if_true, bind_eq_bind,
          bind_some]
        rfl
      simp only [bind_none, hnew, bind_some, bind_eq_some_iff] at hr
      obtain ⟨s, hs, hr⟩ := hr
      cases hr
      exact .added s hfree hno hs
    | some k =>
      obtain ⟨x, hx, rfl, h1, h2⟩ := (hsome k rfl).resolve_left (by simp)
      have ha := mem_entries.1 hx
      have htarget : Target ms c₁ x.1 x.2 := ⟨ha, h1, (isHeapTarget_iff h1).1 h2⟩
      simp only [bind_some, ha, map_some] at hr
      split at hr
      · cases hr
        exact .covered x.1 x.2 hfree htarget (by assumption)
      · rename_i hcov
        obtain ⟨s, hs, hr⟩ := bind_eq_some_iff.1 hr
        cases hr
        exact .extended x.1 x.2 s hfree htarget (Nat.not_le.1 hcov) hs

end MemorySet

end ShellCore.Mm
