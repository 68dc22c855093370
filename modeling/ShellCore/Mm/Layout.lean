import ShellCore.Mm.MemorySet

/-!
# The layout invariant

`Inv` ties the tree of areas to the page table.
-/

namespace ShellCore.Mm

/-- One past the last page of user space. -/
def maxVpn : Nat := USER_APP_MAX_SIZE / PAGE_SIZE

/-- An area agrees with the page table: what is resident lies inside it and is mapped to the recorded
frame, writable only if the area is. -/
structure AreaOk (pt : PageTable) (a : MapArea) : Prop where
  bounds : a.start ≤ a.stop
  resident : ∀ v f, a.dataFrames.get? v = some f → a.start ≤ v ∧ v < a.stop ∧ a.mapType ≠ .guard
  mapped : ∀ v f, a.dataFrames.get? v = some f →
    ∃ flags, pt v = some ⟨f, flags⟩ ∧ (flags.w = true → a.mapPerm.w = true)

namespace MemorySet

/-- The page at which the heap starts. -/
def heapPage (ms : MemorySet) : Nat := (ms.startBrk + 4095) / 4096

/-- The representation invariant of an address space. The trampoline page is mapped and belongs to
no area's resident pages; an empty area can only be the placeholder of the heap. -/
structure Inv (ms : MemorySet) : Prop where
  keyed : ∀ k a, ms.areas.get? k = some a → k = a.start
  area : ∀ k a, ms.areas.get? k = some a → AreaOk ms.pt a
  limit : ∀ k a, ms.areas.get? k = some a → a.stop ≤ maxVpn
  disjoint : ∀ k₁ a₁ k₂ a₂ v, ms.areas.get? k₁ = some a₁ → ms.areas.get? k₂ = some a₂ →
    a₁.contains v = true → a₂.contains v = true → k₁ = k₂
  owned : ∀ v p, ms.pt v = some p → v ≠ trampolineVpn →
    ∃ k a, ms.areas.get? k = some a ∧ a.dataFrames.get? v = some p.ppn
  trampoline : (ms.pt trampolineVpn).isSome = true
  untracked : ∀ k a, ms.areas.get? k = some a → a.dataFrames.get? trampolineVpn = none
  empty : ∀ k a, ms.areas.get? k = some a → a.start = a.stop → a.start = ms.heapPage

end MemorySet

namespace MapArea

theorem contains_iff {a : MapArea} {v : Nat} : a.contains v = true ↔ a.start ≤ v ∧ v < a.stop := by
  simp [contains]

end MapArea

open MapArea

variable {pt : PageTable} {a : MapArea} {v : Nat}

/-- Areas over distinct pages. -/
def Apart (x y : Nat × MapArea) : Prop := ∀ v, x.2.contains v = true → y.2.contains v = true → False

namespace MemorySet

variable {ms : MemorySet}

theorem Inv.apart (h : ms.Inv) : ms.areas.entries.Pairwise Apart := by
  refine ms.areas.sorted.imp_of_mem ?_
  intro x y hx hy hlt v hv₁ hv₂
  exact absurd (h.disjoint x.1 x.2 y.1 y.2 v (OrdMap.mem_entries.1 hx) (OrdMap.mem_entries.1 hy) hv₁ hv₂)
    (Nat.ne_of_lt hlt)

/-- Two areas that hold a common page are the same binding. -/
theorem Inv.unique (h : ms.Inv) {k₁ k₂ : Nat} {a₁ a₂ : MapArea} (h₁ : ms.areas.get? k₁ = some a₁)
    (h₂ : ms.areas.get? k₂ = some a₂) (hv₁ : a₁.start ≤ v ∧ v < a₁.stop) (hv₂ : a₂.start ≤ v ∧ v < a₂.stop) :
    k₁ = k₂ ∧ a₁ = a₂ := by
  obtain rfl := h.disjoint k₁ a₁ k₂ a₂ v h₁ h₂ (contains_iff.2 hv₁) (contains_iff.2 hv₂)
  exact ⟨rfl, Option.some.inj (h₁.symm.trans h₂)⟩

end MemorySet

end ShellCore.Mm
