import ShellCore.Lib.Actors
import ShellCore.Lib.Intervals

/-!
# The physical frame allocator

`StackFrameAllocator` hands out blocks of 1, 512 or 512² pages. It owns the tail `[current, end)` that
was never handed out and three stacks of recycled blocks; a large block is split when a smaller one
is asked for, and the pages skipped to align a large block are recycled. The run below keeps the
blocks that are handed out in `live`.
-/

namespace ShellCore.Mm

open List ShellCore.Span Nat

inductive PageSize where
  | page4K
  | page2M
  | page1G
deriving DecidableEq

def PageSize.numPages : PageSize → Nat
  | .page4K => 1
  | .page2M => 512
  | .page1G => 262144

/-- `PhysPageNum::from(usize)`, on an architecture with `w` bits of page number. -/
def PhysPageNum.ofUsize (w v : Nat) : Nat := v % 2 ^ w

/-- The stacks have their top first. -/
structure StackFrameAllocator where
  current : Nat
  stop : Nat
  recycledStd : List Nat
  recycledMega : List Nat
  recycledGiga : List Nat
deriving DecidableEq

namespace StackFrameAllocator

/-- `new` followed by `init`. -/
def init (l r : Nat) : StackFrameAllocator := ⟨l, r, [], [], []⟩

/-- The loop of `recycle_range`; every round recycles a page, so `n` pages need at most `n` rounds. -/
def recycleFrom (top : Nat) : Nat → Nat → StackFrameAllocator → StackFrameAllocator
  | 0, _, a => a
  | n + 1, pos, a =>
    if pos < top then
      if pos % PageSize.page1G.numPages = 0 ∧ top - pos ≥ PageSize.page1G.numPages then
        recycleFrom top n (pos + PageSize.page1G.numPages) { a with recycledGiga := pos :: a.recycledGiga }
      else if pos % PageSize.page2M.numPages = 0 ∧ top - pos ≥ PageSize.page2M.numPages then
        recycleFrom top n (pos + PageSize.page2M.numPages) { a with recycledMega := pos :: a.recycledMega }
      else recycleFrom top n (pos + 1) { a with recycledStd := pos :: a.recycledStd }
    else a

variable (a : StackFrameAllocator)

def recycleRange (pos top : Nat) : StackFrameAllocator := recycleFrom top (top - pos) pos a

/-- What `split_into` pushes: all pieces but the first one. -/
def splitInto (base total unit : Nat) (recycler : List Nat) : List Nat :=
  ((range (total - 1)).map fun i => base + (i + 1) * unit).reverse ++ recycler

def freeFrames : Nat :=
  (a.stop - a.current) + a.recycledStd.length * PageSize.page4K.numPages +
    a.recycledMega.length * PageSize.page2M.numPages + a.recycledGiga.length * PageSize.page1G.numPages

def allocStd : Option Nat × StackFrameAllocator :=
  match a.recycledStd, a.recycledMega with
  | ppn :: std, _ => (some ppn, { a with recycledStd := std })
  | [], mega :: rest =>
    (some mega, { a with
      recycledMega := rest
      recycledStd := splitInto mega PageSize.page2M.numPages 1 [] })
  | [], [] =>
    if a.current < a.stop then (some a.current, { a with current := a.current + 1 })
    else match a.recycledGiga with
      | giga :: rest =>
        (some giga, { a with
          recycledGiga := rest
          recycledMega := splitInto giga (PageSize.page1G.numPages / PageSize.page2M.numPages)
            PageSize.page2M.numPages []
          recycledStd := splitInto giga PageSize.page2M.numPages 1 [] })
      | [] => (none, a)

/-- The next block of `unit` pages from the tail; the gap in front of it is recycled. -/
def allocTail (unit : Nat) : Option Nat × StackFrameAllocator :=
  let alignedCurrent := (a.current + unit - 1) / unit * unit
  if alignedCurrent + unit > a.stop then (none, a)
  else (some alignedCurrent, { a.recycleRange a.current alignedCurrent with current := alignedCurrent + unit })

def allocMega : Option Nat × StackFrameAllocator :=
  match a.recycledMega, a.recycledGiga with
  | ppn :: mega, _ => (some ppn, { a with recycledMega := mega })
  | [], giga :: rest =>
    (some giga, { a with
      recycledGiga := rest
      recycledMega := splitInto giga (PageSize.page1G.numPages / PageSize.page2M.numPages)
        PageSize.page2M.numPages [] })
  | [], [] => a.allocTail PageSize.page2M.numPages

def allocGiga : Option Nat × StackFrameAllocator :=
  match a.recycledGiga with
  | ppn :: giga => (some ppn, { a with recycledGiga := giga })
  | [] => a.allocTail PageSize.page1G.numPages

/-- The block of the size, by its first page. -/
def allocBlock : PageSize → Option Nat × StackFrameAllocator
  | .page4K => a.allocStd
  | .page2M => a.allocMega
  | .page1G => a.allocGiga

def alloc (w : Nat) (a : StackFrameAllocator) (size : PageSize) : Option Nat × StackFrameAllocator :=
  ((a.allocBlock size).1.map (PhysPageNum.ofUsize w), (a.allocBlock size).2)

/-- A panic is `none`. -/
def dealloc (ppn : Nat) (size : PageSize) : Option StackFrameAllocator :=
  let alreadyFreed := match size with
    | .page4K => a.recycledStd.contains ppn
    | .page2M => a.recycledMega.contains ppn
    | .page1G => a.recycledGiga.contains ppn
  if ppn ≥ a.stop || alreadyFreed then none
  else match size with
    | .page4K => some { a with recycledStd := ppn :: a.recycledStd }
    | .page2M => some { a with recycledMega := ppn :: a.recycledMega }
    | .page1G => some { a with recycledGiga := ppn :: a.recycledGiga }

/-! ## Free blocks -/

/-- The recycled blocks. -/
def recycled : List Span :=
  a.recycledStd.map (⟨·, PageSize.page4K.numPages⟩) ++ a.recycledMega.map (⟨·, PageSize.page2M.numPages⟩) ++
    a.recycledGiga.map (⟨·, PageSize.page1G.numPages⟩)

/-- The free blocks: the recycled ones and the tail. -/
def freeBlocks : List Span := a.recycled ++ [⟨a.current, a.stop - a.current⟩]

/-- The tail is well formed and every recycled block is aligned to its size. -/
structure Aligned (a : StackFrameAllocator) : Prop where
  tail : a.current ≤ a.stop
  mega : ∀ ppn ∈ a.recycledMega, ppn % PageSize.page2M.numPages = 0
  giga : ∀ ppn ∈ a.recycledGiga, ppn % PageSize.page1G.numPages = 0

/-- The effect of taking the block of `n` pages at `ppn` out of the free ones. -/
structure Takes (a : StackFrameAllocator) (ppn n : Nat) (a' : StackFrameAllocator) : Prop where
  coverage : ∀ p, coverage a.freeBlocks p = indicator ⟨ppn, n⟩ p + coverage a'.freeBlocks p
  aligned : a'.Aligned
  base : ppn % n = 0
  stop : a'.stop = a.stop

variable {a a' : StackFrameAllocator} {ppn w lo hi : Nat} {size : PageSize}

/-- The coverage of the free blocks, stack by stack. -/
theorem coverage_freeBlocks (a : StackFrameAllocator) (p : Nat) : coverage a.freeBlocks p =
    coverage (a.recycledStd.map (⟨·, 1⟩)) p + coverage (a.recycledMega.map (⟨·, 512⟩)) p +
      coverage (a.recycledGiga.map (⟨·, 262144⟩)) p + indicator ⟨a.current, a.stop - a.current⟩ p := by
  simp [freeBlocks, recycled, PageSize.numPages, add_assoc]

/-- A block is the first piece and what splitting it pushes. -/
theorem coverage_splitInto {base total unit l} (h : 0 < total) (p : Nat) :
    indicator ⟨base, unit⟩ p + coverage ((splitInto base total unit l).map (⟨·, unit⟩)) p =
      indicator ⟨base, total * unit⟩ p + coverage (l.map (⟨·, unit⟩)) p := by
  obtain ⟨n, rfl⟩ : ∃ n, total = n + 1 := ⟨total - 1, by omega⟩
  have hpieces : coverage (((range n).map fun i => base + (i + 1) * unit).reverse.map (⟨·, unit⟩)) p =
      indicator ⟨base + unit, n * unit⟩ p := by
    rw [map_reverse, coverage_perm (reverse_perm _), map_map, ← coverage_pieces]
    congr 1
    refine map_congr_left fun i _ => ?_
    simp only [Function.comp_apply, Span.mk.injEq, and_true, succ_mul]
    omega
  have hsize : (n + 1) * unit = unit + n * unit := by rw [succ_mul, add_comm]
  rw [splitInto, Nat.add_sub_cancel, map_append, coverage_append, hpieces, hsize, indicator_split]
  omega

/-- A 2 MiB block split into pages. -/
theorem coverage_split_mega (base p : Nat) : indicator ⟨base, 512⟩ p =
    indicator ⟨base, 1⟩ p + coverage ((splitInto base 512 1 []).map (⟨·, 1⟩)) p :=
  (@coverage_splitInto base 512 1 [] (by decide) p).symm

/-- A 1 GiB block split into 2 MiB blocks. -/
theorem coverage_split_giga (base p : Nat) : indicator ⟨base, 262144⟩ p =
    indicator ⟨base, 512⟩ p + coverage ((splitInto base 512 512 []).map (⟨·, 512⟩)) p :=
  (@coverage_splitInto base 512 512 [] (by decide) p).symm

theorem mem_splitInto {base total unit k} (h : k ∈ splitInto base total unit []) :
    ∃ i, k = base + i * unit := by
  simp only [splitInto, append_nil, mem_reverse, mem_map] at h
  obtain ⟨i, _, rfl⟩ := h
  exact ⟨i + 1, rfl⟩

/-- Recycling `[pos, top)` adds its pages to the recycled blocks. -/
theorem recycleFrom_spec {top n pos} (h : a.Aligned) (hn : top - pos ≤ n) (hp : pos ≤ top) :
    (recycleFrom top n pos a).Aligned ∧ (recycleFrom top n pos a).stop = a.stop ∧
      (recycleFrom top n pos a).current = a.current ∧
      ∀ p, coverage (recycleFrom top n pos a).freeBlocks p =
        coverage a.freeBlocks p + indicator ⟨pos, top - pos⟩ p := by
  induction n generalizing pos a with
  | zero =>
    have hz : top - pos = 0 := by omega
    refine ⟨h, rfl, rfl, fun p => ?_⟩
    rw [hz, indicator_of_not (by simp [Contains])]
    rfl
  | succ n ih =>
    rw [recycleFrom]
    by_cases hlt : pos < top
    · rw [if_pos hlt]
      -- one block goes to its stack, the rest is recycled after it
      have hstep : ∀ {a₁ : StackFrameAllocator} {u : Nat}, a₁.Aligned → 0 < u → u ≤ top - pos →
          a₁.stop = a.stop → a₁.current = a.current →
          (∀ p, coverage a₁.freeBlocks p = coverage a.freeBlocks p + indicator ⟨pos, u⟩ p) →
          (recycleFrom top n (pos + u) a₁).Aligned ∧ (recycleFrom top n (pos + u) a₁).stop = a.stop ∧
            (recycleFrom top n (pos + u) a₁).current = a.current ∧
            ∀ p, coverage (recycleFrom top n (pos + u) a₁).freeBlocks p =
              coverage a.freeBlocks p + indicator ⟨pos, top - pos⟩ p := by
        intro a₁ u h₁ hu hle hstop hcur hcov
        obtain ⟨i1, i2, i3, i4⟩ := ih h₁ (show top - (pos + u) ≤ n by omega) (by omega)
        refine ⟨i1, i2.trans hstop, i3.trans hcur, fun p => ?_⟩
        have hsplit : top - pos = u + (top - (pos + u)) := by omega
        rw [i4, hcov, hsplit, indicator_split]
        omega
      split
      · rename_i hg
        refine hstep ⟨h.tail, h.mega, ?_⟩ (by decide) hg.2 rfl rfl fun p => ?_
        · exact fun q hq => (mem_cons.1 hq).elim (fun e => e ▸ hg.1) (h.giga q)
        · rw [coverage_freeBlocks, coverage_freeBlocks]
          simp only [map_cons, coverage_cons, PageSize.numPages]
          omega
      · split
        · rename_i hm
          refine hstep ⟨h.tail, ?_, h.giga⟩ (by decide) hm.2 rfl rfl fun p => ?_
          · exact fun q hq => (mem_cons.1 hq).elim (fun e => e ▸ hm.1) (h.mega q)
          · rw [coverage_freeBlocks, coverage_freeBlocks]
            simp only [map_cons, coverage_cons, PageSize.numPages]
            omega
        · refine hstep ⟨h.tail, h.mega, h.giga⟩ (by decide) (by omega) rfl rfl fun p => ?_
          rw [coverage_freeBlocks, coverage_freeBlocks]
          simp only [map_cons, coverage_cons]
          omega
    · have hz : top - pos = 0 := by omega
      rw [if_neg hlt]
      refine ⟨h, rfl, rfl, fun p => ?_⟩
      rw [hz, indicator_of_not (by simp [Contains])]
      rfl

/-! ## Allocation -/

theorem allocTail_takes {unit} (hunit : 0 < unit) (h : a.Aligned) (hr : a.allocTail unit = (some ppn, a')) :
    Takes a ppn unit a' := by
  unfold allocTail at hr
  simp only at hr
  split at hr
  · cases hr
  · rename_i hroom
    cases hr
    generalize hal : (a.current + unit - 1) / unit * unit = al at hroom ⊢
    have hmod : al % unit = 0 := by
      rw [← hal]
      exact mul_mod_left _ _
    have hge : a.current ≤ al := by
      have hdm := div_add_mod (a.current + unit - 1) unit
      have hlt := mod_lt (a.current + unit - 1) hunit
      rw [mul_comm, hal] at hdm
      omega
    obtain ⟨h1, h2, h3, h4⟩ := recycleFrom_spec h (Nat.le_refl (al - a.current)) hge
    refine ⟨fun p => ?_, ⟨?_, h1.mega, h1.giga⟩, hmod, h2⟩
    · have hcov := h4 p
      rw [coverage_freeBlocks (recycleFrom al (al - a.current) a.current a), h2, h3] at hcov
      have htail : a.stop - a.current = (al - a.current) + (unit + (a.stop - (al + unit))) := by omega
      have hsplit := @indicator_split p a.current (al - a.current) (unit + (a.stop - (al + unit)))
      have hsplit' := @indicator_split p (a.current + (al - a.current)) unit (a.stop - (al + unit))
      rw [coverage_freeBlocks] at hcov ⊢
      rw [coverage_freeBlocks]
      simp only [recycleRange, h2]
      rw [htail] at hcov ⊢
      rw [show a.current + (al - a.current) = al by omega] at hsplit hsplit'
      omega
    · simp only [recycleRange, h2]
      omega

/-- Every successful allocation takes one free block of the size, aligned to it. -/
theorem allocBlock_takes (h : a.Aligned) (hr : a.allocBlock size = (some ppn, a')) :
    Takes a ppn size.numPages a' := by
  cases size with
  | page4K =>
    simp only [allocBlock, allocStd] at hr
    split at hr
    · rename_i std _ hstd
      cases hr
      refine ⟨fun p => ?_, ⟨h.tail, h.mega, h.giga⟩, mod_one _, rfl⟩
      rw [coverage_freeBlocks, coverage_freeBlocks, hstd]
      simp only [map_cons, coverage_cons, PageSize.numPages]
      omega
    · rename_i mega rest hstd hmega
      cases hr
      refine ⟨fun p => ?_, ⟨h.tail, ?_, h.giga⟩, mod_one _, rfl⟩
      · rw [coverage_freeBlocks, coverage_freeBlocks, hstd, hmega]
        simp only [map_cons, coverage_cons, map_nil, coverage_nil, PageSize.numPages, coverage_split_mega]
        omega
      · exact fun q hq => h.mega q (hmega ▸ mem_cons_of_mem _ hq)
    · rename_i hstd hmega
      split at hr
      · cases hr
        refine ⟨fun p => ?_, ⟨by simp only; omega, h.mega, h.giga⟩, mod_one _, rfl⟩
        have hsplit := @indicator_split p a.current 1 (a.stop - (a.current + 1))
        rw [show 1 + (a.stop - (a.current + 1)) = a.stop - a.current by omega] at hsplit
        rw [coverage_freeBlocks, coverage_freeBlocks, hsplit]
        simp only [PageSize.numPages]
        omega
      · split at hr
        · rename_i giga rest hgiga
          cases hr
          have hbase := h.giga ppn (hgiga ▸ mem_cons_self)
          refine ⟨fun p => ?_, ⟨h.tail, fun q hq => ?_, ?_⟩, mod_one _, rfl⟩
          · -- the large block is split into 512 pieces, and the first of them again
            rw [coverage_freeBlocks, coverage_freeBlocks, hstd, hmega, hgiga]
            simp only [map_cons, coverage_cons, map_nil, coverage_nil, PageSize.numPages, reduceDiv,
              coverage_split_giga ppn, coverage_split_mega ppn]
            omega
          · obtain ⟨i, rfl⟩ := mem_splitInto hq
            simp only [PageSize.numPages] at hbase ⊢
            omega
          · exact fun q hq => h.giga q (hgiga ▸ mem_cons_of_mem _ hq)
        · cases hr
  | page2M =>
    simp only [allocBlock, allocMega] at hr
    split at hr
    · rename_i mega _ hmega
      cases hr
      refine ⟨fun p => ?_, ⟨h.tail, ?_, h.giga⟩, h.mega _ (hmega ▸ mem_cons_self), rfl⟩
      · rw [coverage_freeBlocks, coverage_freeBlocks, hmega]
        simp only [map_cons, coverage_cons, PageSize.numPages]
        omega
      · exact fun q hq => h.mega q (hmega ▸ mem_cons_of_mem _ hq)
    · rename_i giga rest hmega hgiga
      cases hr
      have hbase := h.giga ppn (hgiga ▸ mem_cons_self)
      refine ⟨fun p => ?_, ⟨h.tail, fun q hq => ?_, ?_⟩, ?_, rfl⟩
      · rw [coverage_freeBlocks, coverage_freeBlocks, hmega, hgiga]
        simp only [map_cons, coverage_cons, map_nil, coverage_nil, PageSize.numPages, reduceDiv,
          coverage_split_giga ppn]
        omega
      · obtain ⟨i, rfl⟩ := mem_splitInto hq
        simp only [PageSize.numPages] at hbase ⊢
        omega
      · exact fun q hq => h.giga q (hgiga ▸ mem_cons_of_mem _ hq)
      · simp only [PageSize.numPages] at hbase ⊢
        omega
    · exact allocTail_takes (by decide) h hr
  | page1G =>
    simp only [allocBlock, allocGiga] at hr
    split at hr
    · rename_i giga hgiga
      cases hr
      refine ⟨fun p => ?_, ⟨h.tail, h.mega, ?_⟩, h.giga _ (hgiga ▸ mem_cons_self), rfl⟩
      · rw [coverage_freeBlocks, coverage_freeBlocks, hgiga]
        simp only [map_cons, coverage_cons, PageSize.numPages]
        omega
      · exact fun q hq => h.giga q (hgiga ▸ mem_cons_of_mem _ hq)
    · exact allocTail_takes (by decide) h hr

/-- A failed allocation changes nothing. -/
theorem allocBlock_none (hr : a.allocBlock size = (none, a')) : a' = a := by
  cases size <;> simp only [allocBlock, allocStd, allocMega, allocGiga, allocTail] at hr <;> (repeat' split at hr) <;>
    cases hr <;> rfl

/-- A page cannot be had only if no block is free. -/
theorem allocStd_none (hr : a.allocStd = (none, a')) :
    a.recycledStd = [] ∧ a.recycledMega = [] ∧ a.recycledGiga = [] ∧ a.stop ≤ a.current := by
  unfold allocStd at hr
  split at hr
  · cases hr
  · cases hr
  · rename_i hstd hmega
    split at hr
    · cases hr
    · split at hr
      · cases hr
      · exact ⟨hstd, hmega, by assumption, by omega⟩

/-- Freeing a block that is not free and lies below the end puts it back. -/
theorem dealloc_some (h : a.Aligned) (hbase : ppn % size.numPages = 0) (hlt : ppn < a.stop)
    (hnot : ⟨ppn, size.numPages⟩ ∉ a.freeBlocks) : ∃ a', a.dealloc ppn size = some a' ∧ a'.Aligned ∧ a'.stop = a.stop ∧
      ∀ p, coverage a'.freeBlocks p =
        indicator ⟨ppn, size.numPages⟩ p + coverage a.freeBlocks p := by
  have hfreed : ∀ l, l ⊆ a.recycled → (⟨ppn, size.numPages⟩ : Span) ∉ l :=
    fun l hl hm => hnot (mem_append_left _ (hl hm))
  have hge : ¬a.stop ≤ ppn := not_le.2 hlt
  cases size with
  | page4K =>
    have hfresh : ppn ∉ a.recycledStd := fun hm => hfreed (a.recycledStd.map (⟨·, 1⟩))
      (fun _ hx => mem_append_left _ (mem_append_left _ hx)) (mem_map.2 ⟨ppn, hm, rfl⟩)
    refine ⟨{ a with recycledStd := ppn :: a.recycledStd }, by simp [dealloc, hge, hfresh], ⟨h.tail, h.mega, h.giga⟩, rfl,
      fun p => ?_⟩
    rw [coverage_freeBlocks, coverage_freeBlocks]
    simp only [map_cons, coverage_cons, PageSize.numPages]
    omega
  | page2M =>
    have hfresh : ppn ∉ a.recycledMega := fun hm => hfreed (a.recycledMega.map (⟨·, 512⟩))
      (fun _ hx => mem_append_left _ (mem_append_right _ hx)) (mem_map.2 ⟨ppn, hm, rfl⟩)
    refine ⟨{ a with recycledMega := ppn :: a.recycledMega }, by simp [dealloc, hge, hfresh],
      ⟨h.tail, fun q hq => (mem_cons.1 hq).elim (fun e => e ▸ hbase) (h.mega q), h.giga⟩, rfl, fun p => ?_⟩
    rw [coverage_freeBlocks, coverage_freeBlocks]
    simp only [map_cons, coverage_cons, PageSize.numPages]
    omega
  | page1G =>
    have hfresh : ppn ∉ a.recycledGiga := fun hm => hfreed (a.recycledGiga.map (⟨·, 262144⟩))
      (fun _ hx => mem_append_right _ hx) (mem_map.2 ⟨ppn, hm, rfl⟩)
    refine ⟨{ a with recycledGiga := ppn :: a.recycledGiga }, by simp [dealloc, hge, hfresh],
      ⟨h.tail, h.mega, fun q hq => (mem_cons.1 hq).elim (fun e => e ▸ hbase) (h.giga q)⟩, rfl, fun p => ?_⟩
    rw [coverage_freeBlocks, coverage_freeBlocks]
    simp only [map_cons, coverage_cons, PageSize.numPages]
    omega

theorem freeFrames_eq (a : StackFrameAllocator) : a.freeFrames = (a.freeBlocks.map Span.size).sum := by
  simp only [freeFrames, freeBlocks, recycled, map_append, map_map, List.sum_append, map_cons,
    map_nil, sum_cons, sum_nil, Function.comp_def, map_const', sum_replicate_nat]
  omega

end StackFrameAllocator

open StackFrameAllocator

/-! ## Runs -/

/-- The allocator and the blocks that are handed out. -/
structure Frames where
  allocator : StackFrameAllocator
  live : List (Nat × PageSize)

namespace Frames

variable {s s' : Frames} {w lo hi : Nat}

/-- The block of a live allocation. -/
def block (x : Nat × PageSize) : Span := ⟨x.1, x.2.numPages⟩

/-- A request for a block. -/
def allocate (w : Nat) (s : Frames) (size : PageSize) : Frames :=
  match s.allocator.alloc w size with
  | (some ppn, allocator) => ⟨allocator, (ppn, size) :: s.live⟩
  | (none, allocator) => ⟨allocator, s.live⟩

/-- Any request may come; only live blocks are given back, with the size they were asked for. -/
inductive Step (w : Nat) : Frames → Frames → Prop where
  | alloc (s : Frames) (size : PageSize) : Step w s (s.allocate w size)
  | dealloc (s : Frames) (ppn : Nat) (size : PageSize) (allocator : StackFrameAllocator) (hlive : (ppn, size) ∈ s.live)
      (h : s.allocator.dealloc ppn size = some allocator) : Step w s ⟨allocator, s.live.erase (ppn, size)⟩

/-- The states that runs from the page range `[lo, hi)` lead to. -/
def Reachable (w lo hi : Nat) (s : Frames) : Prop := Relation.ReflTransGen (Step w) ⟨init lo hi, []⟩ s

/-- What the run keeps. -/
structure Inv (lo hi : Nat) (s : Frames) : Prop where
  partition : Partitions lo hi (s.allocator.freeBlocks ++ s.live.map block)
  aligned : s.allocator.Aligned
  liveAligned : ∀ x ∈ s.live, x.1 % x.2.numPages = 0
  stop : s.allocator.stop = hi

theorem inv_init (h : lo ≤ hi) : Inv lo hi ⟨init lo hi, []⟩ := by
  refine ⟨fun p => ?_, ⟨h, nofun, nofun⟩, nofun, rfl⟩
  rw [map_nil, append_nil, coverage_freeBlocks]
  simp only [init, map_nil, coverage_nil, zero_add, indicator, Contains]
  refine if_congr ?_ rfl rfl
  omega

theorem numPages_pos (size : PageSize) : 0 < size.numPages := by cases size <;> decide

theorem contains_base (x : Nat × PageSize) : (block x).Contains x.1 :=
  ⟨Nat.le_refl _, Nat.lt_add_of_pos_right (numPages_pos x.2)⟩

theorem Inv.allocate (h : Inv lo hi s) (hw : hi ≤ 2 ^ w) (size : PageSize) : Inv lo hi (s.allocate w size) := by
  unfold Frames.allocate alloc
  cases hr : s.allocator.allocBlock size with
  | mk ppn a' =>
    cases ppn with
    | none =>
      rw [allocBlock_none hr]
      exact h
    | some ppn =>
      have ht := allocBlock_takes h.aligned hr
      have hpart : Partitions lo hi (a'.freeBlocks ++ (block (ppn, size) :: s.live.map block)) := by
        intro p
        have hp := h.partition p
        rw [coverage_append, ht.coverage] at hp
        rw [coverage_append, coverage_cons, ← hp]
        show _ + (indicator ⟨ppn, size.numPages⟩ p + _) = _
        omega
      have hlt : ppn < hi :=
        (hpart.subset (mem_append_right _ mem_cons_self) (contains_base (ppn, size))).2
      have hmask : PhysPageNum.ofUsize w ppn = ppn := mod_eq_of_lt (lt_of_lt_of_le hlt hw)
      simp only [Option.map_some, hmask]
      refine ⟨hpart, ht.aligned, fun x hx => ?_, ht.stop.trans h.stop⟩
      rcases mem_cons.1 hx with rfl | hx
      · exact ht.base
      · exact h.liveAligned x hx

/-- A live block is not among the free ones. -/
theorem Inv.not_free (h : Inv lo hi s) {x} (hx : x ∈ s.live) : block x ∉ s.allocator.freeBlocks := by
  intro hfree
  have hdis := pairwise_append.1 h.partition.disjoint
  exact hdis.2.2 _ hfree _ (mem_map_of_mem hx) x.1 ⟨contains_base x, contains_base x⟩

theorem Inv.dealloc (h : Inv lo hi s) {x} (hx : x ∈ s.live) :
    ∃ a, s.allocator.dealloc x.1 x.2 = some a ∧ Inv lo hi ⟨a, s.live.erase x⟩ := by
  have hlt : x.1 < s.allocator.stop := by
    rw [h.stop]
    exact (h.partition.subset (mem_append_right _ (mem_map_of_mem hx)) (contains_base x)).2
  obtain ⟨a, ha, haligned, hstop, hcov⟩ := dealloc_some h.aligned (h.liveAligned x hx) hlt (h.not_free hx)
  refine ⟨a, ha, fun p => ?_, haligned, fun y hy => h.liveAligned y (mem_of_mem_erase hy), hstop.trans h.stop⟩
  have hp := h.partition p
  have hlive : coverage (s.live.map block) p = (block x).indicator p + coverage ((s.live.erase x).map block) p :=
    coverage_perm ((perm_cons_erase hx).map block)
  rw [coverage_append, hlive] at hp
  rw [coverage_append, hcov, ← hp]
  show (block x).indicator p + _ + coverage ((s.live.erase x).map block) p = _
  omega

theorem Inv.step (hw : hi ≤ 2 ^ w) (h : Inv lo hi s) (hs : Step w s s') : Inv lo hi s' := by
  cases hs with
  | alloc size => exact h.allocate hw size
  | dealloc ppn size a hlive ha =>
    obtain ⟨a', ha', hinv⟩ := h.dealloc hlive
    obtain rfl := Option.some.inj (ha'.symm.trans ha)
    exact hinv

/-- Frames are conserved: the free and the live blocks partition the pages of `[lo, hi)`. -/
structure Conserved (w lo hi : Nat) (s : Frames) : Prop where
  disjoint : (s.allocator.freeBlocks ++ s.live.map block).Pairwise fun i j => ∀ p, ¬(i.Contains p ∧ j.Contains p)
  covered : ∀ p, (∃ i ∈ s.allocator.freeBlocks ++ s.live.map block, i.Contains p) ↔ lo ≤ p ∧ p < hi
  megaAligned : ∀ ppn ∈ s.allocator.recycledMega, ppn % PageSize.page2M.numPages = 0
  gigaAligned : ∀ ppn ∈ s.allocator.recycledGiga, ppn % PageSize.page1G.numPages = 0
  liveAligned : ∀ x ∈ s.live, x.1 % x.2.numPages = 0
  freeFrames : s.allocator.freeFrames =
    ((Finset.Ico lo hi).filter fun p => ¬∃ x ∈ s.live, (block x).Contains p).card
  allocates : (s.allocator.alloc w .page4K).1 = none → ∀ p, lo ≤ p → p < hi → ∃ x ∈ s.live, (block x).Contains p
  deallocates : ∀ x ∈ s.live, (s.allocator.dealloc x.1 x.2).isSome = true

theorem exists_live_iff {p} : (∃ x ∈ s.live, (block x).Contains p) ↔ 0 < coverage (s.live.map block) p := by
  rw [coverage_pos]
  constructor
  · rintro ⟨x, hx, hp⟩
    exact ⟨block x, mem_map_of_mem hx, hp⟩
  · rintro ⟨i, hi', hp⟩
    obtain ⟨x, hx, rfl⟩ := mem_map.1 hi'
    exact ⟨x, hx, hp⟩

/-- No frame is lost or given out twice, from boot on. -/
theorem conserved_of_reachable (hle : lo ≤ hi) (hw : hi ≤ 2 ^ w) (h : Reachable w lo hi s) : Conserved w lo hi s := by
  have hinv : Inv lo hi s := inv_of_reachable (inv_init hle) (fun _ _ hi' hs => hi'.step hw hs) h
  refine ⟨hinv.partition.disjoint, fun p => ⟨?_, hinv.partition.covers⟩, hinv.aligned.mega, hinv.aligned.giga,
    hinv.liveAligned, ?_, ?_, ?_⟩
  · rintro ⟨i, hi', hp⟩
    exact hinv.partition.subset hi' hp
  · rw [freeFrames_eq, ← hinv.partition.card_uncovered]
    congr 1
    refine Finset.filter_congr fun p _ => ?_
    rw [exists_live_iff]
    omega
  · intro hnone p h1 h2
    have hstd : s.allocator.allocStd = (none, s.allocator.allocStd.2) := by
      have hfst : s.allocator.allocStd.1 = none := Option.map_eq_none_iff.1 hnone
      rw [← hfst]
    obtain ⟨e1, e2, e3, e4⟩ := allocStd_none hstd
    have hp := hinv.partition p
    have htail : s.allocator.stop - s.allocator.current = 0 := by omega
    rw [coverage_append, coverage_freeBlocks, e1, e2, e3, htail, if_pos ⟨h1, h2⟩,
      indicator_of_not (by simp [Contains])] at hp
    rw [exists_live_iff]
    simp only [map_nil, coverage_nil] at hp
    omega
  · intro x hx
    obtain ⟨a, ha, _⟩ := hinv.dealloc hx
    rw [ha]
    rfl

/-- After a 2 MiB block and a page were taken from 1023 pages that start off a 2 MiB boundary. -/
theorem conserved_small : Conserved 44 1 1024 (allocate 44 (allocate 44 ⟨init 1 1024, []⟩ .page2M) .page4K) :=
  conserved_of_reachable (by decide) (by decide) (.tail (.tail .refl (.alloc _ .page2M)) (.alloc _ .page4K))

end Frames

end ShellCore.Mm
