import ShellCore.Mm.MemorySet

/-!
# The program break

`change_program_brk` moves the break inside `[start_brk, ..)`. The heap has no area of its own kind:
growing extends the area that ends at the old top (or holds it), shrinking cuts every area that
starts at or above the heap start and meets the pages given up.
-/

namespace ShellCore.Mm

open VirtAddr

namespace MemorySet

/-- The area that growing from `fromVpn` would extend. -/
def isHeapTarget (heapStart fromVpn : Nat) (area : MapArea) : Bool :=
  (area.start ≤ fromVpn && area.stop > fromVpn) || (area.stop == fromVpn && area.start ≥ heapStart)

/-- The last area to extend, and whether another area is in the way. -/
def scanHeap (heapStart fromVpn toVpn : Nat) : Option Nat × Bool → List (Nat × MapArea) → Option Nat × Bool
  | acc, [] => acc
  | acc, (key, area) :: l =>
    if area.start < heapStart then scanHeap heapStart fromVpn toVpn acc l
    else if isHeapTarget heapStart fromVpn area then scanHeap heapStart fromVpn toVpn (some key, acc.2) l
    else if area.start < toVpn && area.stop > fromVpn then scanHeap heapStart fromVpn toVpn (acc.1, true) l
    else scanHeap heapStart fromVpn toVpn acc l

def heapPermission : MapPermission := ⟨true, true, false, true⟩

def growHeapLocked (m : Arith) (fv : Files) (ms : MemorySet) (phys : Phys) (fromVa toVa startBrk : Nat) :
    Option (Returned Unit) := do
  let fromVpn ← stdCeil m fromVa
  let toVpn ← stdCeil m toVa
  if toVpn ≤ fromVpn then return (.ok (), ms, phys)
  let heapStart ← stdCeil m (ofUsize startBrk)
  let (target, conflict) := scanHeap heapStart fromVpn toVpn (none, false) ms.areas.entries
  if conflict then return (.error .ENOMEM, ms, phys)
  match target.bind fun key => (ms.areas.get? key).map fun area => (key, area) with
  | some (key, area) =>
    if area.stop ≥ toVpn then return (.ok (), ms, phys)
    let s ← Populating.appendTo m ⟨area, ms.pt, phys⟩ fv toVpn
    return (.ok (), { ms with areas := ms.areas.insert key s.area, pt := s.pt }, s.phys)
  | none =>
    let area ← MapArea.new m fromVa toVa .framed heapPermission
    let s ← Populating.map m ⟨area, ms.pt, phys⟩ fv
    return (.ok (), { ms with areas := ms.areas.insert area.start s.area, pt := s.pt }, s.phys)

/-- Gives up the pages from `toVpn` on of one area: its tail, or all of it. -/
def shrinkArea (toVpn : Nat) (area : MapArea) (pt : PageTable) : Option (MapArea × PageTable) :=
  if area.start < toVpn then area.shrinkTo pt toVpn
  else do
    let (area', pt) ← area.unmap pt
    let area' ← area'.resize area.start area.start
    return (area', pt)

/-- The address space while the areas are visited, whether one was cut, and the emptied ones. -/
structure Shrinking where
  ms : MemorySet
  found : Bool := false
  emptyKeys : List Nat := []

/-- Whether shrinking from `fromVpn` to `toVpn` cuts the area. -/
def isShrunk (heapStart fromVpn toVpn : Nat) (area : MapArea) : Bool :=
  !(area.start ≥ fromVpn || area.stop ≤ toVpn || area.start < heapStart)

def shrinkAreas (heapStart fromVpn toVpn : Nat) : Shrinking → List (Nat × MapArea) → Option Shrinking
  | s, [] => some s
  | s, (key, area) :: l =>
    if isShrunk heapStart fromVpn toVpn area then do
      let (area, pt) ← shrinkArea toVpn area s.ms.pt
      shrinkAreas heapStart fromVpn toVpn {
        ms := { s.ms with areas := s.ms.areas.insert key area, pt }
        found := true
        emptyKeys := s.emptyKeys ++ if area.start ≥ area.stop then [key] else [] } l
    else shrinkAreas heapStart fromVpn toVpn s l

def shrinkHeapLocked (m : Arith) (ms : MemorySet) (phys : Phys) (fromVa toVa startBrk : Nat) :
    Option (Returned Unit) := do
  let fromVpn ← stdCeil m fromVa
  let toVpn ← stdCeil m toVa
  if toVpn ≥ fromVpn then return (.ok (), ms, phys)
  let heapStart ← stdCeil m (ofUsize startBrk)
  let s ← shrinkAreas heapStart fromVpn toVpn { ms } ms.areas.entries
  let ms := { s.ms with areas := s.emptyKeys.foldl OrdMap.erase s.ms.areas }
  if !s.found then return (.error .ENOMEM, ms, phys)
  return (.ok (), ms, phys)

/-- `change_program_brk`; `freeFrames` is what `get_free_frames` answers. -/
def changeProgramBrk (m : Arith) (fv : Files) (freeFrames : Nat) (ms : MemorySet) (phys : Phys) (addr : Nat) :
    Option (Returned Nat) := do
  if addr = 0 then return (.ok ms.brk, ms, phys)
  if addr < ms.startBrk then return (.error .ENOMEM, ms, phys)
  let oldTop ← stdCeil m (ofUsize ms.brk)
  let newTop ← stdCeil m (ofUsize addr)
  if oldTop = newTop then return (.ok addr, { ms with brk := addr }, phys)
  if addr > ms.brk then
    let pages := (← m.sub newTop oldTop) / PAGE_SIZE
    if freeFrames < pages then return (.error .ENOMEM, ms, phys)
    match ← ms.growHeapLocked m fv phys (oldTop * PAGE_SIZE) (newTop * PAGE_SIZE) ms.startBrk with
    | (.error e, ms, phys) => return (.error e, ms, phys)
    | (.ok (), ms, phys) => return (.ok addr, { ms with brk := addr }, phys)
  else
    match ← ms.shrinkHeapLocked m phys (oldTop * PAGE_SIZE) (newTop * PAGE_SIZE) ms.startBrk with
    | (.error e, ms, phys) => return (.error e, ms, phys)
    | (.ok (), ms, phys) => return (.ok addr, { ms with brk := addr }, phys)

end MemorySet

end ShellCore.Mm
