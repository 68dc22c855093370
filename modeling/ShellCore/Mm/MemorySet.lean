import ShellCore.Mm.MapArea

/-!
# A user address space and the operations that change its layout

`MemorySet` is the tree of areas keyed by start page, the page table and the two bounds of the heap.
Each operation runs under the write lock of the tree, so it is one step. A panic is `none`; an
operation that returns gives its result together with the new address space and physical memory.
-/

namespace ShellCore.Mm

open VirtAddr

def USER_APP_MAX_SIZE : Nat := 2 ^ 38
def USER_TRAMPOLINE : Nat := USER_APP_MAX_SIZE - PAGE_SIZE

/-- The page of the signal trampoline, mapped in every address space without an area. -/
def trampolineVpn : Nat := stdFloor (ofUsize USER_TRAMPOLINE)

inductive Arch where
  | riscv64
  | loongarch64
deriving DecidableEq

def USER_APP_BASE : Arch → Nat
  | .riscv64 => 0x4000_0000
  | .loongarch64 => 0x1_2000_0000

/-- What is fixed when the kernel is built. -/
structure Build where
  arith : Arith
  arch : Arch
  /-- The physical page of the trampoline code. -/
  trampolinePpn : Frame

inductive Errno where
  | ENOMEM
  | EBADF
  | EACCES
  | EFAULT
  | EEXIST
  | EINVAL
  | EOPNOTSUPP
deriving DecidableEq

structure MemorySet where
  areas : OrdMap MapArea
  pt : PageTable
  startBrk : Nat
  brk : Nat

/-- A returning call: its result, the address space and the physical memory. -/
abbrev Returned (α : Type) := Except Errno α × MemorySet × Phys

/-! ## Protection and mapping flags -/

structure MMapProt where
  read : Bool
  write : Bool
  exec : Bool
deriving DecidableEq

/-- The permission of an area for the requested protection. -/
def MMapProt.permission (p : MMapProt) : MapPermission where
  r := p.read
  w := p.write
  x := p.exec
  u := p.read || p.write || p.exec

def hasBit (bits bit : BitVec 32) : Bool := bits &&& bit == bit

namespace MMapFlags

def MAP_SHARED : BitVec 32 := 0x01
def MAP_FIXED : BitVec 32 := 0x10
def MAP_ANONYMOUS : BitVec 32 := 0x20

end MMapFlags

namespace MemorySet

/-! ## Searching the areas -/

/-- The first gap of `length` bytes from `current` on; areas are visited in key order. -/
def findFreeFrom (m : Arith) (length : Nat) (current : Nat) : List (Nat × MapArea) → Option (Option Nat)
  | [] => do
    let top ← m.add current length
    return if top < USER_APP_MAX_SIZE then some current else none
  | (_, area) :: l => do
    let top ← m.add current length
    if top ≤ area.start * PAGE_SIZE then return some current
    let areaEnd := area.stop * PAGE_SIZE
    findFreeFrom m length (if areaEnd > current then areaEnd else current) l

def findFreeAreaLocked (b : Build) (ms : MemorySet) (length : Nat) : Option (Option Nat) :=
  let base := USER_APP_BASE b.arch
  findFreeFrom b.arith length (base + (USER_APP_MAX_SIZE - base) / 2) ms.areas.entries

/-- Whether some area meets the pages of `[start, start + len)`. -/
def hasConflictLocked (m : Arith) (ms : MemorySet) (start len : Nat) : Option Bool := do
  let targetStart := stdFloor (ofUsize start)
  let top ← m.add start len
  let targetEnd ← stdCeil m (ofUsize top)
  return ms.areas.entries.any fun (_, area) => targetEnd > area.start && targetStart < area.stop

/-! ## munmap -/

/-- What cutting `[startVpn, endVpn)` out of one area leaves: the area, a new right part if the cut
is in its middle, whether the area is gone, and its new key if its start has moved. -/
structure Cut where
  area : MapArea
  pt : PageTable
  right : Option MapArea
  emptied : Bool
  newKey : Option Nat

def cutArea (startVpn endVpn : Nat) (area : MapArea) (pt : PageTable) : Option Cut :=
  if area.start < endVpn && area.stop > startVpn then
    let deleteLeft := area.start ≥ startVpn
    let deleteRight := area.stop ≤ endVpn
    if deleteLeft && deleteRight then do
      let (area', pt) ← area.unmapPages pt area.start (area.stop - area.start)
      let area' ← area'.resize area.start area.start
      return ⟨area', pt, none, true, none⟩
    else if !deleteLeft && !deleteRight then do
      let range ← VPNRange.new startVpn endVpn
      let (area', pt) ← area.unmapPages pt startVpn (range.2 - range.1)
      let rightFrames := area'.dataFrames.splitOff endVpn
      let area' := { area' with dataFrames := area'.dataFrames.below endVpn }
      let area' ← area'.resize area.start startVpn
      let right ← area'.cloneMetaWithNewRange endVpn area.stop
      return ⟨area', pt, some { right with dataFrames := rightFrames }, false, none⟩
    else if deleteLeft then do
      let (area', pt) ← area.unmapPages pt area.start (endVpn - area.start)
      let area' ← area'.resize endVpn area.stop
      return ⟨area', pt, none, false, some endVpn⟩
    else do
      let (area', pt) ← area.unmapPages pt startVpn (area.stop - startVpn)
      let area' ← area'.resize area.start startVpn
      return ⟨area', pt, none, false, none⟩
  else some ⟨area, pt, none, false, none⟩

/-- The address space while the areas are visited, and what is left to do after the visit. -/
structure Unmapping where
  ms : MemorySet
  newAreas : List MapArea := []
  emptyKeys : List Nat := []
  rekey : List (Nat × Nat) := []

def cutAreas (startVpn endVpn : Nat) : Unmapping → List (Nat × MapArea) → Option Unmapping
  | u, [] => some u
  | u, (key, area) :: l => do
    let c ← cutArea startVpn endVpn area u.ms.pt
    cutAreas startVpn endVpn {
      ms := { u.ms with areas := u.ms.areas.insert key c.area, pt := c.pt }
      newAreas := u.newAreas ++ c.right.toList
      emptyKeys := u.emptyKeys ++ if c.emptied then [key] else []
      rekey := u.rekey ++ (c.newKey.map fun k => (key, k)).toList } l

def rekeyArea (areas : OrdMap MapArea) (keys : Nat × Nat) : OrdMap MapArea :=
  match areas.get? keys.1 with
  | none => areas
  | some area => (areas.erase keys.1).insert keys.2 area

def munmapLocked (m : Arith) (ms : MemorySet) (start length : Nat) : Option MemorySet := do
  let top ← m.add start length
  let startVpn := stdFloor (ofUsize start)
  let endVpn ← stdCeil m (ofUsize top)
  let u ← cutAreas startVpn endVpn { ms } ms.areas.entries
  let areas := u.emptyKeys.foldl OrdMap.erase u.ms.areas
  let areas := u.rekey.foldl rekeyArea areas
  let areas := u.newAreas.foldl (fun areas area => areas.insert area.start area) areas
  return { u.ms with areas }

/-! ## mmap -/

/-- The attributes `mmap` gives a new area. -/
structure MapRequest where
  permission : MapPermission
  isShared : Bool
  /-- `none` for an anonymous mapping. -/
  file : Option (File × Nat)

/-- A new area for the request; a shared anonymous one gets a registry. -/
def newArea (m : Arith) (req : MapRequest) (phys : Phys) (startVa endVa : Nat) : Option (MapArea × Phys) := do
  match req.file with
  | none =>
    let area ← MapArea.new m startVa endVa .framed req.permission
    if req.isShared then
      return ({ area with isShared := true, anonymousSharedFrames := some phys.nextShared },
        { phys with nextShared := phys.nextShared + 1 })
    return (area, phys)
  | some (file, pageOffset) =>
    let area ← MapArea.new m startVa endVa .file req.permission
    return ({ area with backingFile := some (file, pageOffset), isShared := req.isShared }, phys)

/-- Where the mapping goes, after making room for a fixed one. -/
def placeMapping (b : Build) (ms : MemorySet) (addr length : Nat) (fixed : Bool) :
    Option (Except Errno (Nat × MemorySet)) := do
  if addr = 0 then
    match ← ms.findFreeAreaLocked b length with
    | some newAddr => return .ok (newAddr, ms)
    | none => return .error .EEXIST
  else if ← ms.hasConflictLocked b.arith addr length then
    if fixed then
      let ms ← ms.munmapLocked b.arith addr length
      return .ok (addr, ms)
    else return .error .EEXIST
  else return .ok (addr, ms)

def mmap (b : Build) (ms : MemorySet) (phys : Phys) (addr length : Nat) (prot : MMapProt)
    (flags : BitVec 32) (fileInner : Option File) (offset : Nat) : Option (Returned Nat) := do
  let pageOffset := offset / PAGE_SIZE
  -- the page count is only logged, but its arithmetic is evaluated
  let top ← b.arith.add addr length
  let topVpn ← stdCeil b.arith (ofUsize top)
  let _ ← b.arith.sub topVpn (stdFloor (ofUsize addr))
  let isAnonymous := hasBit flags MMapFlags.MAP_ANONYMOUS
  if !isAnonymous && fileInner.isNone then return (.error .EBADF, ms, phys)
  let req : MapRequest := {
    permission := prot.permission
    isShared := hasBit flags MMapFlags.MAP_SHARED
    file := if isAnonymous then none else fileInner.map fun file => (file, pageOffset) }
  match ← ms.placeMapping b addr length (hasBit flags MMapFlags.MAP_FIXED) with
  | .error e => return (.error e, ms, phys)
  | .ok (startVa, ms) =>
    let endVa ← b.arith.add startVa length
    let (area, phys) ← newArea b.arith req phys (ofUsize startVa) (ofUsize endVa)
    return (.ok startVa, { ms with areas := ms.areas.insert area.start area }, phys)

end MemorySet

end ShellCore.Mm
