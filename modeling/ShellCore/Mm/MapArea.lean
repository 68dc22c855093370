import Mathlib.Logic.Function.Basic
import ShellCore.Lib.OrdMap
import ShellCore.Mm.Address

/-!
# Areas of an address space and the page table

A `MapArea` is a range of pages with its kind, permission and backing, and the table of the frames
that are resident in it. Populating a page takes a frame (from the allocator, from the file's page
cache, or from the registry that the forks of a shared anonymous mapping have in common), installs
its page-table entry and records the frame. A panic of the source is `none`.
-/

namespace ShellCore.Mm

open Function

abbrev Frame := Nat

/-- The bytes of one frame. -/
abbrev Page := Nat → UInt8

structure MapPermission where
  r : Bool
  w : Bool
  x : Bool
  u : Bool
deriving DecidableEq

namespace MapPermission

def empty : MapPermission := ⟨false, false, false, false⟩

/-- `perm & !MapPermission::W` -/
def withoutW (p : MapPermission) : MapPermission := { p with w := false }

end MapPermission

/-- The kinds of mapping a user address space holds. -/
inductive MapType where
  | framed
  | file
  | guard
deriving DecidableEq

structure File where
  ino : Nat
  readable : Bool
  writable : Bool
deriving DecidableEq

/-- A valid page-table entry. -/
structure Pte where
  ppn : Frame
  flags : MapPermission
deriving DecidableEq

/-- The valid entries of a page table, by page number. -/
abbrev PageTable := Nat → Option Pte

namespace PageTable

def map (pt : PageTable) (vpn : Nat) (ppn : Frame) (flags : MapPermission) : Option PageTable :=
  match pt vpn with
  | some _ => none
  | none => some (update pt vpn (some ⟨ppn, flags⟩))

def unmap (pt : PageTable) (vpn : Nat) : Option PageTable :=
  match pt vpn with
  | none => none
  | some _ => some (update pt vpn none)

def setEntry (pt : PageTable) (vpn : Nat) (ppn : Frame) (flags : MapPermission) : PageTable :=
  update pt vpn (some ⟨ppn, flags⟩)

end PageTable

structure MapArea where
  start : Nat
  stop : Nat
  dataFrames : OrdMap Frame
  mapType : MapType
  mapPerm : MapPermission
  isShared : Bool
  isLocked : Bool
  /-- The file and the file page that the first page of the area shows. -/
  backingFile : Option (File × Nat)
  pageCacheCow : Bool
  fileZeroFrom : Option Nat
  /-- The registry of a shared anonymous mapping. -/
  anonymousSharedFrames : Option Nat
deriving DecidableEq

/-- What the files answer while an operation runs. -/
structure Files where
  size : File → Nat
  /-- The bytes of a page of the file, zero past the end of the file. -/
  readPage : File → Nat → Page
  getFilePage : File → Nat → Option Frame
  getSharedPage : File → Nat → Option Frame

/-- One past the last page of a file. -/
def Files.endPage (fv : Files) (file : File) : Nat :=
  if fv.size file + (PAGE_SIZE - 1) < 2 ^ 64 then (fv.size file + (PAGE_SIZE - 1)) / PAGE_SIZE else 2 ^ 64 - 1

/-- Physical memory: the frames the allocator hands out next, the contents of frames, and the
registries of the shared anonymous mappings. -/
structure Phys where
  free : List Frame
  mem : Frame → Page
  shared : Nat → Nat → Option Frame
  nextShared : Nat

/-- `frame_alloc`: a zeroed frame. -/
def Phys.frameAlloc (p : Phys) : Option (Frame × Phys) :=
  match p.free with
  | [] => none
  | f :: fs => some (f, { p with free := fs, mem := update p.mem f fun _ => 0 })

namespace MapArea

def new (m : Arith) (startVa endVa : Nat) (mapType : MapType) (mapPerm : MapPermission) : Option MapArea := do
  let startVpn := VirtAddr.stdFloor startVa
  let endVpn ← VirtAddr.stdCeil m endVa
  let range ← VPNRange.new startVpn endVpn
  return {
    start := range.1, stop := range.2, dataFrames := .empty, mapType, mapPerm, isShared := false,
    isLocked := false, backingFile := none, pageCacheCow := false, fileZeroFrom := none,
    anonymousSharedFrames := none }

variable (a : MapArea)

def contains (vpn : Nat) : Bool := a.start ≤ vpn && vpn < a.stop

def initialPtePermission : MapPermission :=
  if a.pageCacheCow && a.mapPerm.w then a.mapPerm.withoutW else a.mapPerm

/-- Moves the bounds without touching any mapping. -/
def resize (newStart newEnd : Nat) : Option MapArea := do
  let range ← VPNRange.new newStart newEnd
  return { a with
    start := range.1, stop := range.2
    backingFile := if newStart > a.start
      then a.backingFile.map fun (file, off) => (file, off + (newStart - a.start)) else a.backingFile }

/-- The same attributes on another range, with no resident page. -/
def cloneMetaWithNewRange (startVpn endVpn : Nat) : Option MapArea := do
  let range ← VPNRange.new startVpn endVpn
  return { a with
    start := range.1, stop := range.2, dataFrames := .empty
    backingFile := a.backingFile.map fun (file, off) => (file, off + startVpn - a.start) }

/-- Removes one entry and its resident frame, if the page is resident. -/
def unmapOne (pt : PageTable) (vpn : Nat) : Option (MapArea × PageTable) :=
  match a.mapType with
  | .guard => some (a, pt)
  | .framed | .file =>
    match a.dataFrames.get? vpn with
    | none => some (a, pt)
    | some _ => do
      let pt ← pt.unmap vpn
      return ({ a with dataFrames := a.dataFrames.erase vpn }, pt)

/-- `unmap_one` on the `n` pages from `vpn` on. -/
def unmapPages (a : MapArea) (pt : PageTable) (vpn : Nat) : Nat → Option (MapArea × PageTable)
  | 0 => some (a, pt)
  | n + 1 => do
    let (a, pt) ← a.unmapOne pt vpn
    unmapPages a pt (vpn + 1) n

/-- `unmap_one` on each page of a list. -/
def unmapList (a : MapArea) (pt : PageTable) : List Nat → Option (MapArea × PageTable)
  | [] => some (a, pt)
  | vpn :: l => do
    let (a, pt) ← a.unmapOne pt vpn
    unmapList a pt l

/-- Takes out every page: the resident ones of a frame-backed area, every page of the range of
another one. -/
def unmap (pt : PageTable) : Option (MapArea × PageTable) :=
  match a.mapType with
  | .framed | .file => a.unmapList pt a.dataFrames.keys
  | .guard => a.unmapPages pt a.start (a.stop - a.start)

def shrinkTo (pt : PageTable) (newEnd : Nat) : Option (MapArea × PageTable) := do
  let (a, pt) ← a.unmapPages pt newEnd (a.stop - newEnd)
  let range ← VPNRange.new a.start newEnd
  return ({ a with start := range.1, stop := range.2 }, pt)

end MapArea

/-- An area being populated, with the page table and the physical memory it is populated from. -/
structure Populating where
  area : MapArea
  pt : PageTable
  phys : Phys

namespace Populating

variable (s : Populating)

/-- Installs the entry and records the frame. -/
def install (vpn : Nat) (frame : Frame) (flags : MapPermission) : Option Populating := do
  let pt ← s.pt.map vpn frame flags
  return { s with pt, area := { s.area with dataFrames := s.area.dataFrames.insert vpn frame } }

/-- The frame of a page of an anonymous mapping: the registered one of a shared mapping if there is
one, otherwise a new one. -/
def anonymousFrame (vpn : Nat) : Option (Frame × Phys) :=
  match s.area.anonymousSharedFrames with
  | none => s.phys.frameAlloc
  | some id =>
    match s.phys.shared id vpn with
    | some frame => some (frame, s.phys)
    | none =>
      match s.phys.frameAlloc with
      | none => none
      | some (frame, phys) =>
        some (frame, { phys with shared := update phys.shared id (update (phys.shared id) vpn frame) })

/-- The frame of a page that is mapped from the page cache. A hole under a private mapping of the
page cache is a zeroed frame of its own. -/
def cachedFrame (fv : Files) (file : File) (page : Nat) : Option (Frame × Phys) :=
  if s.area.pageCacheCow then
    match fv.getFilePage file page with
    | some frame => some (frame, s.phys)
    | none => s.phys.frameAlloc
  else (fv.getSharedPage file page).map fun frame => (frame, s.phys)

def tryMapSharedFilePage (fv : Files) (vpn : Nat) : Option (Bool × Populating) :=
  match s.area.backingFile with
  | none => some (false, s)
  | some (file, base) =>
    if vpn < s.area.start then some (false, s)
    else match checkedAdd base (vpn - s.area.start) with
      | none => some (false, s)
      | some page =>
        if page ≥ fv.endPage file then some (false, s)
        else match s.cachedFrame fv file page with
          | none => some (false, s)
          | some (frame, phys) => do
            let s ← { s with phys }.install vpn frame s.area.initialPtePermission
            return (true, s)

def READ_AHEAD_PAGES : Nat := 64

/-- Frames for the pages from `vpn` on, up to the first page that is mapped or has no frame left. -/
def collectFrames (pt : PageTable) (phys : Phys) (vpn : Nat) : Nat → List (Nat × Frame) × Phys
  | 0 => ([], phys)
  | n + 1 =>
    let page := VirtPageNum.ofUsize vpn
    if (pt page).isSome then ([], phys)
    else match phys.frameAlloc with
      | none => ([], phys)
      | some (frame, phys) =>
        let (rest, phys) := collectFrames pt phys (vpn + 1) n
        ((page, frame) :: rest, phys)

/-- The bytes of a page of a private file mapping, cleared from `zeroFrom` on. -/
def clearedFrom (zeroFrom : Option Nat) (vpn : Nat) (page : Page) : Page :=
  match zeroFrom with
  | none => page
  | some z => if z < vpn * PAGE_SIZE + PAGE_SIZE
    then fun i => if z - vpn * PAGE_SIZE ≤ i then 0 else page i else page

/-- Reads file pages `page`, `page + 1`, … into the collected frames. -/
def fillFrames (fv : Files) (file : File) (zeroFrom : Option Nat) :
    List (Nat × Frame) → Nat → (Frame → Page) → Frame → Page
  | [], _, mem => mem
  | (vpn, frame) :: l, page, mem =>
    fillFrames fv file zeroFrom l (page + 1)
      (update mem frame (clearedFrom zeroFrom vpn (fv.readPage file page)))

def installAll (s : Populating) (flags : MapPermission) : List (Nat × Frame) → Option Populating
  | [] => some s
  | (vpn, frame) :: l => do
    let s ← s.install vpn frame flags
    installAll s flags l

variable (m : Arith)

def tryMapPrivateFilePages (s : Populating) (fv : Files) (faultVpn : Nat) :
    Option (Bool × Populating) :=
  match s.area.backingFile with
  | none => some (false, s)
  | some (file, base) => do
    let relativePage ← m.sub faultVpn s.area.start
    if (base + relativePage) * PAGE_SIZE ≥ 2 ^ 64 then return (false, s)
    let availablePages ← m.sub s.area.stop faultVpn
    let (frames, phys) := collectFrames s.pt s.phys faultVpn (min READ_AHEAD_PAGES availablePages)
    if frames.isEmpty then return (false, { s with phys })
    let mem := fillFrames fv file s.area.fileZeroFrom frames (base + relativePage) phys.mem
    let s ← { s with phys := { phys with mem } }.installAll s.area.mapPerm frames
    return (true, s)

/-- Takes a frame for the page and maps it; `false` if there is none. -/
def tryMapOne (s : Populating) (fv : Files) (vpn : Nat) : Option (Bool × Populating) :=
  match s.area.mapType with
  | .guard => some (false, s)
  | .framed =>
    match s.anonymousFrame vpn with
    | none => some (false, s)
    | some (frame, phys) => do
      let s ← { s with phys }.install vpn frame s.area.initialPtePermission
      return (true, s)
  | .file =>
    if s.area.isShared || s.area.pageCacheCow then s.tryMapSharedFilePage fv vpn
    else s.tryMapPrivateFilePages m fv vpn

/-- Maps a page eagerly: a frame has to be there. -/
def mapOne (s : Populating) (fv : Files) (vpn : Nat) : Option Populating :=
  match s.area.mapType with
  | .guard => some s
  | _ => do
    let (mapped, s) ← s.tryMapOne m fv vpn
    if mapped then some s else none

/-- `map_one` on the `n` pages from `vpn` on. -/
def mapPages (m : Arith) (s : Populating) (fv : Files) (vpn : Nat) : Nat → Option Populating
  | 0 => some s
  | n + 1 => do
    let s ← s.mapOne m fv vpn
    mapPages m s fv (vpn + 1) n

def map (s : Populating) (fv : Files) : Option Populating :=
  s.mapPages m fv s.area.start (s.area.stop - s.area.start)

def appendTo (s : Populating) (fv : Files) (newEnd : Nat) : Option Populating := do
  let s ← s.mapPages m fv s.area.stop (newEnd - s.area.stop)
  let range ← VPNRange.new s.area.start newEnd
  return { s with area := { s.area with start := range.1, stop := range.2 } }

end Populating

end ShellCore.Mm
