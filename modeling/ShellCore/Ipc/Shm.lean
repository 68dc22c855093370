import ShellCore.Lib.Actors
import ShellCore.Lib.OrdMap
import ShellCore.Mm.Address

/-!
# Shared memory segments

Segments are found by a number that is used again after `IPC_RMID`. One table, keyed by the address alone, says which
segment was attached where; the address spaces are per process. `serial` tells segments apart that have had the same
number: the code has no such field, but a mapping keeps the file of its segment.
-/

namespace ShellCore.Ipc

open Function

open Mm (PAGE_SIZE)

structure RecycleAllocator where
  current : Nat
  /-- The last one is taken first. -/
  recycled : List Nat
deriving DecidableEq

namespace RecycleAllocator

def alloc (a : RecycleAllocator) : Nat × RecycleAllocator :=
  match a.recycled with
  | id :: rest => (id, { a with recycled := rest })
  | [] => (a.current, { a with current := a.current + 1 })

def dealloc (a : RecycleAllocator) (id : Nat) : Option RecycleAllocator :=
  if id < a.current ∧ id ∉ a.recycled then some { a with recycled := id :: a.recycled } else none

end RecycleAllocator

structure Shm where
  key : Int
  size : Nat
  nattch : Nat
  serial : Nat
deriving DecidableEq

namespace Shm

def incNattch (shm : Shm) : Shm := { shm with nattch := shm.nattch + 1 }

def decNattch (shm : Shm) : Shm := { shm with nattch := shm.nattch - 1 }

end Shm

structure ShmManager where
  idAllocator : RecycleAllocator
  shms : OrdMap Shm
  /-- From addresses to the numbers of segments. -/
  attachments : OrdMap Nat

/-- The segment that a page is mapped to, and where it was attached. -/
structure Mapped where
  base : Nat
  serial : Nat
deriving DecidableEq

/-- The segments of one namespace and the address spaces of its processes. -/
structure Shms (π : Type) where
  man : ShmManager
  alive : π → Bool
  pages : π → OrdMap Mapped
  serials : Nat

inductive ShmCall (π : Type) where
  | shmget (key : Int) (size : Nat) (creat : Bool)
  /-- `found` is the address that `find_free_area` has, `allowed` the answer of the checks of permissions. -/
  | shmat (p : π) (shmid shmaddr : Nat) (rnd : Bool) (found : Nat) (allowed : Bool)
  | shmdt (p : π) (shmaddr : Nat)
  | rmid (shmid : Nat) (allowed : Bool)
  | fork (p child : π)
  | exit (p : π)

namespace Shms

variable {π : Type} [DecidableEq π]

def sizeLimit : Nat := 16 * 1024 * 1024

variable (s : Shms π)

/-- `create_shm`. -/
def createShm (key : Int) (size : Nat) : Shms π :=
  { s with
    man := { s.man with
      idAllocator := s.man.idAllocator.alloc.2
      shms := s.man.shms.insert s.man.idAllocator.alloc.1 ⟨key, size, 0, s.serials⟩ }
    serials := s.serials + 1 }

/-- The part of `shmget` that makes a segment; what finds one changes nothing. -/
def sysShmget (key : Int) (size : Nat) (creat : Bool) : Shms π :=
  if key = 0 then if creat then s.createShm key size else s
  else if s.man.shms.entries.any fun x => x.2.key == key then s
  else if creat && size != 0 && decide (size ≤ sizeLimit) then s.createShm key size
  else s

/-- The address that is given to `mmap`: 0 if the kernel is to choose one, nothing for `EINVAL`. -/
def attachAddr (shmaddr : Nat) (rnd : Bool) : Option Nat :=
  if shmaddr = 0 then some 0
  else if rnd then some (shmaddr - shmaddr % PAGE_SIZE)
  else if shmaddr % PAGE_SIZE = 0 then some shmaddr
  else none

/-- Where the segment goes. -/
def startAddr (shmaddr : Nat) (rnd : Bool) (found : Nat) : Option Nat :=
  (attachAddr shmaddr rnd).map fun addr => if addr = 0 then found else addr

def pageCount (size : Nat) : Nat := (size + PAGE_SIZE - 1) / PAGE_SIZE

/-- The numbers of the pages that `size` bytes from `start` take. -/
def pageRange (start size : Nat) : List Nat := (List.range (pageCount size)).map fun k => start / PAGE_SIZE + k

/-- `mmap` of a segment at an address it has chosen or been given; a conflict is an error. -/
def mmap (pages : OrdMap Mapped) (start size : Nat) (serial : Nat) : Option (OrdMap Mapped) :=
  if start = 0 ∨ start % PAGE_SIZE ≠ 0 then none
  else if (pageRange start size).all fun v => (pages.get? v).isNone then
    some ((pageRange start size).foldl (fun pages v => pages.insert v ⟨start, serial⟩) pages)
  else none

def sysShmat (p : π) (shmid shmaddr : Nat) (rnd : Bool) (found : Nat) (allowed : Bool) : Shms π :=
  match s.man.shms.get? shmid, startAddr shmaddr rnd found with
  | some shm, some start =>
    match if allowed then mmap (s.pages p) start shm.size shm.serial else none with
    | none => s
    | some pages =>
      { s with
        man := { s.man with
          shms := s.man.shms.insert shmid shm.incNattch
          attachments := s.man.attachments.insert start shmid }
        pages := update s.pages p pages }
  | _, _ => s

/-- The counter of a segment that is still there goes down. -/
def decNattch (shms : OrdMap Shm) (shmid : Nat) : OrdMap Shm :=
  match shms.get? shmid with
  | none => shms
  | some shm => shms.insert shmid shm.decNattch

def sysShmdt (p : π) (shmaddr : Nat) : Shms π :=
  if shmaddr = 0 ∨ shmaddr % PAGE_SIZE ≠ 0 then s
  else
    match s.man.attachments.get? shmaddr with
    | none => s
    | some shmid =>
      { s with
        man := { s.man with
          shms := decNattch s.man.shms shmid
          attachments := s.man.attachments.erase shmaddr }
        -- `do_munmap(shmaddr, PAGE_SIZE)`
        pages := update s.pages p ((s.pages p).erase (shmaddr / PAGE_SIZE)) }

/-- `shmctl` with `IPC_RMID`; nothing is a panic of the allocator. -/
def removeShm (shmid : Nat) (allowed : Bool) : Option (Shms π) :=
  match s.man.shms.get? shmid with
  | none => some s
  | some _ =>
    if allowed then
      (s.man.idAllocator.dealloc shmid).map fun a =>
        { s with man := { s.man with idAllocator := a, shms := s.man.shms.erase shmid } }
    else some s

/-- A call of a process that is alive. -/
def step : ShmCall π → Option (Shms π)
  | .shmget key size creat => some (s.sysShmget key size creat)
  | .shmat p shmid shmaddr rnd found allowed =>
    if s.alive p then some (s.sysShmat p shmid shmaddr rnd found allowed) else none
  | .shmdt p shmaddr => if s.alive p then some (s.sysShmdt p shmaddr) else none
  | .rmid shmid allowed => s.removeShm shmid allowed
  | .fork p child =>
    if s.alive p ∧ s.alive child = false then
      some { s with alive := update s.alive child true, pages := update s.pages child (s.pages p) }
    else none
  | .exit p =>
    if s.alive p then
      some { s with alive := update s.alive p false, pages := update s.pages p .empty }
    else none

def Step (s s' : Shms π) : Prop := ∃ call, s.step call = some s'

/-- One process and no segment. -/
def init (p : π) : Shms π :=
  { man := { idAllocator := ⟨0, []⟩, shms := .empty, attachments := .empty }
    alive := fun q => q = p
    pages := fun _ => .empty
    serials := 0 }

/-! ## The accounts -/

/-- Process `p` has attached the segment at `base`, in full or in part. -/
def Attached (p : π) (base serial : Nat) : Prop := ∃ v, (s.pages p).get? v = some ⟨base, serial⟩

/-- The attachments of a segment over all address spaces. -/
def attachedAt (serial : Nat) : Set (π × Nat) := {x | s.Attached x.1 x.2 serial}

def Accounted : Prop :=
  ∀ id shm, s.man.shms.get? id = some shm → shm.nattch = (s.attachedAt shm.serial).ncard

/-- `shmdt` takes away what `p` has attached at `addr`, in full, and nothing else. -/
structure DetachesExactly (s s' : Shms π) (p : π) (addr : Nat) : Prop where
  pages : ∀ q v, (s'.pages q).get? v = ((s.pages q).get? v).filter fun m => !(decide (q = p) && m.base == addr)
  record : ∀ serial, s.Attached p addr serial → s'.man.attachments.get? addr = none
  otherRecords : ∀ a, (a = addr → ∀ serial, ¬s.Attached p addr serial) →
    s'.man.attachments.get? a = s.man.attachments.get? a
  counter : ∀ id shm, s.man.shms.get? id = some shm → s.Attached p addr shm.serial →
    s'.man.shms.get? id = some shm.decNattch
  otherCounters : ∀ id shm, s.man.shms.get? id = some shm → ¬s.Attached p addr shm.serial →
    s'.man.shms.get? id = some shm

/-- The calls that the table is good enough for. -/
def orderly : ShmCall π → Bool
  | .shmget .. => true
  -- a segment of one page, at an address that no process has attached anything at
  | .shmat _ shmid shmaddr rnd found _ =>
    (s.man.shms.get? shmid).all fun shm => shm.size != 0 && decide (shm.size ≤ PAGE_SIZE) &&
      (startAddr shmaddr rnd found).all fun start => (s.man.attachments.get? start).isNone
  -- by the process that has attached it
  | .shmdt p shmaddr =>
    (s.man.attachments.get? shmaddr).isNone ||
      ((s.pages p).get? (shmaddr / PAGE_SIZE)).any fun m => m.base == shmaddr
  | .rmid shmid _ => (s.man.shms.get? shmid).all fun shm => shm.nattch == 0
  | .fork p _ => (s.pages p).entries.isEmpty
  | .exit p => (s.pages p).entries.isEmpty

def OrderlyStep (s s' : Shms π) : Prop := ∃ call, s.orderly call = true ∧ s.step call = some s'

end Shms

end ShellCore.Ipc
