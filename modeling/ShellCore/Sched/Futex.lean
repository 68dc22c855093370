import ShellCore.Lib.Actors

/-!
# Futex wait queues

Threads wait on, wake and requeue waiters of queues that are found by key in one global table. A
section under the table's lock, or under a queue's lock, is one step; so is every read of a waiter's
location, which needs no lock. Queues are reference counted: the table and the threads hold counted
references, a location holds a weak one. Waiters and queues are numbered; a number is an identity, as
`Arc::ptr_eq` tells it.
-/

namespace ShellCore.Sched.Futex

open Function

structure FutexWaiterLocation (κ : Type) where
  key : κ
  queue : Nat
deriving DecidableEq

/-- What a thread that has returned from `schedule` in `block_current_on_futex_if` holds. -/
structure Blocked (κ : Type) where
  waiter : Nat
  key : κ
  queue : Nat
deriving DecidableEq

/-- What a system call does at its end: `retire_futex_wait_queue_if_unused`, the same by key, and the
release of a reference. -/
inductive Act (κ : Type) where
  | retire (key : κ) (queue : Nat)
  | retireKey (key : κ)
  | drop (queue : Nat)
deriving DecidableEq

/-- Where a thread stands. -/
inductive Pc (κ : Type) where
  | idle
  /-- In `schedule`, until a wake-up, a timeout or a signal. -/
  | waiting (b : Blocked κ)
  /-- `remove_futex_waiter`: before the location is read. -/
  | locating (b : Blocked κ)
  /-- Before the queue of the location is upgraded to a counted reference. -/
  | upgrading (b : Blocked κ) (l : FutexWaiterLocation κ)
  /-- Before the queue is locked. -/
  | locking (b : Blocked κ) (l : FutexWaiterLocation κ)
  /-- The waiter was not in the queue; before its location is read again. -/
  | rechecking (b : Blocked κ) (l : FutexWaiterLocation κ)
  /-- The assertion has failed. -/
  | panicked
  /-- `wake_futex_waiters`: before the queue is locked. -/
  | wakeLocking (key : κ) (queue count : Nat) (bitset : BitVec 32)
  /-- Waiters that were taken off a queue have to be woken, then the call ends. -/
  | acting (waiters : List Nat) (acts : List (Act κ))
deriving DecidableEq

structure Futexes (α κ : Type) where
  /-- `FUTEX_WAIT_QUEUES`. -/
  table : κ → Option Nat
  queue : Nat → List Nat
  /-- The number of counted references to a queue. -/
  refs : Nat → Nat
  /-- The fields of a `FutexWaiter`. -/
  bitset : Nat → BitVec 32
  location : Nat → Option (FutexWaiterLocation κ)
  nextQueue : Nat
  nextWaiter : Nat
  pc : α → Pc κ
  /-- The waiters for which `wake_up_task` was called, and those that removed themselves. -/
  woken : List Nat
  removed : List Nat

/-- What a thread does next: begin a call, or go on with the one it is in. `shouldBlock` and
`shouldRequeue` are what the closures answer. -/
inductive Cmd (κ : Type) where
  | wait (key : κ) (bitset : BitVec 32) (shouldBlock : Bool)
  | wake (key : κ) (count : Nat) (bitset : BitVec 32)
  | requeue (src dst : κ) (wakeCount requeueCount : Nat) (shouldRequeue : Bool)
  | next
deriving DecidableEq

/-- `count` times `pop_matching`: the waiters taken and those left. -/
def popMatching (p : Nat → Bool) : Nat → List Nat → List Nat × List Nat
  | 0, l => ([], l)
  | count + 1, l =>
    match l.find? p with
    | none => ([], l)
    | some w =>
      let (taken, left) := popMatching p count (l.eraseP p)
      (w :: taken, left)

namespace Futexes

variable {α κ : Type} [DecidableEq α] [DecidableEq κ]

def init : Futexes α κ where
  table _ := none
  queue _ := []
  refs _ := 0
  bitset _ := 0
  location _ := none
  nextQueue := 0
  nextWaiter := 0
  pc _ := .idle
  woken := []
  removed := []

variable (s : Futexes α κ) (t : α)

def goto (pc : Pc κ) : Futexes α κ := { s with pc := update s.pc t pc }

def addRef (q : Nat) : Futexes α κ := { s with refs := update s.refs q (s.refs q + 1) }

def dropRef (q : Nat) : Futexes α κ := { s with refs := update s.refs q (s.refs q - 1) }

variable (key : κ)

/-- `queues.entry(key).or_insert_with(..).clone()`. -/
def getOrInsert : Futexes α κ × Nat :=
  match s.table key with
  | some q => (s.addRef q, q)
  | none =>
    ({ s with
      table := update s.table key (some s.nextQueue)
      queue := update s.queue s.nextQueue []
      refs := update s.refs s.nextQueue 2
      nextQueue := s.nextQueue + 1 }, s.nextQueue)

/-- `queues.remove(&key)`. -/
def removeKey : Futexes α κ :=
  match s.table key with
  | none => s
  | some q => { s.dropRef q with table := update s.table key none }

/-- `clear_location_while_queued` of several waiters. -/
def clearLocations (ws : List Nat) : Futexes α κ :=
  { s with location := fun i => if i ∈ ws then none else s.location i }

/-- `set_location_while_queued` of several waiters. -/
def setLocations (ws : List Nat) (l : FutexWaiterLocation κ) : Futexes α κ :=
  { s with location := fun i => if i ∈ ws then some l else s.location i }

def setQueue (q : Nat) (l : List Nat) : Futexes α κ :=
  { s with queue := update s.queue q l }

def retireFutexWaitQueueIfUnused (q : Nat) : Futexes α κ :=
  match s.table key with
  | none => s
  | some current =>
    if current ≠ q ∨ s.refs current ≠ 2 then s
    else if s.queue current = [] then s.removeKey key
    else s

/-- The clone that is compared with 2 is one reference more. -/
def retireFutexWaitQueueByKeyIfUnused : Futexes α κ :=
  match s.table key with
  | none => s
  | some current => if s.refs current + 1 = 2 ∧ s.queue current = [] then s.removeKey key else s

/-- `block_current_on_futex_if` up to `schedule`. -/
def blockCurrentOnFutexIf (bitset : BitVec 32) (shouldBlock : Bool) :
    Futexes α κ :=
  let (s, q) := s.getOrInsert key
  if shouldBlock then
    let w := s.nextWaiter
    let s := { s with nextWaiter := w + 1, bitset := update s.bitset w bitset }
    let s := s.setLocations [w] ⟨key, q⟩
    (s.setQueue q (s.queue q ++ [w])).goto t (.waiting ⟨w, key, q⟩)
  else
    let s := if s.queue q = [] then s.removeKey key else s
    s.dropRef q

/-- The section of `wake_futex_waiters` under the queue's lock. -/
def wakeFutexWaiters (q count : Nat) (bitset : BitVec 32) : Futexes α κ :=
  let (taken, left) := popMatching (fun w => s.bitset w &&& bitset != 0) count (s.queue q)
  ((s.setQueue q left).clearLocations taken).goto t (.acting taken [.retire key q, .drop q])

/-- The section of `requeue_futex_waiters` under the locks of the table and of the queues. -/
def requeueFutexWaiters (src dst : κ) (wakeCount requeueCount : Nat)
    (shouldRequeue : Bool) : Futexes α κ :=
  let retires := .retireKey src :: if requeueCount > 0 then [.retireKey dst] else []
  match s.table src with
  | none => s.goto t (.acting [] retires)
  | some srcQueue =>
    let s := s.addRef srcQueue
    if requeueCount > 0 then
      let (s, dstQueue) := s.getOrInsert dst
      let acts := .drop srcQueue :: .drop dstQueue :: retires
      if shouldRequeue then
        let wake := (s.queue srcQueue).take wakeCount
        let left := (s.queue srcQueue).drop wakeCount
        let s := (s.setQueue srcQueue left).clearLocations wake
        if srcQueue = dstQueue then s.goto t (.acting wake acts)
        else
          let moved := left.take requeueCount
          let s := (s.setQueue srcQueue (left.drop requeueCount)).setLocations moved ⟨dst, dstQueue⟩
          (s.setQueue dstQueue (s.queue dstQueue ++ moved)).goto t (.acting wake acts)
      else s.goto t (.acting [] acts)
    else
      let acts := .drop srcQueue :: retires
      if shouldRequeue then
        let wake := (s.queue srcQueue).take wakeCount
        let s := (s.setQueue srcQueue ((s.queue srcQueue).drop wakeCount)).clearLocations wake
        s.goto t (.acting wake acts)
      else s.goto t (.acting [] acts)

/-- How `sys_futex` ends a wait whose removal gave nothing. -/
def finish (b : Blocked κ) : List (Act κ) := [.retire b.key b.queue, .drop b.queue]

/-- How it ends a wait whose waiter was removed from the queue of `l`. -/
def finishRemoved (b : Blocked κ) (l : FutexWaiterLocation κ) : List (Act κ) :=
  (if l.queue ≠ b.queue then [.retire l.key l.queue] else []) ++ .drop l.queue :: finish b

def act : Act κ → Futexes α κ
  | .retire key q => s.retireFutexWaitQueueIfUnused key q
  | .retireKey key => s.retireFutexWaitQueueByKeyIfUnused key
  | .drop q => s.dropRef q

/-- The next step of a call: the rounds of `remove_futex_waiter`, the pops, and the end of a call. -/
def next : Option (Futexes α κ) :=
  match s.pc t with
  | .idle | .panicked => none
  | .waiting b => some (s.goto t (.locating b))
  | .locating b =>
    match s.location b.waiter with
    | none => some (s.goto t (.acting [] (finish b)))
    | some l => some (s.goto t (.upgrading b l))
  | .upgrading b l =>
    if s.refs l.queue = 0 then some (s.goto t (.acting [] (finish b)))
    else some ((s.addRef l.queue).goto t (.locking b l))
  | .locking b l =>
    if b.waiter ∈ s.queue l.queue then
      let s := (s.setQueue l.queue ((s.queue l.queue).erase b.waiter)).clearLocations [b.waiter]
      some ({ s with removed := b.waiter :: s.removed }.goto t (.acting [] (finishRemoved b l)))
    else some (s.goto t (.rechecking b l))
  | .rechecking b l =>
    match s.location b.waiter with
    | none => some ((s.dropRef l.queue).goto t (.acting [] (finish b)))
    | some current =>
      if current = l then some (s.goto t .panicked) else some ((s.dropRef l.queue).goto t (.locating b))
  | .wakeLocking key q count bitset => some (s.wakeFutexWaiters t key q count bitset)
  | .acting (w :: ws) acts => some ({ s with woken := w :: s.woken }.goto t (.acting ws acts))
  | .acting [] (a :: acts) => some ((s.act a).goto t (.acting [] acts))
  | .acting [] [] => some (s.goto t .idle)

def step : Cmd κ → Option (Futexes α κ)
  | .wait key bitset shouldBlock =>
    if s.pc t = .idle then some (s.blockCurrentOnFutexIf t key bitset shouldBlock) else none
  | .wake key count bitset =>
    if s.pc t = .idle then
      match s.table key with
      | none => some s
      | some q => some ((s.addRef q).goto t (.wakeLocking key q count bitset))
    else none
  | .requeue src dst wakeCount requeueCount shouldRequeue =>
    if s.pc t = .idle then some (s.requeueFutexWaiters t src dst wakeCount requeueCount shouldRequeue) else none
  | .next => s.next t

/-- Some thread takes a step. -/
def Step (s s' : Futexes α κ) : Prop := ∃ t c, s.step t c = some s'

end Futexes

end ShellCore.Sched.Futex
