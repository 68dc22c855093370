import ShellCore.Lib.Actors

/-!
# Processes that clone, exit and wait for their children

A task hangs in the children list of the task that cloned it, if it is a process of its own; a thread hangs in none. A
section under the lock of a task, of the thread table or of a wait queue is one step. Thread numbers are recycled when the
task that has one is dropped, so tasks and their numbers are kept apart.
-/

namespace ShellCore.Task

open Function Option

/-- Whether a task runs. The scheduler's queues are taken together. -/
inductive Run where
  | running
  | saving (wakePending : Bool)
  | blocked
  /-- Ready, and about to be enqueued by whoever made it ready. -/
  | ready
  | queued
  /-- Ready, and taken off its queue by `remove_process`. -/
  | lost
deriving DecidableEq

namespace Run

/-- `wake_up_task`. -/
def wake : Run → Run
  | saving _ => saving true
  | blocked => ready
  | r => r

/-- What the scheduler makes of a task that has switched away. -/
def commit : Run → Run
  | saving true => ready
  | saving false => blocked
  | r => r

/-- The task sleeps, and nobody has woken it up. -/
def waits : Run → Bool
  | saving pending => !pending
  | blocked => true
  | _ => false

@[simp] theorem waits_wake (r : Run) : r.wake.waits = false := by
  cases r <;> rfl

@[simp] theorem waits_commit (r : Run) : r.commit.waits = r.waits := by
  cases r with
  | saving pending => cases pending <;> rfl
  | _ => rfl

end Run

/-- Which children `wait4` or `waitid` is about. -/
inductive WaitFilter where
  | any
  | ownGroup
  | pid (n : Int)
  | pgid (n : Int)
deriving DecidableEq

/-- The first argument of `sys_wait4`. -/
def wait4Filter (pid : Int) : Option WaitFilter :=
  if pid = -1 then some .any
  else if pid = 0 then some .ownGroup
  else if 0 < pid then some (.pid pid)
  else if pid = -2 ^ 31 then none
  else some (.pgid (-pid))

def P_ALL : Int := 0

def P_PID : Int := 1

def P_PGID : Int := 2

/-- The first two arguments of `sys_waitid`. -/
def waitidFilter (idtype id : Int) : Option WaitFilter :=
  if idtype = P_ALL then some .any
  else if idtype = P_PID then some (.pid id)
  else if idtype = P_PGID then some (.pgid id)
  else none

structure WaitCall where
  waitid : Bool
  filter : WaitFilter
  nohang : Bool
  nowait : Bool
deriving DecidableEq

/-- Where a task stands. -/
inductive ProcPc (τ : Type) where
  | unborn
  /-- Under construction in `do_clone`, and dropped by a clone that failed. -/
  | built
  | discarded
  | user
  /-- `do_clone`: before the child is built, before its number is written to user space, before the child is put into the
  children list, into the table and onto a run queue. -/
  | cloneBuild (thread : Bool) (parent : Option τ)
  | cloneWrite (thread : Bool) (child : τ)
  | cloneLink (child : τ)
  | cloneInsert (child : τ)
  | cloneEnqueue (child : τ)
  /-- The loop of `sys_wait4` and `sys_waitid`: before the scan, before the lock of the wait queue is taken, before the
  condition is looked at again under it, before the task is put into the queue, and asleep. -/
  | waitScan (call : WaitCall)
  | waitBlock (call : WaitCall)
  | waitCheck (call : WaitCall)
  | waitPush (call : WaitCall)
  | asleep (call : WaitCall)
  /-- Before the status is written; `wait4` has taken the child off its list, `waitid` has it only found. -/
  | wait4Write (child : τ)
  | waitidWrite (call : WaitCall) (child : τ)
  | waitidRemove (child : τ)
  /-- `remove_process`; `child` is what the caller holds on to. -/
  | removeSnapshot (pid : Nat) (child : Option τ)
  | removeTable (rest tids : List Nat) (pid : Nat) (child : Option τ)
  | removeQueues (rest : List Nat) (child : Option τ)
  /-- `exit_current_and_run_next`: before the task leaves the table, becomes a zombie, looks for other threads, gives up its
  children, empties the wait queue of its parent, wakes up who was in it, tells its children of their new parent, and gives
  them to `INITTASK`. -/
  | exitTable
  | exitZombie
  | exitCheck
  | exitTake
  | exitNotify (parent : τ) (orphans : List τ)
  | exitWake (rest orphans : List τ)
  | exitAdopt (rest orphans : List τ)
  | exitExtend (orphans : List τ)
  | gone
  /-- A thread of process 1 has exited. -/
  | panicked
deriving DecidableEq

/-- What a task does next: begin a call, or go on with the one it is in. -/
inductive ProcCmd (τ : Type) where
  | clone (thread : Bool)
  /-- The child gets a number, or the clone fails. -/
  | build (child : τ) (tid : Nat)
  | fail
  | wait4 (pid : Int) (nohang : Bool)
  | waitid (idtype id : Int) (nohang nowait : Bool)
  | exit
  /-- `ok` says whether user memory can be written. -/
  | next (ok : Bool)
  | preempt
deriving DecidableEq

/-- What the scheduler does with a task, or what becomes of one that nobody refers to any longer. -/
inductive SchedCmd where
  /-- Anybody's `wake_up_task`, among them those for `SIGCHLD`. -/
  | wake
  | commit
  | enqueue
  | fetch
  | drop
deriving DecidableEq

/-- The tasks, their numbers and their kinship. -/
structure Family (τ : Type) where
  /-- `INITTASK`. -/
  initTask : τ
  /-- Those that are not dropped. -/
  tasks : List τ
  tid : τ → Nat
  leader : τ → τ
  pgid : τ → Nat
  /-- `TID2TCB`. -/
  tid2tcb : List τ
  zombie : τ → Bool
  parent : τ → Option τ
  children : τ → List τ
  /-- Who cloned a process; not in the code. -/
  creator : τ → τ
  /-- What `wait4` and `waitid` have taken off a children list; not in the code. -/
  reaped : List τ

namespace Family

variable {τ : Type} [DecidableEq τ] (x : Family τ) (t : τ)

def tgid : Nat := x.tid (x.leader t)

def setChildren (l : List τ) : Family τ := { x with children := update x.children t l }

/-- The `push` and the `extend` of a children list. -/
abbrev extendChildren (os : List τ) : Family τ := x.setChildren t (x.children t ++ os)

/-- `remove_from_tid2task`. -/
def removeFromTid2task (n : Nat) : Family τ := { x with tid2tcb := x.tid2tcb.filter fun u => x.tid u ≠ n }

def zombify : Family τ := { x with zombie := update x.zombie t true }

def adopt (c : τ) : Family τ := { x with parent := update x.parent c (some x.initTask) }

def reap (t c : τ) : Family τ := { x.setChildren t ((x.children t).erase c) with reaped := x.reaped ++ [c] }

/-- No task has the number, as its own or as that of its process. -/
def free (n : Nat) : Bool := x.tasks.all fun u => x.tid u ≠ n && x.tgid u ≠ n

/-- The child of `do_clone` by task `t`. -/
def build (thread : Bool) (parent : Option τ) (child : τ) (n : Nat) : Family τ :=
  { x with
    tasks := child :: x.tasks
    tid := update x.tid child n
    leader := update x.leader child (if thread then x.leader t else child)
    zombie := update x.zombie child false
    parent := update x.parent child parent
    children := update x.children child []
    creator := update x.creator child t }

/-- A task is dropped, and its children list with it. -/
def drop : Family τ := { x.setChildren t [] with tasks := x.tasks.filter (· ≠ t) }

def upgrade (p : Option τ) : Option τ := p.filter (· ∈ x.tasks)

/-- A task that exits has its parent and its children in hand. -/
def taken : ProcPc τ :=
  match x.upgrade (x.parent t) with
  | some p => .exitNotify p (x.children t)
  | none => .exitAdopt (x.children t) (x.children t)

/-- `last_thread` in `exit_current_and_run_next`. -/
def lastThread : Bool := !x.tid2tcb.any fun u => x.tgid u = x.tgid t && x.tid u ≠ x.tid t

variable (f : WaitFilter)

def matchesFilter (c : τ) : Bool :=
  match f with
  | .any => true
  | .ownGroup => x.pgid c = x.pgid t
  | .pid n => (x.tgid c : Int) = n
  | .pgid n => (x.pgid c : Int) = n

/-- The first child that is a zombie, among those that match. -/
def findZombie : Option τ := (x.children t).find? fun c => x.matchesFilter t f c && x.zombie c

def hasMatch : Bool := (x.children t).any (x.matchesFilter t f)

/-- `wait4_should_block` and `waitid_should_block`. -/
def shouldBlock : Bool := x.hasMatch t f && (x.findZombie t f).isNone

end Family

structure Processes (τ : Type) where
  family : Family τ
  run : τ → Run
  /-- `wait_chldexit` of each process, and its lock. -/
  waitChldexit : τ → List τ
  queueLock : τ → Option τ
  pc : τ → ProcPc τ
  /-- The tasks that `remove_process` has taken off the table or a run queue while they were alive; not in the code. -/
  victims : List τ

namespace ProcPc

variable {τ : Type}

/-- What a task holds a reference to in local variables. -/
def holds : ProcPc τ → List τ
  | cloneWrite _ c | cloneLink c | cloneInsert c | cloneEnqueue c | wait4Write c => [c]
  | removeSnapshot _ c | removeTable _ _ _ c | removeQueues _ c => c.toList
  | exitNotify p os => p :: os
  | exitWake _ os | exitAdopt _ os | exitExtend os => os
  | _ => []

end ProcPc

namespace Processes

variable {τ : Type} [DecidableEq τ] (s : Processes τ) (t : τ)

def goto (p : ProcPc τ) : Processes τ := { s with pc := update s.pc t p }

def setFamily (x : Family τ) : Processes τ := { s with family := x }

def setRun (r : Run) : Processes τ := { s with run := update s.run t r }

def setQueue (l : List τ) : Processes τ := { s with waitChldexit := update s.waitChldexit t l }

def setLock (l : Option τ) : Processes τ := { s with queueLock := update s.queueLock t l }

/-- Those of the tasks that are alive. -/
def alive (l : List τ) : List τ := l.filter fun u => !s.family.zombie u

/-- `remove_from_tid2task` in `remove_process`. -/
def removeTid (n : Nat) : Processes τ :=
  { s.setFamily (s.family.removeFromTid2task n) with
    victims := s.victims ++ s.alive (s.family.tid2tcb.filter fun u => s.family.tid u = n) }

/-- `remove_task_from_all_local_queues_unlocked`. -/
def dequeue (n : Nat) : Processes τ :=
  match s.family.tasks.find? fun u => s.family.tid u = n && s.run u = .queued with
  | some u => { s.setRun u .lost with victims := s.victims ++ s.alive [u] }
  | none => s

/-- Nobody refers to a task that has come to its end. -/
def droppable : Bool :=
  s.pc t = .gone && !s.family.tid2tcb.contains t &&
    s.family.tasks.all fun u => !(s.family.children u).contains t && !(s.pc u).holds.contains t

/-- The scan of `sys_wait4` and `sys_waitid`. -/
def scan (call : WaitCall) : Processes τ :=
  match s.family.findZombie t call.filter with
  | some c =>
    if call.waitid then s.goto t (.waitidWrite call c) else (s.setFamily (s.family.reap t c)).goto t (.wait4Write c)
  | none => s.goto t (if s.family.hasMatch t call.filter && !call.nohang then .waitBlock call else .user)

/-- Under the lock of the task, in `exit_current_and_run_next`. -/
def take : Processes τ := (s.setFamily (s.family.setChildren t [])).goto t (s.family.taken t)

def next (ok : Bool) : Option (Processes τ) :=
  match s.pc t with
  | .cloneWrite thread c => some (s.goto t (if thread then .cloneInsert c else .cloneLink c))
  | .cloneLink c => some ((s.setFamily (s.family.extendChildren t [c])).goto t (.cloneInsert c))
  | .cloneInsert c => some ((s.setFamily { s.family with tid2tcb := s.family.tid2tcb ++ [c] }).goto t (.cloneEnqueue c))
  | .cloneEnqueue c => some (((s.setRun c .queued).goto c .user).goto t .user)
  | .waitScan call => some (s.scan t call)
  | .waitBlock call =>
    if s.queueLock (s.family.leader t) = none then
      some ((s.setLock (s.family.leader t) (some t)).goto t (.waitCheck call))
    else none
  | .waitCheck call =>
    if s.family.shouldBlock t call.filter then some (s.goto t (.waitPush call))
    else some ((s.setLock (s.family.leader t) none).goto t (.waitScan call))
  | .waitPush call =>
    some ((((s.setRun t (.saving false)).setQueue (s.family.leader t) (s.waitChldexit (s.family.leader t) ++ [t])).setLock
      (s.family.leader t) none).goto t (.asleep call))
  | .asleep call => some (s.goto t (.waitScan call))
  | .wait4Write c => some (s.goto t (if ok then .removeSnapshot (s.family.tgid c) (some c) else .user))
  | .waitidWrite call c => some (s.goto t (if ok && !call.nowait then .waitidRemove c else .user))
  | .waitidRemove c =>
    match (s.family.children t).find? fun c' => s.family.tgid c' = s.family.tgid c with
    | some c' => some ((s.setFamily (s.family.reap t c')).goto t (.removeSnapshot (s.family.tgid c) none))
    | none => some (s.goto t .user)
  | .removeSnapshot n c =>
    let tids := (s.family.tid2tcb.filter fun u => s.family.tgid u = n).map s.family.tid
    some (s.goto t (.removeTable tids tids n c))
  | .removeTable [] tids n c => some (s.goto t (.removeQueues (tids ++ [n]) c))
  | .removeTable (m :: rest) tids n c => some ((s.removeTid m).goto t (.removeTable rest tids n c))
  | .removeQueues [] _ => some (s.goto t .user)
  | .removeQueues (m :: rest) c => some ((s.dequeue m).goto t (.removeQueues rest c))
  | .exitTable => some ((s.setFamily (s.family.removeFromTid2task (s.family.tid t))).goto t .exitZombie)
  | .exitZombie =>
    some ((s.setFamily (s.family.zombify t)).goto t
      (if s.family.leader t = s.family.initTask then .panicked else .exitCheck))
  | .exitCheck => some (s.goto t (if s.family.lastThread t then .exitTake else .gone))
  | .exitTake => some (s.take t)
  | .exitNotify p os =>
    if s.queueLock (s.family.leader p) = none then
      some ((s.setQueue (s.family.leader p) []).goto t (.exitWake (s.waitChldexit (s.family.leader p)) os))
    else none
  | .exitWake [] os => some (s.goto t (.exitAdopt os os))
  | .exitWake (u :: rest) os => some ((s.setRun u (s.run u).wake).goto t (.exitWake rest os))
  | .exitAdopt [] os => some (s.goto t (if os = [] then .gone else .exitExtend os))
  | .exitAdopt (c :: rest) os => some ((s.setFamily (s.family.adopt c)).goto t (.exitAdopt rest os))
  | .exitExtend os =>
    some ((s.setFamily (s.family.extendChildren s.family.initTask os)).goto t .gone)
  | _ => none

/-- A task that runs goes on. -/
def act : ProcCmd τ → Option (Processes τ)
  | .clone thread =>
    if s.pc t = .user then some (s.goto t (.cloneBuild thread (if thread then s.family.parent t else some t))) else none
  | .build child n =>
    match s.pc t with
    | .cloneBuild thread parent =>
      if s.pc child = .unborn ∧ s.family.free n then
        some (((s.setFamily (s.family.build t thread parent child n)).setRun child .ready).goto child .built |>.goto t
          (.cloneWrite thread child))
      else none
    | _ => none
  | .fail =>
    match s.pc t with
    | .cloneBuild .. => some (s.goto t .user)
    | .cloneWrite _ c => some (((s.setFamily (s.family.drop c)).goto c .discarded).goto t .user)
    | _ => none
  | .wait4 pid nohang =>
    if s.pc t = .user then
      (wait4Filter pid).map fun f => s.goto t (.waitScan ⟨false, f, nohang, false⟩)
    else none
  | .waitid idtype id nohang nowait =>
    if s.pc t = .user then
      (waitidFilter idtype id).map fun f => s.goto t (.waitScan ⟨true, f, nohang, nowait⟩)
    else none
  | .exit => if s.pc t = .user then some (s.goto t .exitTable) else none
  | .next ok => s.next t ok
  | .preempt => if s.pc t = .user then some (s.setRun t .ready) else none

def sched (u : τ) : SchedCmd → Option (Processes τ)
  | .wake => some (s.setRun u (s.run u).wake)
  | .commit => some (s.setRun u (s.run u).commit)
  | .enqueue => if s.run u = .ready ∧ s.pc u ≠ .built then some (s.setRun u .queued) else none
  | .fetch => if s.run u = .queued then some (s.setRun u .running) else none
  | .drop => if s.droppable u then some (s.setFamily (s.family.drop u)) else none

/-- The kernel has not panicked. -/
def panicFree : Bool := s.family.tasks.all fun u => s.pc u ≠ .panicked

def step : ProcCmd τ ⊕ SchedCmd → Option (Processes τ)
  | .inl cmd => if s.panicFree ∧ s.run t = .running then s.act t cmd else none
  | .inr cmd => if s.panicFree then s.sched t cmd else none

def Step (s s' : Processes τ) : Prop := ∃ t cmd, s.step t cmd = some s'

/-- The first process, alone. -/
def boot (initTask : τ) (pgid : τ → Nat) : Processes τ where
  family :=
    { initTask := initTask
      tasks := [initTask]
      tid := fun _ => 1
      leader := id
      pgid := pgid
      tid2tcb := [initTask]
      zombie := fun _ => false
      parent := fun _ => none
      children := fun _ => []
      creator := id
      reaped := [] }
  run _ := .running
  waitChldexit _ := []
  queueLock _ := none
  pc t := if t = initTask then .user else .unborn
  victims := []

/-! ## What a step can do -/

/-- The moves of a task that only change where it stands. -/
inductive Goes (t : τ) (cmd : ProcCmd τ ⊕ SchedCmd) : ProcPc τ → Prop
  | clone (thread : Bool) (hpc : s.pc t = .user) :
      Goes t cmd (.cloneBuild thread (if thread then s.family.parent t else some t))
  | cloneFail {thread : Bool} {parent : Option τ} (hpc : s.pc t = .cloneBuild thread parent) : Goes t cmd .user
  | cloneThread {c : τ} (hpc : s.pc t = .cloneWrite true c) : Goes t cmd (.cloneInsert c)
  | cloneProcess {c : τ} (hpc : s.pc t = .cloneWrite false c) : Goes t cmd (.cloneLink c)
  | wait (call : WaitCall) (hpc : s.pc t = .user) : Goes t cmd (.waitScan call)
  | waitFound {call : WaitCall} {c : τ} (hpc : s.pc t = .waitScan call)
      (hc : s.family.findZombie t call.filter = some c) : Goes t cmd (.waitidWrite call c)
  | waitBlock {call : WaitCall} (hpc : s.pc t = .waitScan call) : Goes t cmd (.waitBlock call)
  | waitNone {call : WaitCall} (hpc : s.pc t = .waitScan call) : Goes t cmd .user
  | waitPush {call : WaitCall} (hpc : s.pc t = .waitCheck call) (hblock : s.family.shouldBlock t call.filter = true) :
      Goes t cmd (.waitPush call)
  | awake {call : WaitCall} (hpc : s.pc t = .asleep call) : Goes t cmd (.waitScan call)
  | wait4Remove {c : τ} (hpc : s.pc t = .wait4Write c) : Goes t cmd (.removeSnapshot (s.family.tgid c) (some c))
  | wait4Fault {c : τ} (hpc : s.pc t = .wait4Write c) : Goes t cmd .user
  | waitidRemove {call : WaitCall} {c : τ} (hpc : s.pc t = .waitidWrite call c) : Goes t cmd (.waitidRemove c)
  | waitidEnd {call : WaitCall} {c : τ} (hpc : s.pc t = .waitidWrite call c) : Goes t cmd .user
  | waitidNone {c : τ} (hpc : s.pc t = .waitidRemove c) : Goes t cmd .user
  | removeTable {n : Nat} {c : Option τ} (hpc : s.pc t = .removeSnapshot n c) {tids : List Nat}
      (htids : tids = (s.family.tid2tcb.filter fun u => s.family.tgid u = n).map s.family.tid) :
      Goes t cmd (.removeTable tids tids n c)
  | removeQueues {tids : List Nat} {n : Nat} {c : Option τ} (hpc : s.pc t = .removeTable [] tids n c) :
      Goes t cmd (.removeQueues (tids ++ [n]) c)
  | removed {c : Option τ} (hpc : s.pc t = .removeQueues [] c) : Goes t cmd .user
  | exit (hcmd : cmd = .inl .exit) (hpc : s.pc t = .user) : Goes t cmd .exitTable
  | last (hpc : s.pc t = .exitCheck) (hlast : s.family.lastThread t = true) : Goes t cmd .exitTake
  | notLast {ok : Bool} (hcmd : cmd = .inl (.next ok)) (hpc : s.pc t = .exitCheck)
      (hlast : s.family.lastThread t = false) : Goes t cmd .gone
  | woken {os : List τ} (hpc : s.pc t = .exitWake [] os) : Goes t cmd (.exitAdopt os os)
  | noOrphan (hpc : s.pc t = .exitAdopt [] []) : Goes t cmd .gone
  | adopted {os : List τ} (hpc : s.pc t = .exitAdopt [] os) : Goes t cmd (.exitExtend os)

/-- All moves: of task `t` itself, of the scheduler with it, and its end. -/
inductive Move (t : τ) (cmd : ProcCmd τ ⊕ SchedCmd) : Processes τ → Prop
  | go {p : ProcPc τ} (h : s.Goes t cmd p) : Move t cmd (s.goto t p)
  | build {thread : Bool} {parent : Option τ} {child : τ} {n : Nat} (hcmd : cmd = .inl (.build child n))
      (hpc : s.pc t = .cloneBuild thread parent) (hchild : s.pc child = .unborn) (hn : s.family.free n = true) :
      Move t cmd (((s.setFamily (s.family.build t thread parent child n)).setRun child .ready).goto child .built |>.goto t
        (.cloneWrite thread child))
  | discard {thread : Bool} {c : τ} (hpc : s.pc t = .cloneWrite thread c) :
      Move t cmd (((s.setFamily (s.family.drop c)).goto c .discarded).goto t .user)
  | link {c : τ} (hpc : s.pc t = .cloneLink c) :
      Move t cmd ((s.setFamily (s.family.extendChildren t [c])).goto t (.cloneInsert c))
  | insert {c : τ} (hpc : s.pc t = .cloneInsert c) :
      Move t cmd ((s.setFamily { s.family with tid2tcb := s.family.tid2tcb ++ [c] }).goto t (.cloneEnqueue c))
  | start {c : τ} (hpc : s.pc t = .cloneEnqueue c) : Move t cmd (((s.setRun c .queued).goto c .user).goto t .user)
  | reap {call : WaitCall} {c : τ} (hpc : s.pc t = .waitScan call)
      (hc : s.family.findZombie t call.filter = some c) :
      Move t cmd ((s.setFamily (s.family.reap t c)).goto t (.wait4Write c))
  | reapId {c c' : τ} (hpc : s.pc t = .waitidRemove c)
      (hc : (s.family.children t).find? (fun c' => s.family.tgid c' = s.family.tgid c) = some c') :
      Move t cmd ((s.setFamily (s.family.reap t c')).goto t (.removeSnapshot (s.family.tgid c) none))
  | lock {call : WaitCall} (hpc : s.pc t = .waitBlock call) (hfree : s.queueLock (s.family.leader t) = none) :
      Move t cmd ((s.setLock (s.family.leader t) (some t)).goto t (.waitCheck call))
  | unlock {call : WaitCall} (hpc : s.pc t = .waitCheck call) :
      Move t cmd ((s.setLock (s.family.leader t) none).goto t (.waitScan call))
  | sleep {call : WaitCall} (hpc : s.pc t = .waitPush call) :
      Move t cmd ((((s.setRun t (.saving false)).setQueue (s.family.leader t)
        (s.waitChldexit (s.family.leader t) ++ [t])).setLock (s.family.leader t) none).goto t (.asleep call))
  | removeTid {m : Nat} {rest tids : List Nat} {n : Nat} {c : Option τ}
      (hpc : s.pc t = .removeTable (m :: rest) tids n c) : Move t cmd ((s.removeTid m).goto t (.removeTable rest tids n c))
  | dequeue {m : Nat} {rest : List Nat} {c : Option τ} (hpc : s.pc t = .removeQueues (m :: rest) c) :
      Move t cmd ((s.dequeue m).goto t (.removeQueues rest c))
  | leave (hpc : s.pc t = .exitTable) :
      Move t cmd ((s.setFamily (s.family.removeFromTid2task (s.family.tid t))).goto t .exitZombie)
  | zombify {ok : Bool} (hcmd : cmd = .inl (.next ok)) (hpc : s.pc t = .exitZombie)
      (hother : s.family.leader t ≠ s.family.initTask) :
      Move t cmd ((s.setFamily (s.family.zombify t)).goto t .exitCheck)
  | panic {ok : Bool} (hcmd : cmd = .inl (.next ok)) (hpc : s.pc t = .exitZombie)
      (hinit : s.family.leader t = s.family.initTask) :
      Move t cmd ((s.setFamily (s.family.zombify t)).goto t .panicked)
  | take {ok : Bool} (hcmd : cmd = .inl (.next ok)) (hpc : s.pc t = .exitTake) : Move t cmd (s.take t)
  | drain {p : τ} {os : List τ} (hpc : s.pc t = .exitNotify p os) (hfree : s.queueLock (s.family.leader p) = none) :
      Move t cmd ((s.setQueue (s.family.leader p) []).goto t (.exitWake (s.waitChldexit (s.family.leader p)) os))
  | wake {u : τ} {rest os : List τ} (hpc : s.pc t = .exitWake (u :: rest) os) :
      Move t cmd ((s.setRun u (s.run u).wake).goto t (.exitWake rest os))
  | adopt {c : τ} {rest os : List τ} (hpc : s.pc t = .exitAdopt (c :: rest) os) :
      Move t cmd ((s.setFamily (s.family.adopt c)).goto t (.exitAdopt rest os))
  | extend {ok : Bool} {os : List τ} (hcmd : cmd = .inl (.next ok)) (hpc : s.pc t = .exitExtend os) :
      Move t cmd ((s.setFamily (s.family.extendChildren s.family.initTask os)).goto t .gone)
  | sched {r : Run} (h : r.waits = true → (s.run t).waits = true) : Move t cmd (s.setRun t r)
  | drop (h : s.droppable t = true) : Move t cmd (s.setFamily (s.family.drop t))

variable {s} {s' : Processes τ} {t : τ}

theorem move_of_next {ok : Bool} (h : s.next t ok = some s') : s.Move t (.inl (.next ok)) s' := by
  unfold next at h
  split at h <;> rename_i hpc
  · cases h
    rename_i thread c
    cases thread with
    | true => exact .go (.cloneThread hpc)
    | false => exact .go (.cloneProcess hpc)
  · exact some.inj h ▸ .link hpc
  · exact some.inj h ▸ .insert hpc
  · exact some.inj h ▸ .start hpc
  · rename_i call
    cases h
    unfold scan
    split
    · rename_i c hc
      split
      · exact .go (.waitFound hpc hc)
      · exact .reap hpc hc
    · split
      · exact .go (.waitBlock hpc)
      · exact .go (.waitNone hpc)
  · obtain ⟨hfree, rfl⟩ := of_guard h
    exact .lock hpc hfree
  · split at h
    · rename_i hblock
      exact some.inj h ▸ .go (.waitPush hpc hblock)
    · exact some.inj h ▸ .unlock hpc
  · exact some.inj h ▸ .sleep hpc
  · exact some.inj h ▸ .go (.awake hpc)
  · cases h
    split
    · exact .go (.wait4Remove hpc)
    · exact .go (.wait4Fault hpc)
  · cases h
    split
    · exact .go (.waitidRemove hpc)
    · exact .go (.waitidEnd hpc)
  · split at h
    · rename_i hc
      exact some.inj h ▸ .reapId hpc hc
    · exact some.inj h ▸ .go (.waitidNone hpc)
  · exact some.inj h ▸ .go (.removeTable hpc rfl)
  · exact some.inj h ▸ .go (.removeQueues hpc)
  · exact some.inj h ▸ .removeTid hpc
  · exact some.inj h ▸ .go (.removed hpc)
  · exact some.inj h ▸ .dequeue hpc
  · exact some.inj h ▸ .leave hpc
  · cases h
    split
    · rename_i hinit
      exact .panic rfl hpc hinit
    · rename_i hother
      exact .zombify rfl hpc hother
  · cases h
    split
    · rename_i hlast
      exact .go (.last hpc hlast)
    · rename_i hlast
      exact .go (.notLast rfl hpc (eq_false_of_ne_true hlast))
  · exact some.inj h ▸ .take rfl hpc
  · obtain ⟨hfree, rfl⟩ := of_guard h
    exact .drain hpc hfree
  · exact some.inj h ▸ .go (.woken hpc)
  · exact some.inj h ▸ .wake hpc
  · cases h
    split
    · rename_i hnil
      subst hnil
      exact .go (.noOrphan hpc)
    · exact .go (.adopted hpc)
  · exact some.inj h ▸ .adopt hpc
  · exact some.inj h ▸ .extend rfl hpc
  · cases h

theorem move_of_act {cmd : ProcCmd τ} (h : s.act t cmd = some s') : s.Move t (.inl cmd) s' := by
  cases cmd with
  | clone thread =>
    obtain ⟨hpc, rfl⟩ := of_guard h
    exact .go (.clone thread hpc)
  | build child n =>
    simp only [act] at h
    split at h
    · rename_i hpc
      obtain ⟨⟨hchild, hn⟩, rfl⟩ := of_guard h
      exact .build rfl hpc hchild hn
    · cases h
  | fail =>
    simp only [act] at h
    split at h
    · rename_i hpc
      exact some.inj h ▸ .go (.cloneFail hpc)
    · rename_i hpc
      exact some.inj h ▸ .discard hpc
    · cases h
  | wait4 pid nohang | waitid idtype id nohang nowait =>
    obtain ⟨hpc, heq⟩ := ite_none_right_eq_some.mp h
    obtain ⟨f, -, rfl⟩ := map_eq_some_iff.mp heq
    exact .go (.wait _ hpc)
  | exit =>
    obtain ⟨hpc, rfl⟩ := of_guard h
    exact .go (.exit rfl hpc)
  | next ok => exact move_of_next h
  | preempt =>
    obtain ⟨-, rfl⟩ := of_guard h
    exact .sched (by simp [Run.waits])

theorem move_of_sched {cmd : SchedCmd} (h : s.sched t cmd = some s') : s.Move t (.inr cmd) s' := by
  cases cmd with
  | wake | commit => exact some.inj h ▸ .sched (by simp)
  | enqueue | fetch =>
    obtain ⟨-, rfl⟩ := of_guard h
    exact .sched (by simp [Run.waits])
  | drop =>
    obtain ⟨hdrop, rfl⟩ := of_guard h
    exact .drop hdrop

theorem move_of_step {cmd : ProcCmd τ ⊕ SchedCmd} (h : s.step t cmd = some s') : s.Move t cmd s' := by
  cases cmd with
  | inl cmd => exact move_of_act (ite_none_right_eq_some.mp h).2
  | inr cmd => exact move_of_sched (ite_none_right_eq_some.mp h).2

/-! ## Calls as lists of steps -/

/-- Task `t` goes on for `n` steps. -/
def nexts (t : τ) (n : Nat) : List (τ × (ProcCmd τ ⊕ SchedCmd)) := List.replicate n (t, .inl (.next true))

def fork (t child : τ) (tid : Nat) : List (τ × (ProcCmd τ ⊕ SchedCmd)) :=
  [(t, .inl (.clone false)), (t, .inl (.build child tid))] ++ nexts t 4 ++ [(child, .inr .fetch)]

def cloneThread (t child : τ) (tid : Nat) : List (τ × (ProcCmd τ ⊕ SchedCmd)) :=
  [(t, .inl (.clone true)), (t, .inl (.build child tid))] ++ nexts t 3 ++ [(child, .inr .fetch)]

end Processes

end ShellCore.Task
