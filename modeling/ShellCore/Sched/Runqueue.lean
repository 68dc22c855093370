import ShellCore.Lib.Actors

/-!
# Run queues and the scheduler loop

Each CPU runs the scheduler loop, or the kernel code of its current task. Kernel code is not
preempted, so a CPU is one thread of control, and `Pc` says where it stands. A section under a task
lock or a run-queue lock is one step; so is every access to an atomic of a `RqView`, every acquisition
and release of an idle gate, and every interrupt request.

The schedule chooses what the code reads from elsewhere: which task a queue yields, which CPU
`select_task_rq` settles on, whether a task may move, what the running task does. `w` gives the
weights, which nothing changes after a task is created.
-/

namespace ShellCore.Sched.Smp

open Function

inductive TaskStatus where
  | unInit
  | ready
  | running
  | blocked
  | zombie
  | blockSaving
deriving DecidableEq

/-- What the scheduler reads and writes of a `TaskControlBlockInner`. -/
structure Task (γ : Type) where
  state : TaskStatus
  onRq : Bool
  cpu : γ
  wakePending : Bool
  wakeSourceCpu : Option γ
deriving DecidableEq

inductive IdleState where
  | running
  | idlePolling
  | idleWfi
deriving DecidableEq

/-- The published state of a run queue. -/
structure RqView where
  runnableCount : Nat := 0
  runnableWeight : Nat := 0
  wakeReservations : Nat := 0
  idleState : IdleState := .running
  ipiPending : Bool := false
deriving DecidableEq

/-- A run queue, its scheduling classes taken together. -/
structure Rqinner (τ : Type) where
  tasks : List τ := []
  nrRunning : Nat := 0
deriving DecidableEq

/-- An update of a published counter. -/
inductive ViewOp (γ : Type) where
  | addCount (cpu : γ)
  | addWeight (cpu : γ) (weight : Nat)
  | subCount (cpu : γ)
  | subWeight (cpu : γ) (weight : Nat)
  | consume (cpu : γ)
deriving DecidableEq

/-- Why a task is put on a queue: `is_new_runnable`, or `enqueue_resumed_task` with the old CPU, or
`add_task_into_pool`. -/
inductive Kind (γ : Type) where
  | newRunnable
  | resumed (oldCpu : γ)
  | pool
deriving DecidableEq

/-- What a CPU goes on with after a call. -/
inductive Cont (τ : Type) where
  /-- The top of the scheduler loop. -/
  | loop
  /-- The kernel code of the current task. -/
  | task (t : τ)
  /-- The stolen task is run. -/
  | run (t : τ)
  /-- Nothing was stolen. -/
  | idle
deriving DecidableEq

/-- `select_task_rq`, then the two sections of `enqueue_task_on_cpu`. -/
inductive EnqueueStage (γ : Type) where
  | select
  | place (target : γ) (reserved : Bool)
  | push (target : γ) (reserved : Bool)
deriving DecidableEq

/-- `mark_resched_and_kick`. The gate is held from `check` on. -/
inductive KickStage where
  | wait
  | check
  | swap
  | send
  | leave
deriving DecidableEq

/-- `scheduler_idle_prepare`, `scheduler_idle_arm`, the wait for an interrupt, and
`scheduler_idle_exit`. The gate is held from `armCheck` to `armLeave` and from `exitStore` to
`exitLeave`. -/
inductive IdleStage where
  | prepare
  | armWait
  | armCheck
  | armStore (empty : Bool)
  | armLeave (empty : Bool)
  | wfi
  | exitWait
  | exitStore
  | exitAck
  | exitClear
  | exitLeave
deriving DecidableEq

/-- Where a CPU stands. -/
inductive Pc (γ τ : Type) where
  /-- The top of the scheduler loop. -/
  | loop
  /-- `fetch_task` has popped `t` and released the queue. -/
  | fetched (t : τ)
  /-- The local queue was empty: `idle_tasks`. -/
  | scan
  /-- `next_task` is `t`; before `scheduler_cpu_running`. -/
  | dispatch (t : τ)
  /-- Before `t` is marked as running. -/
  | start (t : τ)
  /-- `t` is the current task and executes. -/
  | task (t : τ)
  /-- Back in the scheduler from `t`, which is no longer the current task. -/
  | switched (t : τ)
  /-- `enqueue_resumed_task`, before the old CPU is read. -/
  | resuming (t : τ)
  /-- `add_task_into_pool`, before the CPU is read. -/
  | pooling (t : τ)
  | enqueue (stage : EnqueueStage γ) (t : τ) (kind : Kind γ) (k : Cont τ)
  /-- Counters are to be updated, then a CPU is to be kicked. -/
  | publish (ops : List (ViewOp γ)) (kick : Option γ) (k : Cont τ)
  | kick (stage : KickStage) (target : γ) (k : Cont τ)
  | idle (stage : IdleStage)
deriving DecidableEq

structure Scheduler (γ τ : Type) where
  task : τ → Task γ
  rq : γ → Rqinner τ
  view : γ → RqView
  /-- The holder of `idle_ipi_gate`. -/
  gate : γ → Option γ
  /-- A scheduler interrupt has been requested and not been acknowledged. -/
  ipi : γ → Bool
  pc : γ → Pc γ τ

/-- What a CPU does next: go on, or make a choice that the code leaves open at this point. -/
inductive Cmd (γ τ : Type) where
  | next
  /-- `pop_next_task` in `fetch_task` yields `t`. -/
  | pop (t : τ)
  /-- `steal_task` on `source` pops `t`, which may move or not. -/
  | steal (source : γ) (t : τ) (canMove : Bool)
  /-- `select_task_rq` settles on `target`, with or without a reservation. -/
  | choose (target : γ) (reserved : Bool)
  /-- The task, or the scheduler loop, calls `wake_up_task`. -/
  | wake (t : τ)
  /-- A new task goes to `enqueue_new_task`. -/
  | spawn (t : τ)
  /-- `remove_task` on the queue of `source`, for a process that is removed. -/
  | remove (source : γ) (t : τ)
  /-- `suspend_current_and_run_next`, the block functions, a poll that finds a file ready after all,
  and the exit of the current task, each up to `schedule`. -/
  | yield
  | block
  | cancel
  | exit
  | schedule
  /-- The current task is interrupted in user mode by a scheduler interrupt. -/
  | interrupt
deriving DecidableEq

def addRunnable {γ : Type} (cpu : γ) (weight : Nat) : List (ViewOp γ) := [.addCount cpu, .addWeight cpu weight]

def removeRunnable {γ : Type} (cpu : γ) (weight : Nat) : List (ViewOp γ) := [.subCount cpu, .subWeight cpu weight]

/-- What is done with the reservation of a `CpuSelection`. -/
def settle {γ : Type} (target : γ) (reserved : Bool) : List (ViewOp γ) := if reserved then [.consume target] else []

/-- The updates after a successful enqueue. -/
def published {γ : Type} [DecidableEq γ] (target : γ) (reserved : Bool) (weight : Nat) : Kind γ → List (ViewOp γ)
  | .newRunnable => addRunnable target weight ++ settle target reserved
  | .resumed oldCpu =>
    settle target reserved ++
      if oldCpu = target then [] else removeRunnable oldCpu weight ++ addRunnable target weight
  | .pool => []

/-- Whether the target is kicked after a successful enqueue. -/
def kicked {γ : Type} (target : γ) : Kind γ → Option γ
  | .pool => none
  | _ => some target

namespace Cont

def pc {γ τ : Type} : Cont τ → Pc γ τ
  | loop => .loop
  | task t => .task t
  | run t => .dispatch t
  | idle => .idle .prepare

end Cont

namespace Rqinner

variable {τ : Type} [DecidableEq τ]

/-- The part of `enqueue_task` that changes the queue. -/
def insert (rq : Rqinner τ) (t : τ) : Rqinner τ := ⟨rq.tasks ++ [t], rq.nrRunning + 1⟩

/-- A task leaves the queue: `pop_next_task`, `remove_task`. -/
def take (rq : Rqinner τ) (t : τ) : Rqinner τ := ⟨rq.tasks.erase t, rq.nrRunning - 1⟩

end Rqinner

namespace Scheduler

/-- All queues are empty and no task exists. -/
def init {γ τ : Type} (home : γ) : Scheduler γ τ where
  task _ := ⟨.unInit, false, home, false, none⟩
  rq _ := {}
  view _ := {}
  gate _ := none
  ipi _ := false
  pc _ := .loop

/-! ## Updates of one field -/

section

variable {γ τ : Type} [DecidableEq γ] (s : Scheduler γ τ) (c : γ)

def goto (pc : Pc γ τ) : Scheduler γ τ := { s with pc := update s.pc c pc }

def setRq (rq : Rqinner τ) : Scheduler γ τ :=
  { s with rq := update s.rq c rq }

def setView (view : RqView) : Scheduler γ τ :=
  { s with view := update s.view c view }

def setGate (holder : Option γ) : Scheduler γ τ :=
  { s with gate := update s.gate c holder }

def setIpi (b : Bool) : Scheduler γ τ := { s with ipi := update s.ipi c b }

def storeIdleState (i : IdleState) : Scheduler γ τ :=
  s.setView c { s.view c with idleState := i }

/-- The atomic behind an update; subtraction saturates. -/
def apply : ViewOp γ → Scheduler γ τ
  | .addCount c => s.setView c { s.view c with runnableCount := (s.view c).runnableCount + 1 }
  | .addWeight c n => s.setView c { s.view c with runnableWeight := (s.view c).runnableWeight + n }
  | .subCount c => s.setView c { s.view c with runnableCount := (s.view c).runnableCount - 1 }
  | .subWeight c n => s.setView c { s.view c with runnableWeight := (s.view c).runnableWeight - n }
  | .consume c => s.setView c { s.view c with wakeReservations := (s.view c).wakeReservations - 1 }

variable (p : Pc γ τ)

include p

@[simp] theorem goto_task : (s.goto c p).task = s.task := rfl

@[simp] theorem goto_rq : (s.goto c p).rq = s.rq := rfl

@[simp] theorem goto_view : (s.goto c p).view = s.view := rfl

@[simp] theorem goto_gate : (s.goto c p).gate = s.gate := rfl

@[simp] theorem goto_ipi : (s.goto c p).ipi = s.ipi := rfl

@[simp] theorem goto_pc_self : (s.goto c p).pc c = p := update_self ..

@[simp] theorem goto_pc_of_ne {d : γ} (h : d ≠ c) : (s.goto c p).pc d = s.pc d :=
  update_of_ne h ..

omit p

variable (q : Rqinner τ)

include q

@[simp] theorem setRq_frame : (s.setRq c q).task = s.task ∧ (s.setRq c q).gate = s.gate ∧
    (s.setRq c q).ipi = s.ipi := ⟨rfl, rfl, rfl⟩

@[simp] theorem setRq_rq_self : (s.setRq c q).rq c = q := update_self ..

@[simp] theorem setRq_rq_of_ne {d : γ} (h : d ≠ c) : (s.setRq c q).rq d = s.rq d :=
  update_of_ne h ..

@[simp] theorem setRq_view : (s.setRq c q).view = s.view := rfl

@[simp] theorem setRq_pc : (s.setRq c q).pc = s.pc := rfl

omit q

@[simp] theorem setView_frame (v : RqView) : (s.setView c v).task = s.task ∧ (s.setView c v).rq = s.rq ∧
    (s.setView c v).gate = s.gate ∧ (s.setView c v).ipi = s.ipi ∧ (s.setView c v).pc = s.pc := ⟨rfl, rfl, rfl, rfl, rfl⟩

@[simp] theorem setView_view_self (v : RqView) : (s.setView c v).view c = v := update_self ..

@[simp] theorem setView_view_of_ne (v : RqView) {d : γ} (h : d ≠ c) : (s.setView c v).view d = s.view d :=
  update_of_ne h ..

@[simp] theorem setGate_frame (o : Option γ) : (s.setGate c o).task = s.task ∧ (s.setGate c o).rq = s.rq ∧
    (s.setGate c o).view = s.view ∧ (s.setGate c o).ipi = s.ipi ∧ (s.setGate c o).pc = s.pc := ⟨rfl, rfl, rfl, rfl, rfl⟩

@[simp] theorem setGate_gate_self (o : Option γ) : (s.setGate c o).gate c = o := update_self ..

@[simp] theorem setGate_gate_of_ne (o : Option γ) {d : γ} (h : d ≠ c) : (s.setGate c o).gate d = s.gate d :=
  update_of_ne h ..

@[simp] theorem setIpi_frame (b : Bool) : (s.setIpi c b).task = s.task ∧ (s.setIpi c b).rq = s.rq ∧
    (s.setIpi c b).gate = s.gate ∧ (s.setIpi c b).pc = s.pc := ⟨rfl, rfl, rfl, rfl⟩

@[simp] theorem setIpi_view (b : Bool) : (s.setIpi c b).view = s.view := rfl

@[simp] theorem setIpi_ipi_self (b : Bool) : (s.setIpi c b).ipi c = b := update_self ..

@[simp] theorem setIpi_ipi_of_ne (b : Bool) {d : γ} (h : d ≠ c) : (s.setIpi c b).ipi d = s.ipi d :=
  update_of_ne h ..

@[simp] theorem storeIdleState_frame (i : IdleState) : (s.storeIdleState c i).task = s.task ∧
    (s.storeIdleState c i).rq = s.rq ∧ (s.storeIdleState c i).gate = s.gate ∧ (s.storeIdleState c i).ipi = s.ipi ∧
    (s.storeIdleState c i).pc = s.pc := ⟨rfl, rfl, rfl, rfl, rfl⟩

@[simp] theorem apply_task (op : ViewOp γ) : (s.apply op).task = s.task := by cases op <;> rfl

@[simp] theorem apply_rq (op : ViewOp γ) : (s.apply op).rq = s.rq := by cases op <;> rfl

@[simp] theorem apply_frame (op : ViewOp γ) : (s.apply op).gate = s.gate ∧ (s.apply op).ipi = s.ipi ∧
    (s.apply op).pc = s.pc := by
  cases op <;> exact ⟨rfl, rfl, rfl⟩

end

section

variable {γ τ : Type} [DecidableEq τ]

def setTask (s : Scheduler γ τ) (t : τ) (x : Task γ) : Scheduler γ τ :=
  { s with task := update s.task t x }

variable (s : Scheduler γ τ) (t : τ) (x : Task γ)

include x

@[simp] theorem setTask_task_self : (s.setTask t x).task t = x := update_self ..

@[simp] theorem setTask_task_of_ne {u : τ} (h : u ≠ t) : (s.setTask t x).task u = s.task u :=
  update_of_ne h ..

@[simp] theorem setTask_rq : (s.setTask t x).rq = s.rq := rfl

@[simp] theorem setTask_view : (s.setTask t x).view = s.view := rfl

@[simp] theorem setTask_frame : (s.setTask t x).gate = s.gate ∧ (s.setTask t x).ipi = s.ipi ∧
    (s.setTask t x).pc = s.pc := ⟨rfl, rfl, rfl⟩

end

variable {γ τ : Type} [DecidableEq γ] [DecidableEq τ] (w : τ → Nat) (s : Scheduler γ τ) (c : γ) (t : τ)

/-- The section of `fetch_task` under the task's lock. -/
def fetchTask : Scheduler γ τ :=
  let x := { s.task t with onRq := false }
  if x.state = .zombie then (s.setTask t x).goto c (.publish (removeRunnable c (w t)) none .loop)
  else (s.setTask t { x with cpu := c, state := .running }).goto c (.dispatch t)

/-- `steal_task` under the lock of the source's queue, and what `steal_task_from_cpu` goes on with. -/
def stealTask (c source : γ) (t : τ) (canMove : Bool) : Scheduler γ τ :=
  let rq := (s.rq source).take t
  let x := { s.task t with onRq := false }
  if x.state = .zombie then
    ((s.setRq source rq).setTask t x).goto c (.publish (removeRunnable source (w t)) none .idle)
  else if canMove then
    ((s.setRq source rq).setTask t { x with cpu := c }).goto c
      (.publish (removeRunnable source (w t) ++ addRunnable c (w t)) (some c) (.run t))
  else ((s.setRq source (rq.insert t)).setTask t { x with onRq := true }).goto c (.idle .prepare)

/-- What the scheduler does under the lock of the task that has switched away. -/
def commit : Scheduler γ τ :=
  let x := s.task t
  match x.state with
  | .blockSaving =>
    if x.wakePending then
      (s.setTask t { x with state := .ready, wakePending := false, wakeSourceCpu := none }).goto c
        (if x.wakeSourceCpu.isSome then .resuming t else .pooling t)
    else
      (s.setTask t { x with state := .blocked, wakeSourceCpu := none }).goto c
        (.publish (removeRunnable x.cpu (w t)) none .loop)
  | .ready => s.goto c (.pooling t)
  | _ => s.goto c (.publish (removeRunnable x.cpu (w t)) none .loop)

/-- `enqueue_task_on_cpu` under the task's lock. -/
def place (target : γ) (reserved : Bool) (t : τ) (kind : Kind γ) (k : Cont τ) :
    Scheduler γ τ :=
  let x := s.task t
  if x.state = .zombie then
    (s.setTask t { x with onRq := false }).goto c (.publish (settle target reserved) none k)
  else (s.setTask t { x with cpu := target, state := .ready }).goto c (.enqueue (.push target reserved) t kind k)

/-- `enqueue_task` under the locks of the queue and of the task. -/
def push (target : γ) (reserved : Bool) (t : τ) (kind : Kind γ)
    (k : Cont τ) : Scheduler γ τ :=
  let x := s.task t
  if x.onRq then s.goto c (.publish (settle target reserved) none k)
  else if x.state = .zombie then
    (s.setTask t { x with onRq := false }).goto c (.publish (settle target reserved) none k)
  else
    ((s.setTask t { x with onRq := true }).setRq target ((s.rq target).insert t)).goto c
      (.publish (published target reserved (w t) kind) (kicked target kind) k)

def kick (s : Scheduler γ τ) (c : γ) (target : γ) (k : Cont τ) : KickStage → Option (Scheduler γ τ)
  | .wait =>
    if s.gate target = none then some ((s.setGate target (some c)).goto c (.kick .check target k)) else none
  | .check =>
    some (s.goto c (.kick (if (s.view target).idleState = .idleWfi then .swap else .leave) target k))
  | .swap =>
    some ((s.setView target { s.view target with ipiPending := true }).goto c
      (.kick (if (s.view target).ipiPending then .leave else .send) target k))
  | .send => some ((s.setIpi target true).goto c (.kick .leave target k))
  | .leave => some ((s.setGate target none).goto c k.pc)

def idle (s : Scheduler γ τ) (c : γ) : IdleStage → Option (Scheduler γ τ)
  | .prepare => some ((s.storeIdleState c .idlePolling).goto c (.idle .armWait))
  | .armWait => if s.gate c = none then some ((s.setGate c (some c)).goto c (.idle .armCheck)) else none
  | .armCheck => some (s.goto c (.idle (.armStore ((s.rq c).nrRunning == 0))))
  | .armStore empty =>
    some ((s.storeIdleState c (if empty then .idleWfi else .running)).goto c (.idle (.armLeave empty)))
  | .armLeave empty => some ((s.setGate c none).goto c (if empty then .idle .wfi else .loop))
  -- the wait may end without an interrupt
  | .wfi => some (s.goto c (.idle .exitWait))
  | .exitWait => if s.gate c = none then some ((s.setGate c (some c)).goto c (.idle .exitStore)) else none
  | .exitStore => some ((s.storeIdleState c .running).goto c (.idle .exitAck))
  | .exitAck => some ((s.setIpi c false).goto c (.idle .exitClear))
  | .exitClear => some ((s.setView c { s.view c with ipiPending := false }).goto c (.idle .exitLeave))
  | .exitLeave => some ((s.setGate c none).goto c .loop)

/-- The next step, where nothing is left open. -/
def next : Option (Scheduler γ τ) :=
  match s.pc c with
  | .loop => if (s.rq c).tasks = [] then some (s.goto c .scan) else none
  | .fetched t => some (s.fetchTask w c t)
  | .scan => some (s.goto c (.idle .prepare))
  | .dispatch t => some ((s.storeIdleState c .running).goto c (.start t))
  | .start t =>
    some ((s.setTask t { s.task t with cpu := c, onRq := false, state := .running }).goto c (.task t))
  | .task _ => none
  | .switched t => some (s.commit w c t)
  | .resuming t => some (s.goto c (.enqueue .select t (.resumed (s.task t).cpu) .loop))
  | .pooling t => some (s.goto c (.enqueue (.place (s.task t).cpu false) t .pool .loop))
  | .enqueue .select _ _ _ => none
  | .enqueue (.place target reserved) t kind k => some (s.place c target reserved t kind k)
  | .enqueue (.push target reserved) t kind k => some (s.push w c target reserved t kind k)
  | .publish (op :: ops) target k => some ((s.apply op).goto c (.publish ops target k))
  | .publish [] none k => some (s.goto c k.pc)
  | .publish [] (some target) k => some (s.goto c (if target = c then k.pc else .kick .wait target k))
  | .kick stage target k => s.kick c target k stage
  | .idle stage => s.idle c stage

/-- The context from which a CPU can call `wake_up_task` and the like. -/
def caller : Pc γ τ → Option (Cont τ)
  | .loop => some .loop
  | .task t => some (.task t)
  | _ => none

/-- `wake_up_task` under the task's lock. -/
def wakeUpTask (k : Cont τ) : Scheduler γ τ :=
  let x := s.task t
  match x.state with
  | .blocked => (s.setTask t { x with state := .ready }).goto c (.enqueue .select t .newRunnable k)
  | .blockSaving => s.setTask t { x with wakePending := true, wakeSourceCpu := some c }
  | _ => s

/-- `enqueue_new_task` of a task that has just been built. -/
def enqueueNewTask (k : Cont τ) : Option (Scheduler γ τ) :=
  if (s.task t).state = .unInit then
    some ((s.setTask t { s.task t with state := .ready }).goto c (.enqueue .select t .newRunnable k))
  else none

/-- One queue of `remove_task_from_all_local_queues_unlocked`. -/
def removeTask (c source : γ) (t : τ) (k : Cont τ) : Scheduler γ τ :=
  if t ∈ (s.rq source).tasks then
    ((s.setRq source ((s.rq source).take t)).setTask t { s.task t with onRq := false }).goto c
      (.publish (removeRunnable source (w t)) none k)
  else s

/-- What the current task does to its own state. -/
def act : Cmd γ τ → Option (Scheduler γ τ)
  | .yield => if (s.task t).state = .running then some (s.setTask t { s.task t with state := .ready }) else none
  | .block =>
    if (s.task t).state = .running then
      some (s.setTask t { s.task t with wakePending := false, wakeSourceCpu := none, state := .blockSaving })
    else none
  | .cancel =>
    if (s.task t).state = .blockSaving then
      some (s.setTask t { s.task t with state := .running, wakePending := false, wakeSourceCpu := none })
    else none
  | .exit => if (s.task t).state = .running then some (s.setTask t { s.task t with state := .zombie }) else none
  | .schedule => if (s.task t).state = .running then none else some (s.goto c (.switched t))
  | .interrupt => if (s.task t).state = .running then some (s.setIpi c false) else none
  | _ => none

/-- A choice of the schedule. -/
def chosen (cmd : Cmd γ τ) : Option (Scheduler γ τ) :=
  match cmd, s.pc c with
  | .pop t, .loop =>
    if t ∈ (s.rq c).tasks then some ((s.setRq c ((s.rq c).take t)).goto c (.fetched t)) else none
  | .steal source t canMove, .scan =>
    if source ≠ c ∧ t ∈ (s.rq source).tasks then some (s.stealTask w c source t canMove) else none
  | .choose target reserved, .enqueue .select t kind k =>
    let view := s.view target
    let s := if reserved then s.setView target { view with wakeReservations := view.wakeReservations + 1 } else s
    some (s.goto c (.enqueue (.place target reserved) t kind k))
  | .wake t, pc => (caller pc).map fun k => s.wakeUpTask c t k
  | .spawn t, pc => (caller pc).bind fun k => s.enqueueNewTask c t k
  | .remove source t, pc => (caller pc).map fun k => s.removeTask w c source t k
  | cmd, .task t => s.act c t cmd
  | _, _ => none

def step : Cmd γ τ → Option (Scheduler γ τ)
  | .next => s.next w c
  | cmd => s.chosen w c cmd

/-- Some CPU takes a step. -/
def Step (s s' : Scheduler γ τ) : Prop := ∃ c cmd, s.step w c cmd = some s'

def run (w : τ → Nat) : Scheduler γ τ → List (γ × Cmd γ τ) → Option (Scheduler γ τ) := runCalls (step w)

end Scheduler

end ShellCore.Sched.Smp
