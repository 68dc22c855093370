import ShellCore.Sched.Wakeup

/-!
# CPU affinity

Each task has a mask of the CPUs that it may use. `select_task_rq` and `steal_task` look at it. A task that yields
goes back to the queue of the CPU that it is on, and a task that could not be stolen goes back to the queue that it
came from, whatever the mask is by then.
-/

namespace ShellCore.Sched.Smp

open Function Relation Option List

variable {γ τ : Type}

/-! ## `select_task_rq` -/

structure RqSnapshot where
  runnableCount : Nat
  runnableWeight : Nat
  wakeReservations : Nat
  idleState : IdleState
  online : Bool

def usizeMax : Nat := 2 ^ 64 - 1

/-- `saturating_add` and `saturating_mul`. -/
def RqSnapshot.score (v : RqSnapshot) (taskWeight : Nat) : Nat :=
  min usizeMax (v.runnableWeight + min usizeMax (v.wakeReservations * taskWeight))

def RqSnapshot.idle (v : RqSnapshot) : Bool := v.idleState ≠ .running && v.runnableCount = 0

section

variable [DecidableEq γ] (cpus : List γ) (allowed : γ → Bool)

/-- `allowed_fallback`; `cpus` are all CPUs in their order. -/
def allowedFallback (fallback : γ) : γ := if allowed fallback then fallback else (cpus.find? allowed).getD fallback

/-- One look at the published states: the idle CPU with the least score, or else the busy one. The preferred CPU
wins a tie, then the first one. -/
def bestCpu (taskWeight : Nat) (preferred : γ) (view : γ → RqSnapshot) : Option γ :=
  let online := cpus.filter fun c => allowed c && (view c).online
  let key := fun c => toLex ((view c).score taskWeight, if c = preferred then 0 else 1)
  ((online.filter fun c => (view c).idle).argmin key).or ((online.filter fun c => !(view c).idle).argmin key)

/-- The loop of `select_task_rq`: in round `i` the states are `view i`, and the reservation succeeds if `won i`. -/
def selectLoop (best : Nat → Option γ) (won : Nat → Bool) (fallback : γ) : Nat → Nat → γ × Bool
  | 0, _ => (fallback, false)
  | retries + 1, i =>
    match best i with
    | none => (fallback, false)
    | some c => if won i then (c, true) else selectLoop best won fallback retries (i + 1)

/-- The CPU, and whether a wake-up is reserved there. -/
def selectTaskRq (onMainHart : Bool) (taskWeight : Nat) (source prefer : γ) (view : Nat → γ → RqSnapshot)
    (won : Nat → Bool) : γ × Bool :=
  let preferred := if allowed prefer then prefer else allowedFallback cpus allowed source
  let fallback := allowedFallback cpus allowed preferred
  if onMainHart || cpus.length ≤ 1 then (fallback, false)
  else
    selectLoop (fun i => bestCpu cpus allowed taskWeight preferred (view i)) won fallback (max (cpus.length * 2) 1) 0

variable {cpus allowed}

omit [DecidableEq γ] in
theorem allowed_fallback (h : ∃ c ∈ cpus, allowed c = true) (fallback : γ) :
    allowed (allowedFallback cpus allowed fallback) = true := by
  unfold allowedFallback
  split
  case isTrue hf => exact hf
  case isFalse =>
    obtain ⟨c, hc⟩ := isSome_iff_exists.1 (find?_isSome.2 h)
    rw [hc]
    exact find?_some hc

theorem allowed_bestCpu {taskWeight : Nat} {preferred c : γ} {view : γ → RqSnapshot}
    (h : bestCpu cpus allowed taskWeight preferred view = some c) : allowed c = true := by
  have hmem : c ∈ cpus.filter fun c => allowed c && (view c).online := by
    rcases or_eq_some_iff.1 h with h | ⟨-, h⟩
    · exact mem_of_mem_filter (argmin_mem h)
    · exact mem_of_mem_filter (argmin_mem h)
  exact (Bool.and_eq_true_iff.1 (mem_filter.1 hmem).2).1

omit [DecidableEq γ] in
theorem allowed_selectLoop {best : Nat → Option γ} {won : Nat → Bool} {fallback : γ} (hf : allowed fallback = true)
    (hbest : ∀ i c, best i = some c → allowed c = true) (retries i : Nat) :
    allowed (selectLoop best won fallback retries i).1 = true := by
  induction retries generalizing i with
  | zero => exact hf
  | succ retries ih =>
    rw [selectLoop]
    split
    · exact hf
    · rename_i c hc
      split
      · exact hbest i c hc
      · exact ih (i + 1)

/-- If the mask has a CPU, `select_task_rq` stays within the mask. -/
theorem allowed_selectTaskRq (h : ∃ c ∈ cpus, allowed c = true) (onMainHart : Bool) (taskWeight : Nat)
    (source prefer : γ) (view : Nat → γ → RqSnapshot) (won : Nat → Bool) :
    allowed (selectTaskRq cpus allowed onMainHart taskWeight source prefer view won).1 = true := by
  unfold selectTaskRq
  dsimp only
  split
  · exact allowed_fallback h _
  · exact allowed_selectLoop (allowed_fallback h _) (fun _ _ => allowed_bestCpu) _ _

end

/-! ## The tasks of a CPU after a step -/

namespace Pc

def stolen : Pc γ τ → Option τ
  | publish _ _ k | kick _ _ k => k.stolen
  | _ => none

/-- The task that is on its way to a queue, and the CPU of that queue. -/
def target : Pc γ τ → Option (τ × γ)
  | enqueue (.place d _) t _ _ | enqueue (.push d _) t _ _ => some (t, d)
  | _ => none

/-- The task for which a queue is looked for, or to which it is brought. -/
def enqueues : Pc γ τ → Option τ
  | enqueue _ t _ _ => some t
  | _ => none

variable {p : Pc γ τ} {t : τ} {d : γ}

theorem enqueues_of_target (h : p.target = some (t, d)) : p.enqueues = some t := by
  cases p with
  | enqueue stage u kind k =>
    cases stage with
    | select => cases h
    | place e r | push e r =>
      cases h
      rfl
  | _ => cases h

theorem holds_of_enqueues (h : p.enqueues = some t) : p.holds = some t := by
  cases p with
  | enqueue => exact h
  | _ => cases h

theorem holds_of_stolen (h : p.stolen = some t) : p.holds = some t := by
  cases p with
  | publish | kick => exact h
  | _ => cases h

end Pc

variable {k : Cont τ} {t : τ}

theorem Cont.runs_pc (h : (k.pc : Pc γ τ).runs = some t) : k.current = some t ∨ k.stolen = some t := by
  cases k with
  | loop | idle => cases h
  | task u => exact .inl h
  | run u => exact .inr h

@[simp] theorem Cont.stolen_pc : (k.pc : Pc γ τ).stolen = none := by
  cases k <;> rfl

@[simp] theorem Cont.target_pc : (k.pc : Pc γ τ).target = none := by
  cases k <;> rfl

namespace Scheduler

/-- Where the tasks of a step of CPU `c` come from. -/
structure Tracks (s s' : Scheduler γ τ) (c : γ) : Prop where
  queued : ∀ t d, t ∈ (s'.rq d).tasks → t ∈ (s.rq d).tasks ∨ (s.pc c).target = some (t, d)
  runs : ∀ t, (s'.pc c).runs = some t → (s.pc c).runs = some t ∨ t ∈ (s.rq c).tasks ∨ (s.pc c).stolen = some t
  stolen : ∀ t, (s'.pc c).stolen = some t → (s.pc c).stolen = some t ∨ s.pc c = .scan
  target : ∀ t e, (s'.pc c).target = some (t, e) → (s.pc c).target = some (t, e) ∨
    (∃ kind k, s.pc c = .enqueue .select t kind k) ∨ (s.pc c = .pooling t ∧ e = (s.task t).cpu)
  others : ∀ d, d ≠ c → s'.pc d = s.pc d

variable [DecidableEq γ] {w : τ → Nat} {s s' s₁ : Scheduler γ τ} {c d e : γ} {t : τ} {cmd : Cmd γ τ}
  {p : Pc γ τ}

omit [DecidableEq γ] in
/-- The CPU stays where it is, and so do the queues. -/
theorem tracks_same (hpc : s'.pc = s.pc) (hrq : s'.rq = s.rq) : Tracks s s' c where
  queued t d ht := .inl (hrq ▸ ht)
  runs t ht := .inl (hpc ▸ ht)
  stolen t ht := .inl (hpc ▸ ht)
  target t e ht := .inl (hpc ▸ ht)
  others d _ := by rw [hpc]

theorem tracks_goto (hpc : s₁.pc = s.pc)
    (hq : ∀ t d, t ∈ (s₁.rq d).tasks → t ∈ (s.rq d).tasks ∨ (s.pc c).target = some (t, d))
    (hr : ∀ t, p.runs = some t → (s.pc c).runs = some t ∨ t ∈ (s.rq c).tasks ∨ (s.pc c).stolen = some t)
    (hs : ∀ t, p.stolen = some t → (s.pc c).stolen = some t ∨ s.pc c = .scan)
    (ht : ∀ t e, p.target = some (t, e) → (s.pc c).target = some (t, e) ∨
      (∃ kind k, s.pc c = .enqueue .select t kind k) ∨ (s.pc c = .pooling t ∧ e = (s.task t).cpu)) :
    Tracks s (s₁.goto c p) c where
  queued := hq
  runs t h := by
    rw [goto_pc_self] at h
    exact hr t h
  stolen t h := by
    rw [goto_pc_self] at h
    exact hs t h
  target t e h := by
    rw [goto_pc_self] at h
    exact ht t e h
  others d hd := by rw [goto_pc_of_ne _ _ _ hd, hpc]

/-- The CPU goes on, and the tasks in its hands are those that it had. -/
theorem tracks_on (hpc : s₁.pc = s.pc) (hrq : s₁.rq = s.rq) (hr : p.runs = (s.pc c).runs) (hs : p.stolen = (s.pc c).stolen)
    (ht : p.target = (s.pc c).target) : Tracks s (s₁.goto c p) c :=
  tracks_goto hpc (fun _ _ h => .inl (hrq ▸ h)) (fun _ h => .inl (hr ▸ h)) (fun _ h => .inl (hs ▸ h)) (fun _ _ h => .inl (ht ▸ h))

/-- The caller goes on. -/
theorem tracks_caller (hpc : s₁.pc = s.pc) (hrq : s₁.rq = s.rq) (hr : (s.pc c).runs = k.current)
    (hs : (s.pc c).stolen = k.stolen) : Tracks s (s₁.goto c k.pc) c := by
  refine tracks_goto hpc (fun _ _ h => .inl (hrq ▸ h)) (fun t h => ?_) (fun t h => ?_) (fun t e h => ?_)
  · rw [hr, hs]
    exact (Cont.runs_pc h).imp_right .inr
  · cases Cont.stolen_pc.symm.trans h
  · cases Cont.target_pc.symm.trans h

theorem tracks_kick {stage : KickStage} (hpc : s.pc c = .kick stage d k) (h : s.kick c d k stage = some s') :
    Tracks s s' c := by
  obtain ⟨s₁, p, rfl, ⟨gate, ipi, view, rfl, -⟩, rfl | ⟨stage', rfl⟩⟩ := kick_signals h
  · refine tracks_caller rfl rfl ?_ ?_
    all_goals rw [hpc]; rfl
  · refine tracks_on rfl rfl ?_ ?_ ?_
    all_goals rw [hpc]; rfl

theorem tracks_idle {stage : IdleStage} (hpc : s.pc c = .idle stage) (h : s.idle c stage = some s') : Tracks s s' c := by
  obtain ⟨s₁, p, rfl, ⟨gate, ipi, view, rfl, -⟩, rfl | ⟨stage', rfl⟩⟩ := idle_signals h
  all_goals
    refine tracks_on rfl rfl ?_ ?_ ?_
    all_goals rw [hpc]; rfl

variable [DecidableEq τ]

omit [DecidableEq γ] in
theorem mem_of_mem_take {rq : Rqinner τ} {u : τ} (h : u ∈ (rq.take t).tasks) : u ∈ rq.tasks := mem_of_mem_erase h

theorem mem_setRq_take {u : τ} (h : u ∈ ((s.setRq d ((s.rq d).take t)).rq e).tasks) : u ∈ (s.rq e).tasks := by
  by_cases he : e = d
  · subst he
    rw [setRq_rq_self] at h
    exact mem_of_mem_take h
  · rwa [setRq_rq_of_ne _ _ _ he] at h

attribute [simp] Pc.target Pc.stolen

theorem Inv.tracks (h : s.Inv) (hm : Move w s c cmd s') : Tracks s s' c := by
  cases hm with
  | none hpc _ | giveUp hpc | dispatch hpc | start hpc | schedule hpc | resume hpc | startKick hpc =>
    refine tracks_on rfl rfl ?_ ?_ ?_
    all_goals rw [hpc]; rfl
  | own | interrupt | notify | stay => exact tracks_same rfl rfl
  | pop hpc ht =>
    refine tracks_goto rfl (fun _ _ hu => .inl (mem_setRq_take hu)) (fun u hu => ?_) (by simp) (by simp)
    cases hu
    exact .inr (.inl ht)
  | fetch hpc =>
    rw [h.fetchTask_eq hpc]
    refine tracks_on rfl rfl ?_ ?_ ?_
    all_goals rw [hpc]; rfl
  | @steal t source canMove hpc _ ht =>
    rw [h.stealTask_eq ht]
    cases canMove with
    | true =>
      refine tracks_goto rfl (fun _ _ hu => .inl (mem_setRq_take hu)) ?_ (fun _ _ => .inr hpc) (by simp)
      simp [Pc.runs, Cont.current]
    | false =>
      refine tracks_goto rfl (fun u e hu => .inl ?_) (by simp [Pc.runs]) (by simp) (by simp)
      rw [setTask_rq] at hu
      by_cases he : e = source
      · subst he
        rw [setRq_rq_self, Rqinner.insert, mem_append, mem_singleton] at hu
        rcases hu with hu | rfl
        · exact mem_of_mem_take hu
        · exact ht
      · rwa [setRq_rq_of_ne _ _ _ he] at hu
  | commit hpc =>
    obtain ⟨-, -, ⟨-, heq⟩ | ⟨-, -, p, rfl | rfl, heq⟩ | ⟨-, -, heq⟩ | ⟨-, heq⟩⟩ := h.commit_cases (w := w) hpc
    all_goals
      rw [heq]
      refine tracks_goto rfl (fun _ _ => .inl) ?_ ?_ ?_
      all_goals simp [Pc.runs, Cont.current, Cont.stolen]
  | pool hpc =>
    refine tracks_goto rfl (fun _ _ => .inl) (by simp [Pc.runs, Cont.current]) (by simp) (fun u e he => ?_)
    cases he
    exact .inr (.inr ⟨hpc, rfl⟩)
  | @choose t kind k target hpc | @reserve t kind k target hpc =>
    refine tracks_goto rfl (fun _ _ => .inl) (fun u hu => .inl (by rw [hpc]; exact hu)) (by simp) (fun u e he => ?_)
    cases he
    exact .inr (.inl ⟨kind, k, hpc⟩)
  | place hpc =>
    rw [h.place_eq hpc]
    refine tracks_on rfl rfl ?_ ?_ ?_
    all_goals rw [hpc]; rfl
  | @push t kind k target reserved hpc =>
    rw [h.push_eq hpc]
    refine tracks_goto rfl (fun u e hu => ?_) (fun u hu => .inl ?_) (fun u hu => ?_) (by simp)
    · by_cases he : e = target
      · subst he
        rw [setRq_rq_self, Rqinner.insert, mem_append, mem_singleton] at hu
        rcases hu with hu | rfl
        · exact .inl hu
        · exact .inr (by rw [hpc]; rfl)
      · rw [setRq_rq_of_ne _ _ _ he] at hu
        exact .inl hu
    · rw [hpc]
      exact hu
    · obtain ⟨-, -, -, hstolen, -⟩ := h.enqueue hpc
      rw [Pc.stolen, hstolen] at hu
      cases hu
  | publish hpc =>
    refine tracks_on (by simp) (by simp) ?_ ?_ ?_
    all_goals rw [hpc]; rfl
  | resumeCaller hpc _ =>
    refine tracks_caller rfl rfl ?_ ?_
    all_goals rw [hpc]; rfl
  | kick hpc hk => exact tracks_kick hpc hk
  | idle hpc hi => exact tracks_idle hpc hi
  | take hk _ =>
    obtain ⟨hr, -, -, -⟩ := caller_spec hk
    exact tracks_goto rfl (fun _ _ => .inl) (fun u hu => .inl (by rw [hr]; exact hu)) (by simp)
      (by simp)

theorem tracks_removal (hm : Removal w s c s') : Tracks s s' c := by
  obtain @⟨t, source, k, hk, -⟩ := hm
  obtain ⟨hr, -, hstolen, -⟩ := caller_spec hk
  refine tracks_goto rfl (fun u e hu => .inl (mem_setRq_take hu)) (fun u hu => .inl ?_) (fun u hu => ?_) (by simp)
  · rw [hr]
    exact hu
  · rw [Pc.stolen, hstolen] at hu
    cases hu

theorem Inv.tracks_step (h : s.Inv) (hstep : s.step w c cmd = some s') : s'.Inv ∧ Tracks s s' c := by
  rcases step_move hstep with hm | ⟨-, hm⟩
  · exact ⟨(h.move hm).inv, h.tracks hm⟩
  · exact ⟨h.remove hm, tracks_removal hm⟩

/-- Where a CPU is to be selected, nothing else happens. -/
theorem step_select {kind : Kind γ} (hpc : s.pc c = .enqueue .select t kind k) (h : s.step w c cmd = some s') :
    ∃ target reserved, cmd = .choose target reserved ∧ (s'.pc c).target = some (t, target) := by
  cases cmd with
  | choose target reserved =>
    refine ⟨target, reserved, rfl, ?_⟩
    simp only [step, chosen, hpc, some.injEq] at h
    rw [← h, goto_pc_self]
    rfl
  | _ => simp [step, next, chosen, hpc, caller] at h

theorem step_steal {canMove : Bool} (h : s.step w c (.steal d t canMove) = some s') :
    s.pc c = .scan ∧ t ∈ (s.rq d).tasks ∧ s' = s.stealTask w c d t canMove := by
  cases hpc : s.pc c with
  | scan =>
    simp only [step, chosen, hpc] at h
    obtain ⟨hcond, h⟩ := ite_none_right_eq_some.1 h
    exact ⟨rfl, hcond.2, (some.inj h).symm⟩
  | task => simp [step, chosen, act, hpc] at h
  | _ => simp [step, chosen, hpc] at h

theorem step_scan (hpc : s.pc c = .scan) (h : s.step w c cmd = some s') (ht : (s'.pc c).stolen = some t) :
    ∃ source, cmd = .steal source t true := by
  cases cmd with
  | next =>
    simp only [step, next, hpc, some.injEq] at h
    rw [← h, goto_pc_self] at ht
    cases ht
  | steal source u canMove =>
    obtain ⟨-, -, rfl⟩ := step_steal h
    simp only [stealTask] at ht
    split at ht
    · rw [goto_pc_self] at ht
      cases ht
    · cases canMove with
      | true =>
        simp only [if_true, goto_pc_self] at ht
        cases ht
        exact ⟨source, rfl⟩
      | false =>
        simp only [Bool.false_eq_true, if_false, goto_pc_self] at ht
        cases ht
  | _ => simp [step, chosen, hpc, caller] at h

end Scheduler

open Scheduler

/-! ## The masks -/

/-- The scheduler and the masks. `settled` says of a task that it has been put on a queue since its mask was set. -/
structure Affinity (γ τ : Type) where
  sched : Scheduler γ τ
  /-- `cpus_allowed`. -/
  allowed : τ → γ → Bool
  settled : τ → Bool

inductive AffinityCmd (γ τ : Type) where
  | sched (cmd : Cmd γ τ)
  /-- `select_task_rq` for the task that is to be enqueued. -/
  | select (onMainHart : Bool) (source prefer : γ) (view : Nat → γ → RqSnapshot) (won : Nat → Bool)
  /-- `steal_task`; `free` if the task is not bound to the main hart and `rt.migratable`. -/
  | steal (source : γ) (t : τ) (free : Bool)
  /-- `sched_setaffinity`, by the current task. -/
  | setaffinity (t : τ) (mask : γ → Bool)

variable {l : List (γ × AffinityCmd γ τ)}

namespace Affinity

variable [DecidableEq γ] [DecidableEq τ] (x : Affinity γ τ)

/-- A new task has the mask of its creator, if it has one. -/
def inherited (c : γ) (t : τ) : γ → Bool :=
  match x.sched.pc c with
  | .task u => x.allowed u
  | _ => x.allowed t

/-- The task that the next step of CPU `c` puts on a queue. -/
def pushed (c : γ) : Option τ :=
  match x.sched.pc c with
  | .enqueue (.push _ _) t _ _ => if (x.sched.task t).onRq || (x.sched.task t).state = .zombie then none else some t
  | _ => none

def settle : Option τ → τ → Bool
  | some t => update x.settled t true
  | none => x.settled

/-- One step of CPU `c`; `cpus` are all CPUs. -/
def step (w : τ → Nat) (cpus : List γ) (x : Affinity γ τ) (c : γ) : AffinityCmd γ τ → Option (Affinity γ τ)
  | .sched cmd =>
    match cmd with
    | .choose _ _ | .steal _ _ _ => none
    | .spawn t =>
      (x.sched.step w c cmd).map fun s =>
        ⟨s, update x.allowed t (x.inherited c t), update x.settled t false⟩
    | .next => (x.sched.step w c cmd).map fun s => { x with sched := s, settled := x.settle (x.pushed c) }
    | _ => (x.sched.step w c cmd).map fun s => { x with sched := s }
  | .select onMainHart source prefer view won =>
    match x.sched.pc c with
    | .enqueue .select t _ _ =>
      let selection := selectTaskRq cpus (x.allowed t) onMainHart (w t) source prefer view won
      (x.sched.step w c (.choose selection.1 selection.2)).map fun s => { x with sched := s }
    | _ => none
  | .steal source t free =>
    let canMove := free && x.allowed t c
    (x.sched.step w c (.steal source t canMove)).map fun s =>
      { x with sched := s, settled := x.settle (if canMove || (x.sched.task t).state = .zombie then none else some t) }
  | .setaffinity t mask =>
    match x.sched.pc c with
    | .task _ =>
      -- a mask without a CPU is refused
      if cpus.any mask then
        some { x with allowed := update x.allowed t mask, settled := update x.settled t false }
      else some x
    | _ => none

/-- The task is queued and run within its mask, once it has been queued under that mask. -/
structure Respected (x : Affinity γ τ) : Prop where
  queued : ∀ t c, x.settled t = true → t ∈ (x.sched.rq c).tasks → x.allowed t c = true
  runs : ∀ t c, x.settled t = true → (x.sched.pc c).runs = some t → x.allowed t c = true

/-- When a task is put back without a look at its mask, the mask has the CPU; and the mask is not set while
the task is on its way to a queue that has been chosen for it. -/
def Orderly (c : γ) : AffinityCmd γ τ → Prop
  | .sched .next => ∀ t, x.sched.pc c = .pooling t → x.allowed t (x.sched.task t).cpu = true
  | .steal source t free => (free && x.allowed t c) = false → x.allowed t source = true
  | .setaffinity t _ => ∀ d e, (x.sched.pc d).target ≠ some (t, e)
  | _ => True

def OrderlyStep (w : τ → Nat) (cpus : List γ) (x x' : Affinity γ τ) : Prop :=
  ∃ c cmd, x.Orderly c cmd ∧ x.step w cpus c cmd = some x'

structure Inv (cpus : List γ) (x : Affinity γ τ) : Prop where
  sched : x.sched.Inv
  mask : ∀ t, ∃ c ∈ cpus, x.allowed t c = true
  respected : x.Respected
  stolen : ∀ t c, x.settled t = true → (x.sched.pc c).stolen = some t → x.allowed t c = true
  target : ∀ t c d, (x.sched.pc c).target = some (t, d) → x.allowed t d = true

variable {w : τ → Nat} {cpus : List γ} {x x' : Affinity γ τ} {s' : Scheduler γ τ} {c : γ} {cmd : Cmd γ τ}
  (h : x.Inv cpus)

include h

/-- A step of the scheduler, under unchanged masks. -/
theorem Inv.follow (hstep : x.sched.step w c cmd = some s')
    (hpool : ∀ t, x.sched.pc c = .pooling t → x.allowed t (x.sched.task t).cpu = true)
    (hsteal : ∀ source t, cmd = .steal source t true → x.allowed t c = true)
    (hchoose : ∀ t kind k d r, x.sched.pc c = .enqueue .select t kind k → cmd = .choose d r → x.allowed t d = true) :
    Inv cpus { x with sched := s' } := by
  obtain ⟨hinv, htracks⟩ := h.sched.tracks_step hstep
  refine ⟨hinv, h.mask, ⟨fun t d hs ht => ?_, fun t d hs ht => ?_⟩, fun t d hs ht => ?_, fun t d e ht => ?_⟩
  · rcases htracks.queued t d ht with ht | ht
    · exact h.respected.queued t d hs ht
    · exact h.target t c d ht
  · by_cases hd : d = c
    · subst hd
      rcases htracks.runs t ht with ht | ht | ht
      · exact h.respected.runs t d hs ht
      · exact h.respected.queued t d hs ht
      · exact h.stolen t d hs ht
    · have ht' : (s'.pc d).runs = some t := ht
      rw [htracks.others d hd] at ht'
      exact h.respected.runs t d hs ht'
  · by_cases hd : d = c
    · subst hd
      rcases htracks.stolen t ht with ht' | hscan
      · exact h.stolen t d hs ht'
      · obtain ⟨source, rfl⟩ := step_scan hscan hstep ht
        exact hsteal source t rfl
    · have ht' : (s'.pc d).stolen = some t := ht
      rw [htracks.others d hd] at ht'
      exact h.stolen t d hs ht'
  · by_cases hd : d = c
    · subst hd
      rcases htracks.target t e ht with ht' | ⟨kind, k, hpc⟩ | ⟨hpc, rfl⟩
      · exact h.target t d e ht'
      · obtain ⟨target, r, rfl, htarget⟩ := step_select hpc hstep
        have ht' : (s'.pc d).target = some (t, e) := ht
        rw [htarget] at ht'
        obtain ⟨-, rfl⟩ := Prod.mk.inj (some.inj ht')
        exact hchoose t kind k target r hpc rfl
      · exact hpool t hpc
    · have ht' : (s'.pc d).target = some (t, e) := ht
      rw [htracks.others d hd] at ht'
      exact h.target t d e ht'

omit [DecidableEq γ] in
/-- A task that is queued within its mask is nowhere else. -/
theorem Inv.settled {d : γ} (hq : t ∈ (x.sched.rq d).tasks) (ha : x.allowed t d = true) :
    Inv cpus { x with settled := update x.settled t true } := by
  obtain ⟨hnone, huniq⟩ := (h.sched.task t).of_queued hq
  have hother : ∀ u, u ≠ t → update x.settled t true u = true → x.settled u = true := by
    intro u hu hs
    rwa [update_of_ne hu] at hs
  refine ⟨h.sched, h.mask, ⟨fun u e hs hu => ?_, fun u e hs hu => ?_⟩, fun u e hs hu => ?_, h.target⟩
  · by_cases hut : u = t
    · subst hut
      rw [huniq e hu]
      exact ha
    · exact h.respected.queued u e (hother u hut hs) hu
  · by_cases hut : u = t
    · subst hut
      exact absurd hu (hnone e).1
    · exact h.respected.runs u e (hother u hut hs) hu
  · by_cases hut : u = t
    · subst hut
      exact absurd (Pc.holds_of_stolen hu) (hnone e).2
    · exact h.stolen u e (hother u hut hs) hu

omit [DecidableEq γ] in
/-- A mask is set while the task is not on its way to a queue. -/
theorem Inv.setMask {mask : γ → Bool} (hmask : ∃ c ∈ cpus, mask c = true)
    (hno : ∀ d e, (x.sched.pc d).target ≠ some (t, e)) :
    Inv cpus { x with allowed := update x.allowed t mask, settled := update x.settled t false } := by
  have hother : ∀ u, update x.settled t false u = true → u ≠ t ∧ x.settled u = true := by
    exact fun u => forall_update_of_ne u nofun fun _ hut hs => ⟨hut, hs⟩
  refine ⟨h.sched, fun u => ?_, ⟨fun u e hs hu => ?_, fun u e hs hu => ?_⟩, fun u e hs hu => ?_, fun u d e hu => ?_⟩
  · by_cases hut : u = t
    · subst hut
      simpa using hmask
    · simpa [hut] using h.mask u
  · obtain ⟨hut, hs⟩ := hother u hs
    simpa [hut] using h.respected.queued u e hs hu
  · obtain ⟨hut, hs⟩ := hother u hs
    simpa [hut] using h.respected.runs u e hs hu
  · obtain ⟨hut, hs⟩ := hother u hs
    simpa [hut] using h.stolen u e hs hu
  · have hut : u ≠ t := by
      rintro rfl
      exact hno d e hu
    simpa [hut] using h.target u d e hu

theorem Inv.next (ho : x.Orderly c (.sched .next)) (hstep : x.step w cpus c (.sched .next) = some x') :
    x'.Inv cpus := by
  obtain ⟨s, hs, rfl⟩ := map_eq_some_iff.1 hstep
  have hf := h.follow hs ho (by simp) (by simp)
  cases hp : x.pushed c with
  | none => exact hf
  | some t =>
    -- the task is in the queue now
    obtain ⟨d, r, kind, k, hpc⟩ : ∃ d r kind k, x.sched.pc c = .enqueue (.push d r) t kind k := by
      unfold pushed at hp
      split at hp
      · rename_i d r u kind k hpc
        obtain ⟨-, ⟨⟩⟩ := ite_none_left_eq_some.1 hp
        exact ⟨d, r, kind, k, hpc⟩
      · cases hp
    have htarget := h.target t c d (by rw [hpc]; rfl)
    refine hf.settled (d := d) ?_ htarget
    have heq : x.sched.push w c d r t kind k = s := by simpa [Scheduler.step, Scheduler.next, hpc] using hs
    show t ∈ (s.rq d).tasks
    rw [← heq, h.sched.push_eq hpc]
    simp [Rqinner.insert]

omit h [DecidableEq γ] [DecidableEq τ] in
theorem inherited_eq (t : τ) : ∃ u, x.inherited c t = x.allowed u := by
  cases hpc : x.sched.pc c with
  | task u => exact ⟨u, by simp [inherited, hpc]⟩
  | _ => exact ⟨t, by simp [inherited, hpc]⟩

theorem Inv.spawn (hstep : x.step w cpus c (.sched (.spawn t)) = some x') : x'.Inv cpus := by
  obtain ⟨s, hs, rfl⟩ := map_eq_some_iff.1 hstep
  obtain ⟨k, hk, hnew⟩ : ∃ k, caller (x.sched.pc c) = some k ∧ x.sched.enqueueNewTask c t k = some s :=
    bind_eq_some_iff.1 (by simpa [Scheduler.step, Scheduler.chosen] using hs)
  have hf := h.follow hs (fun u hu => by rw [hu] at hk; cases hk) (by simp) (by simp)
  have hpc : s.pc c = .enqueue .select t .newRunnable k := by
    obtain ⟨-, rfl⟩ := of_guard hnew
    rw [goto_pc_self]
  have hheld : (s.pc c).holds = some t := by
    rw [hpc]
    rfl
  refine hf.setMask ?_ ?_
  · obtain ⟨u, hu⟩ := inherited_eq (x := x) (c := c) t
    rw [hu]
    exact h.mask u
  · intro d e ht
    -- nobody else has the task
    have hdc : d = c :=
      Place.held.inj ((hf.sched.task t).unique (.held d) (.held c) (Pc.holds_of_enqueues (Pc.enqueues_of_target ht)) hheld)
    subst hdc
    have ht' : (s.pc d).target = some (t, e) := ht
    rw [hpc] at ht'
    cases ht'

theorem Inv.steal {source : γ} {free : Bool} (ho : x.Orderly c (.steal source t free))
    (hstep : x.step w cpus c (.steal source t free) = some x') : x'.Inv cpus := by
  obtain ⟨s, hs, rfl⟩ := map_eq_some_iff.1 hstep
  obtain ⟨hscan, ht, rfl⟩ := step_steal hs
  have hf := h.follow hs (fun u hu => by rw [hscan] at hu; cases hu) (fun e u heq => ?_) (by simp)
  · have hready := ((h.sched.task t).fits (.queued source) ht).1
    cases hmove : free && x.allowed t c with
    | true => simpa [hmove, settle] using hf
    | false =>
      simp only [Bool.false_or, hready, decide_eq_true_eq, reduceCtorEq, if_false]
      rw [hmove] at hf
      refine hf.settled (d := source) ?_ (ho hmove)
      show t ∈ ((x.sched.stealTask w c source t false).rq source).tasks
      rw [h.sched.stealTask_eq ht]
      simp [Rqinner.insert]
  · obtain ⟨-, rfl, hmove⟩ := Cmd.steal.inj heq
    exact (Bool.and_eq_true_iff.1 hmove).2

theorem Inv.select {onMainHart : Bool} {source prefer : γ} {view : Nat → γ → RqSnapshot} {won : Nat → Bool}
    (hstep : x.step w cpus c (.select onMainHart source prefer view won) = some x') : x'.Inv cpus := by
  simp only [step] at hstep
  split at hstep
  · rename_i t kind k hpc
    obtain ⟨s, hs, rfl⟩ := map_eq_some_iff.1 hstep
    refine h.follow hs (fun u hu => by rw [hpc] at hu; cases hu) (by simp) ?_
    intro u kind' k' d r hpc' heq
    rw [hpc] at hpc'
    obtain ⟨-, rfl, -, -⟩ := Pc.enqueue.inj hpc'
    obtain ⟨rfl, -⟩ := Cmd.choose.inj heq
    exact allowed_selectTaskRq (h.mask t) ..
  · cases hstep

/-- The steps of the scheduler that neither place nor move a task. -/
theorem Inv.plain (hn : cmd ≠ .next) (hc : ∀ d r, cmd ≠ .choose d r) (hs : ∀ d t b, cmd ≠ .steal d t b)
    (hstep : x.sched.step w c cmd = some s') : Inv cpus { x with sched := s' } := by
  refine h.follow hstep (fun t hpc => ?_) (fun d t heq => absurd heq (hs d t true))
    (fun _ _ _ d r _ heq => absurd heq (hc d r))
  cases cmd <;> simp [Scheduler.step, Scheduler.chosen, hpc, caller] at hstep hn

theorem Inv.step {acmd : AffinityCmd γ τ} (ho : x.Orderly c acmd) (hstep : x.step w cpus c acmd = some x') :
    x'.Inv cpus := by
  cases acmd with
  | select => exact h.select hstep
  | steal => exact h.steal ho hstep
  | setaffinity t mask =>
    simp only [Affinity.step] at hstep
    split at hstep
    · split at hstep
      case isTrue hany =>
        cases hstep
        exact h.setMask (any_eq_true.1 hany) ho
      case isFalse =>
        cases hstep
        exact h
    · cases hstep
  | sched cmd =>
    cases cmd with
    | next => exact h.next ho hstep
    | spawn t => exact h.spawn hstep
    | choose | steal => cases hstep
    | pop | wake | remove | yield | block | cancel | exit | schedule | interrupt =>
      obtain ⟨s, hs, rfl⟩ := map_eq_some_iff.1 hstep
      exact h.plain (by simp) (by simp) (by simp) hs

/-- No task exists; the masks are those that the first tasks will have. -/
def init (home : γ) (mask : τ → γ → Bool) : Affinity γ τ := ⟨.init home, mask, fun _ => false⟩

omit h

omit [DecidableEq γ] [DecidableEq τ] in
theorem inv_init {home : γ} {mask : τ → γ → Bool} (h : ∀ t, ∃ c ∈ cpus, mask t c = true) : (init home mask).Inv cpus where
  sched := Scheduler.inv_init
  mask := h
  respected := by
    refine ⟨?_, ?_⟩
    · intro t c hs
      cases hs
    · intro t c hs
      cases hs
  stolen t c hs := by cases hs
  target t c d ht := by cases ht

def Step (w : τ → Nat) (cpus : List γ) (x x' : Affinity γ τ) : Prop := ∃ c cmd, x.step w cpus c cmd = some x'

/-- A checker of `Orderly`. -/
def orderly (cpus : List γ) (x : Affinity γ τ) (c : γ) : AffinityCmd γ τ → Bool
  | .sched .next =>
    match x.sched.pc c with
    | .pooling t => x.allowed t (x.sched.task t).cpu
    | _ => true
  | .steal source t free => (free && x.allowed t c) || x.allowed t source
  | .setaffinity t _ => cpus.all fun d => (x.sched.pc d).target.all fun p => p.1 != t
  | _ => true

omit [DecidableEq γ] in
theorem orderly_iff (hall : ∀ d, d ∈ cpus) {cmd : AffinityCmd γ τ} : x.orderly cpus c cmd = true ↔ x.Orderly c cmd := by
  cases cmd with
  | sched cmd =>
    cases cmd with
    | next =>
      simp only [orderly, Orderly]
      cases x.sched.pc c <;> simp
    | _ => simp [orderly, Orderly]
  | select => simp [orderly, Orderly]
  | steal source t free =>
    simp only [orderly, Orderly]
    cases free && x.allowed t c <;> simp
  | setaffinity t mask =>
    simp only [orderly, Orderly, List.all_eq_true, Option.all_eq_true, bne_iff_ne]
    constructor
    · intro h d e he
      exact h d (hall d) _ he rfl
    · rintro h d - ⟨u, e⟩ he rfl
      exact h d e he

def runOrderly (w : τ → Nat) (cpus : List γ) : Affinity γ τ → List (γ × AffinityCmd γ τ) → Option (Affinity γ τ) :=
  runGuarded (fun x c cmd => x.orderly cpus c cmd) (·.step w cpus)

theorem orderlySteps_of_runOrderly (hall : ∀ d, d ∈ cpus)
    (h : x.runOrderly w cpus l = some x') : ReflTransGen (OrderlyStep w cpus) x x' :=
  reaches_of_runGuarded (fun _ c cmd _ ho hk => ⟨c, cmd, (orderly_iff hall).1 ho, hk⟩) h

/-- CPU `c` takes `n` steps. -/
def nexts (c : γ) (n : Nat) : List (γ × AffinityCmd γ τ) := replicate n (c, .sched .next)

/-- `select_task_rq` on CPU `c`, from CPU `d`, with every view empty. -/
def selects (c d : γ) : γ × AffinityCmd γ τ := (c, .select true d d (fun _ _ => ⟨0, 0, 0, .running, true⟩) fun _ => true)

/-- A new task is put on the queue of CPU `c` and runs there. -/
def start (c : γ) (t : τ) : List (γ × AffinityCmd γ τ) :=
  [(c, .sched (.spawn t)), selects c c] ++ nexts c 5 ++ [(c, .sched (.pop t))] ++ nexts c 3

/-- The current task of CPU `c` yields and is put back on a queue. -/
def yields (c : γ) : List (γ × AffinityCmd γ τ) := [(c, .sched .yield), (c, .sched .schedule)] ++ nexts c 4

/-- A task that runs on CPU `c` sets its mask to `d` alone and yields. -/
def pinsAndYields (c d : γ) (t : τ) : List (γ × AffinityCmd γ τ) :=
  start c t ++ [(c, .setaffinity t fun e => e = d)] ++ yields c

/-- In an orderly run a task is queued and run within its mask from the first time that it is put on a queue under
that mask. -/
theorem affinity_respected {home : γ} {mask : τ → γ → Bool} (hmask : ∀ t, ∃ c ∈ cpus, mask t c = true)
    (h : ReflTransGen (OrderlyStep w cpus) (init home mask) x) : x.Respected :=
  (inv_of_reachable (I := Inv cpus) (inv_init hmask) (fun _ _ hi ⟨_, _, ho, hstep⟩ => hi.step ho hstep) h).respected

theorem affinity_respected_pinsAndYields : ∃ x : Affinity (Fin 3) (Fin 2),
    ReflTransGen (OrderlyStep (fun _ => 1024) (finRange 3)) (init 0 fun _ _ => true) x ∧
      x.settled 0 = true ∧ (x.sched.rq 0).tasks = [0] ∧ x.allowed 0 0 = true ∧ x.Respected := by
  obtain ⟨x, hrun, hset, hq⟩ : ∃ x, (init 0 fun _ _ => true : Affinity (Fin 3) (Fin 2)).runOrderly (fun _ => 1024) (finRange 3)
      (pinsAndYields 0 0 0) = some x ∧ x.settled 0 = true ∧ (x.sched.rq 0).tasks = [0] := exists_of_any (by decide +kernel)
  have hsteps := orderlySteps_of_runOrderly mem_finRange hrun
  have hresp := affinity_respected (fun _ => ⟨0, mem_finRange 0, rfl⟩) hsteps
  exact ⟨x, hsteps, hset, hq, hresp.queued 0 0 hset (by simp [hq]), hresp⟩

/-- The task is queued again, and CPU `c` runs it. -/
def runsAgain (c : γ) (t : τ) : List (γ × AffinityCmd γ τ) := nexts c 1 ++ [(c, .sched (.pop t))] ++ nexts c 3

/-- Task `u` waits on the queue of CPU `c` when its mask is set to `e` alone. CPU `d` then fails to steal it. -/
def pinnedThenKept (c d e : γ) (t u : τ) : List (γ × AffinityCmd γ τ) :=
  start c t ++ [(c, .sched (.spawn u)), selects c c] ++ nexts c 5 ++ [(c, .setaffinity u fun i => i = e)] ++ nexts d 1 ++
    [(d, .steal c u true)]

/-- CPU `e` wakes task `u` up and has chosen CPU `d` for it when its mask is set to `c` alone. -/
def pinnedOnTheWay (c d e : γ) (t u : τ) : List (γ × AffinityCmd γ τ) :=
  start c t ++ start d u ++ [(d, .sched .block), (d, .sched .schedule)] ++ nexts d 1 ++
    [(e, .sched (.wake u)), selects e d, (c, .setaffinity u fun i => i = c)] ++ nexts e 2

/-- A CPU runs, keeps or is given a task that its mask no longer allows. -/
theorem affinity_ignored :
    (∃ x : Affinity (Fin 3) (Fin 2), ReflTransGen (Step (fun _ => 1024) (finRange 3)) (init 0 fun _ _ => true) x ∧
      x.settled 0 = true ∧ (x.sched.pc 0).runs = some 0 ∧ x.allowed 0 0 = false) ∧
    (∃ x : Affinity (Fin 3) (Fin 2), ReflTransGen (Step (fun _ => 1024) (finRange 3)) (init 0 fun _ _ => true) x ∧
      x.settled 1 = true ∧ (x.sched.rq 0).tasks = [1] ∧ x.allowed 1 0 = false) ∧
    ∃ x : Affinity (Fin 3) (Fin 2), ReflTransGen (Step (fun _ => 1024) (finRange 3)) (init 0 fun _ _ => true) x ∧
      x.settled 1 = true ∧ (x.sched.rq 1).tasks = [1] ∧ x.allowed 1 1 = false := by
  refine ⟨?_, ?_, ?_⟩
  · exact exists_steps_of_any (pinsAndYields 0 1 0 ++ runsAgain 0 0) (by decide +kernel)
  · exact exists_steps_of_any (pinnedThenKept 0 1 2 0 1) (by decide +kernel)
  · exact exists_steps_of_any (pinnedOnTheWay 0 1 2 0 1) (by decide +kernel)

end Affinity

end ShellCore.Sched.Smp
