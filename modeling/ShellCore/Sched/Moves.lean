import ShellCore.Sched.Runqueue

/-!
# What a step of a CPU can do

`Move` lists the steps of the scheduler model, one constructor for each section of the source. Every
invariant is proved by cases on it.
-/

namespace ShellCore.Sched.Smp

open Option

/-- What the current task does to its own record. -/
inductive Own {γ τ : Type} (x : Task γ) : Cmd γ τ → Task γ → Prop where
  | yield (h : x.state = .running) : Own x .yield { x with state := .ready }
  | block (h : x.state = .running) :
    Own x .block { x with wakePending := false, wakeSourceCpu := none, state := .blockSaving }
  | cancel (h : x.state = .blockSaving) :
    Own x .cancel { x with state := .running, wakePending := false, wakeSourceCpu := none }
  | exit (h : x.state = .running) : Own x .exit { x with state := .zombie }

/-- All that a step of a CPU can do except for a removal, with the functions of the model left folded. -/
inductive Move {γ τ : Type} [DecidableEq γ] [DecidableEq τ] (w : τ → Nat) (s : Scheduler γ τ) (c : γ)
    (cmd : Cmd γ τ) : Scheduler γ τ → Prop where
  | none (h : s.pc c = .loop) (hq : (s.rq c).tasks = []) : Move w s c cmd (s.goto c .scan)
  | pop {t : τ} (h : s.pc c = .loop) (ht : t ∈ (s.rq c).tasks) :
    Move w s c cmd ((s.setRq c ((s.rq c).take t)).goto c (.fetched t))
  | fetch {t : τ} (h : s.pc c = .fetched t) : Move w s c cmd (s.fetchTask w c t)
  | giveUp (h : s.pc c = .scan) : Move w s c cmd (s.goto c (.idle .prepare))
  | steal {t : τ} {source : γ} {canMove : Bool} (h : s.pc c = .scan) (hs : source ≠ c)
    (ht : t ∈ (s.rq source).tasks) : Move w s c cmd (s.stealTask w c source t canMove)
  | dispatch {t : τ} (h : s.pc c = .dispatch t) : Move w s c cmd ((s.storeIdleState c .running).goto c (.start t))
  | start {t : τ} (h : s.pc c = .start t) :
    Move w s c cmd ((s.setTask t { s.task t with cpu := c, onRq := false, state := .running }).goto c (.task t))
  | own {t : τ} {x : Task γ} (h : s.pc c = .task t) (hx : Own (s.task t) cmd x) : Move w s c cmd (s.setTask t x)
  | schedule {t : τ} (h : s.pc c = .task t) (hs : (s.task t).state ≠ .running) : Move w s c cmd (s.goto c (.switched t))
  | interrupt {t : τ} (h : s.pc c = .task t) : Move w s c cmd (s.setIpi c false)
  | commit {t : τ} (h : s.pc c = .switched t) : Move w s c cmd (s.commit w c t)
  | resume {t : τ} (h : s.pc c = .resuming t) :
    Move w s c cmd (s.goto c (.enqueue .select t (.resumed (s.task t).cpu) .loop))
  | pool {t : τ} (h : s.pc c = .pooling t) :
    Move w s c cmd (s.goto c (.enqueue (.place (s.task t).cpu false) t .pool .loop))
  | choose {t : τ} {kind : Kind γ} {k : Cont τ} {target : γ} (h : s.pc c = .enqueue .select t kind k) :
    Move w s c cmd (s.goto c (.enqueue (.place target false) t kind k))
  | reserve {t : τ} {kind : Kind γ} {k : Cont τ} {target : γ} (h : s.pc c = .enqueue .select t kind k) :
    Move w s c cmd ((s.setView target { s.view target with
      wakeReservations := (s.view target).wakeReservations + 1 }).goto c (.enqueue (.place target true) t kind k))
  | place {t : τ} {kind : Kind γ} {k : Cont τ} {target : γ} {reserved : Bool}
    (h : s.pc c = .enqueue (.place target reserved) t kind k) : Move w s c cmd (s.place c target reserved t kind k)
  | push {t : τ} {kind : Kind γ} {k : Cont τ} {target : γ} {reserved : Bool}
    (h : s.pc c = .enqueue (.push target reserved) t kind k) : Move w s c cmd (s.push w c target reserved t kind k)
  | publish {op : ViewOp γ} {ops : List (ViewOp γ)} {target : Option γ} {k : Cont τ}
    (h : s.pc c = .publish (op :: ops) target k) : Move w s c cmd ((s.apply op).goto c (.publish ops target k))
  | resumeCaller {target : Option γ} {k : Cont τ} (h : s.pc c = .publish [] target k)
    (ht : ∀ d, target = some d → d = c) : Move w s c cmd (s.goto c k.pc)
  | startKick {target : γ} {k : Cont τ} (h : s.pc c = .publish [] (some target) k) (ht : target ≠ c) :
    Move w s c cmd (s.goto c (.kick .wait target k))
  | kick {stage : KickStage} {target : γ} {k : Cont τ} {s' : Scheduler γ τ} (h : s.pc c = .kick stage target k)
    (hk : s.kick c target k stage = some s') : Move w s c cmd s'
  | idle {stage : IdleStage} {s' : Scheduler γ τ} (h : s.pc c = .idle stage) (hi : s.idle c stage = some s') :
    Move w s c cmd s'
  /-- `wake_up_task` finds a blocked task, or a new task is enqueued. -/
  | take {t : τ} {k : Cont τ} (h : Scheduler.caller (s.pc c) = some k)
    (ht : (s.task t).state = .blocked ∨ (s.task t).state = .unInit) :
    Move w s c cmd ((s.setTask t { s.task t with state := .ready }).goto c (.enqueue .select t .newRunnable k))
  /-- `wake_up_task` finds a task that is about to block. -/
  | notify {t : τ} {k : Cont τ} (h : Scheduler.caller (s.pc c) = some k) (ht : (s.task t).state = .blockSaving) :
    Move w s c cmd (s.setTask t { s.task t with wakePending := true, wakeSourceCpu := some c })
  | stay : Move w s c cmd s

/-- `remove_task` finds the task. -/
inductive Removal {γ τ : Type} [DecidableEq γ] [DecidableEq τ] (w : τ → Nat) (s : Scheduler γ τ) (c : γ) :
    Scheduler γ τ → Prop where
  | remove {t : τ} {source : γ} {k : Cont τ} (h : Scheduler.caller (s.pc c) = some k)
    (ht : t ∈ (s.rq source).tasks) :
    Removal w s c (((s.setRq source ((s.rq source).take t)).setTask t { s.task t with onRq := false }).goto c
      (.publish (removeRunnable source (w t)) none k))

namespace Scheduler

variable {γ τ : Type} [DecidableEq γ] [DecidableEq τ] {w : τ → Nat} {s s' : Scheduler γ τ} {c : γ} {t : τ}

omit [DecidableEq γ] [DecidableEq τ] in
/-- The gates, the interrupts and the flags of the views may differ. -/
def Signals (s s₁ : Scheduler γ τ) : Prop :=
  ∃ gate ipi view, s₁ = { s with gate := gate, ipi := ipi, view := view } ∧
    ∀ d, ∃ i b, view d = { s.view d with idleState := i, ipiPending := b }

omit [DecidableEq γ] [DecidableEq τ] in
theorem signals_set {gate : γ → Option γ} {ipi : γ → Bool} : s.Signals { s with gate := gate, ipi := ipi } :=
  ⟨gate, ipi, s.view, rfl, fun _ => ⟨_, _, rfl⟩⟩

omit [DecidableEq τ] in
theorem signals_setView {i : IdleState} {b : Bool} :
    s.Signals (s.setView c { s.view c with idleState := i, ipiPending := b }) :=
  ⟨_, _, _, rfl, fun d => forall_update (motive := fun d v => ∃ i b, v = { s.view d with idleState := i, ipiPending := b }) d
    ⟨i, b, rfl⟩ fun _ => ⟨_, _, rfl⟩⟩

omit [DecidableEq τ] in
/-- Kicking a CPU is a matter of signals. -/
theorem kick_signals {target : γ} {k : Cont τ} {stage : KickStage} (h : s.kick c target k stage = some s') :
    ∃ s₁ p, s' = s₁.goto c p ∧ s.Signals s₁ ∧ (p = k.pc ∨ ∃ stage', p = .kick stage' target k) := by
  cases stage with
  | wait =>
    obtain ⟨_, rfl⟩ := of_guard h
    exact ⟨_, _, rfl, signals_set, .inr ⟨_, rfl⟩⟩
  | check | send =>
    cases h
    exact ⟨_, _, rfl, signals_set, .inr ⟨_, rfl⟩⟩
  | swap =>
    cases h
    exact ⟨_, _, rfl, signals_setView, .inr ⟨_, rfl⟩⟩
  | leave =>
    cases h
    exact ⟨_, _, rfl, signals_set, .inl rfl⟩

omit [DecidableEq τ] in
/-- So is waiting for an interrupt. -/
theorem idle_signals {stage : IdleStage} (h : s.idle c stage = some s') :
    ∃ s₁ p, s' = s₁.goto c p ∧ s.Signals s₁ ∧ (p = .loop ∨ ∃ stage', p = .idle stage') := by
  cases stage with
  | armWait | exitWait =>
    obtain ⟨_, rfl⟩ := of_guard h
    exact ⟨_, _, rfl, signals_set, .inr ⟨_, rfl⟩⟩
  | armCheck | wfi | exitAck =>
    cases h
    exact ⟨_, _, rfl, signals_set, .inr ⟨_, rfl⟩⟩
  | prepare | armStore | exitStore | exitClear =>
    cases h
    exact ⟨_, _, rfl, signals_setView, .inr ⟨_, rfl⟩⟩
  | armLeave empty =>
    cases h
    cases empty
    · exact ⟨_, _, rfl, signals_set, .inl rfl⟩
    · exact ⟨_, _, rfl, signals_set, .inr ⟨_, rfl⟩⟩
  | exitLeave =>
    cases h
    exact ⟨_, _, rfl, signals_set, .inl rfl⟩

theorem next_move {cmd : Cmd γ τ} (h : s.next w c = some s') : Move w s c cmd s' := by
  unfold next at h
  split at h
  case h_1 hpc =>
    split at h
    case isTrue hq => exact some.inj h ▸ .none hpc hq
    case isFalse => cases h
  case h_2 hpc => exact some.inj h ▸ .fetch hpc
  case h_3 hpc => exact some.inj h ▸ .giveUp hpc
  case h_4 hpc => exact some.inj h ▸ .dispatch hpc
  case h_5 hpc => exact some.inj h ▸ .start hpc
  case h_6 => cases h
  case h_7 hpc => exact some.inj h ▸ .commit hpc
  case h_8 hpc => exact some.inj h ▸ .resume hpc
  case h_9 hpc => exact some.inj h ▸ .pool hpc
  case h_10 => cases h
  case h_11 hpc => exact some.inj h ▸ .place hpc
  case h_12 hpc => exact some.inj h ▸ .push hpc
  case h_13 hpc => exact some.inj h ▸ .publish hpc
  case h_14 hpc => exact some.inj h ▸ .resumeCaller hpc nofun
  case h_15 target k hpc =>
    cases h
    by_cases ht : target = c
    · rw [if_pos ht]
      exact .resumeCaller hpc fun d hd => some.inj hd ▸ ht
    · rw [if_neg ht]
      exact .startKick hpc ht
  case h_16 hpc => exact .kick hpc h
  case h_17 hpc => exact .idle hpc h

theorem act_move {cmd : Cmd γ τ} (hpc : s.pc c = .task t) (h : s.act c t cmd = some s') : Move w s c cmd s' := by
  cases cmd with
  | yield =>
    obtain ⟨hs, rfl⟩ := of_guard h
    exact .own hpc (.yield hs)
  | block =>
    obtain ⟨hs, rfl⟩ := of_guard h
    exact .own hpc (.block hs)
  | cancel =>
    obtain ⟨hs, rfl⟩ := of_guard h
    exact .own hpc (.cancel hs)
  | exit =>
    obtain ⟨hs, rfl⟩ := of_guard h
    exact .own hpc (.exit hs)
  | schedule =>
    obtain ⟨hs, ⟨⟩⟩ := ite_none_left_eq_some.1 h
    exact .schedule hpc hs
  | interrupt =>
    obtain ⟨_, rfl⟩ := of_guard h
    exact .interrupt hpc
  | next | pop | steal | choose | wake | spawn | remove => cases h

theorem wakeUpTask_move {cmd : Cmd γ τ} {k : Cont τ} (hk : caller (s.pc c) = some k) : Move w s c cmd (s.wakeUpTask c t k) := by
  simp only [wakeUpTask]
  split
  case h_1 hs => exact .take hk (.inl hs)
  case h_2 hs => exact .notify hk hs
  case h_3 => exact .stay

theorem chosen_move {cmd : Cmd γ τ} (h : s.chosen w c cmd = some s') :
    Move w s c cmd s' ∨ (∃ source t, cmd = .remove source t) ∧ Removal w s c s' := by
  unfold chosen at h
  split at h
  case h_1 hpc =>
    split at h
    case isTrue ht => exact .inl (some.inj h ▸ .pop hpc ht)
    case isFalse => cases h
  case h_2 hpc =>
    split at h
    case isTrue ht => exact .inl (some.inj h ▸ .steal hpc ht.1 ht.2)
    case isFalse => cases h
  case h_3 _ reserved _ _ _ hpc =>
    cases h
    cases reserved with
    | true => exact .inl (.reserve hpc)
    | false => exact .inl (.choose hpc)
  case h_4 =>
    obtain ⟨k, hk, rfl⟩ := map_eq_some_iff.1 h
    exact .inl (wakeUpTask_move hk)
  case h_5 t =>
    obtain ⟨k, hk, hnew⟩ := bind_eq_some_iff.1 h
    unfold enqueueNewTask at hnew
    split at hnew
    case isTrue ht => exact .inl (some.inj hnew ▸ .take hk (.inr ht))
    case isFalse => cases hnew
  case h_6 source t =>
    obtain ⟨k, hk, rfl⟩ := map_eq_some_iff.1 h
    unfold removeTask
    split
    case isTrue ht => exact .inr ⟨⟨source, t, rfl⟩, .remove hk ht⟩
    case isFalse => exact .inl .stay
  case h_7 hpc => exact .inl (act_move hpc h)
  case h_8 => cases h

theorem step_move {cmd : Cmd γ τ} (h : s.step w c cmd = some s') :
    Move w s c cmd s' ∨ (∃ source t, cmd = .remove source t) ∧ Removal w s c s' := by
  unfold step at h
  split at h
  · exact .inl (next_move h)
  · exact chosen_move h

end Scheduler

end ShellCore.Sched.Smp
