import ShellCore.Sched.PlacementSteps

/-!
# Tasks keep their place and no wake-up is lost

Runs of the scheduler without removals of processes. In every state of a run a task that exists and has
not exited is in exactly one place. A task for which `wake_up_task` was called while it was blocked, or
about to block, is not blocked in any later state of the run, until it calls a block function again.
-/

namespace ShellCore.Sched.Smp

open Relation

/-- The task cannot become blocked without a further call of a block function. -/
structure Task.Awake {γ : Type} (x : Task γ) : Prop where
  state : x.state ≠ .blocked
  pending : x.state = .blockSaving → x.wakePending = true

namespace Scheduler

variable {γ τ : Type} {home : γ}

theorem inv_init : (init home : Scheduler γ τ).Inv where
  task _ := taskOk_absent (fun _ => nofun) (fun _ => nofun) (fun _ => nofun) rfl
  nodup _ := List.nodup_nil

theorem placed_init {t : τ} : (init home : Scheduler γ τ).Placed t := fun h => absurd rfl h

/-- A step changes the record of a task to one that is still awake. -/
theorem awake_setTask [DecidableEq τ] {s : Scheduler γ τ} {t u : τ} {x : Task γ} (h : t ≠ u → (s.task t).Awake)
    (hx : u = t → x.Awake) : ((s.setTask u x).task t).Awake := by
  by_cases hu : t = u
  · subst hu
    simpa using hx rfl
  · simpa [hu] using h hu

variable [DecidableEq γ] [DecidableEq τ]

/-- A step of a CPU that removes no process. -/
def Runs (w : τ → Nat) (s s' : Scheduler γ τ) : Prop :=
  ∃ c cmd, (∀ source t, cmd ≠ .remove source t) ∧ s.step w c cmd = some s'

/-- Such a step that is not a call of a block function by `t`. -/
def RunsOn (w : τ → Nat) (t : τ) (s s' : Scheduler γ τ) : Prop :=
  ∃ c cmd, (∀ source u, cmd ≠ .remove source u) ∧ ¬(cmd = .block ∧ s.pc c = .task t) ∧ s.step w c cmd = some s'

variable {w : τ → Nat} {s s' : Scheduler γ τ} {c : γ} {t : τ}

theorem Inv.runs (h : s.Inv) (hs : Runs w s s') : Kept s s' := by
  obtain ⟨c, cmd, hcmd, hstep⟩ := hs
  rcases step_move hstep with hm | ⟨⟨source, t, hr⟩, -⟩
  · exact h.move hm
  · exact absurd hr (hcmd source t)

/-- A schedule without removals is a run. -/
theorem runs_of_run {schedule : List (γ × Cmd γ τ)} (hc : ∀ e ∈ schedule, ∀ source t, e.2 ≠ .remove source t)
    (h : s.run w schedule = some s') : ReflTransGen (Runs w) s s' := by
  induction schedule generalizing s with
  | nil => exact Option.some.inj h ▸ .refl
  | cons e rest ih =>
    obtain ⟨s₁, hs, hrest⟩ := Option.bind_eq_some_iff.1 h
    exact .head ⟨e.1, e.2, hc e List.mem_cons_self, hs⟩ (ih (fun e' he' => hc e' (List.mem_cons_of_mem e he')) hrest)

/-- In every state of a run the tasks are in their places. -/
theorem placed_of_runs (h : ReflTransGen (Runs w) (init home) s) : s.Inv ∧ ∀ t, s.Placed t :=
  inv_of_reachable (I := fun s => s.Inv ∧ ∀ t, s.Placed t) ⟨inv_init, fun _ => placed_init⟩
    (fun _ _ hi hs => ⟨(hi.1.runs hs).inv, fun t => (hi.1.runs hs).placed t (hi.2 t)⟩) h

theorem Inv.awake_move (hi : s.Inv) {cmd : Cmd γ τ} (h : (s.task t).Awake) (hm : Move w s c cmd s')
    (hb : ¬(cmd = .block ∧ s.pc c = .task t)) : (s'.task t).Awake := by
  cases hm with
  | none | giveUp | dispatch | schedule | interrupt | resume | pool | choose | reserve | resumeCaller | startKick
  | stay | pop => exact h
  | publish => rwa [goto_task, apply_task]
  | kick _ hk =>
    obtain ⟨_, _, rfl, ⟨_, _, _, rfl, -⟩, -⟩ := kick_signals hk
    exact h
  | idle _ hk =>
    obtain ⟨_, _, rfl, ⟨_, _, _, rfl, -⟩, -⟩ := idle_signals hk
    exact h
  | fetch hpc =>
    rw [hi.fetchTask_eq hpc]
    exact awake_setTask (fun _ => h) fun _ => ⟨nofun, nofun⟩
  | @steal u d canMove hpc _ ht =>
    have hready := ((hi.task u).fits (.queued d) ht).1
    rw [hi.stealTask_eq ht]
    cases canMove with
    | true | false => exact awake_setTask (fun _ => h) fun _ => ⟨by simp [hready], by simp [hready]⟩
  | start | take => exact awake_setTask (fun _ => h) fun _ => ⟨nofun, nofun⟩
  | own hpc hx =>
    refine awake_setTask (fun _ => h) fun hu => ?_
    cases hx with
    | yield | cancel | exit => exact ⟨nofun, nofun⟩
    | block => exact absurd ⟨rfl, hu ▸ hpc⟩ hb
  | commit hpc =>
    obtain ⟨-, -, ⟨-, heq⟩ | ⟨-, -, p, -, heq⟩ | ⟨hs, hw, heq⟩ | ⟨-, heq⟩⟩ := hi.commit_cases (w := w) hpc
    · rw [heq]
      exact h
    · rw [heq]
      exact awake_setTask (fun _ => h) fun _ => ⟨nofun, nofun⟩
    · rw [heq]
      refine awake_setTask (fun _ => h) fun hu => ?_
      -- a pending wake-up would have been seen under the same lock
      rw [hu] at hs hw
      rw [h.pending hs] at hw
      cases hw
    · rw [heq]
      exact h
  | place hpc =>
    rw [hi.place_eq hpc]
    exact awake_setTask (fun _ => h) fun _ => ⟨nofun, nofun⟩
  | push hpc =>
    obtain ⟨-, hready, -⟩ := hi.enqueue hpc
    rw [hi.push_eq hpc]
    exact awake_setTask (fun _ => h) fun _ => ⟨by simp [hready], by simp [hready]⟩
  | notify _ hs => exact awake_setTask (fun _ => h) fun _ => ⟨by simp [hs], fun _ => rfl⟩

/-- What was woken stays awake along a run in which the task calls no block function. -/
theorem awake_of_runs (hi : s.Inv) (h : (s.task t).Awake) (hr : ReflTransGen (RunsOn w t) s s') :
    (s'.task t).Awake := by
  have hboth : s'.Inv ∧ (s'.task t).Awake := by
    induction hr with
    | refl => exact ⟨hi, h⟩
    | tail _ hlast ih =>
      obtain ⟨c, cmd, hcmd, hb, hstep⟩ := hlast
      rcases step_move hstep with hm | ⟨⟨source, u, hr⟩, -⟩
      · exact ⟨(ih.1.move hm).inv, ih.1.awake_move ih.2 hm hb⟩
      · exact absurd hr (hcmd source u)
  exact hboth.2

/-- `wake_up_task` on a task that is blocked or about to block. -/
theorem wake_spec (hs : (s.task t).state = .blocked ∨ (s.task t).state = .blockSaving)
    (hstep : s.step w c (.wake t) = some s') :
    (s'.task t).Awake ∧ ((s.task t).state = .blocked → s'.At t (.held c)) := by
  obtain ⟨k, -, rfl⟩ := Option.map_eq_some_iff.1 hstep
  rcases hs with hs | hs
  · simp only [wakeUpTask, hs]
    exact ⟨awake_setTask (absurd rfl) fun _ => ⟨by simp, by simp⟩, fun _ => by simp [At, Pc.holds]⟩
  · simp only [wakeUpTask, hs]
    exact ⟨awake_setTask (absurd rfl) fun _ => ⟨by simp, fun _ => rfl⟩, by simp⟩

/-- A task that switches away while it is awake and has not exited is ready after the switch. -/
theorem Inv.ready_of_commit (hi : s.Inv) (h : (s.task t).Awake) (hz : (s.task t).state ≠ .zombie)
    (hpc : s.pc c = .switched t) : ((s.commit w c t).task t).state = .ready := by
  obtain ⟨-, -, ⟨hs, heq⟩ | ⟨-, -, p, -, heq⟩ | ⟨hs, hw, -⟩ | ⟨hs, -⟩⟩ := hi.commit_cases (w := w) hpc
  · rw [heq]
    exact hs
  · rw [heq]
    simp
  · rw [h.pending hs] at hw
    cases hw
  · exact absurd hs hz

/-- What a run does to a task: it stays in one place, a wake-up is never lost, and what is taken to be
put on a queue gets there. -/
theorem placement_and_wakeups (h : ReflTransGen (Runs w) (init home) s) :
    (∀ t, (s.task t).state ≠ .unInit → (s.task t).state ≠ .zombie → ∃! p, s.At t p) ∧
    (∀ t c, t ∈ (s.rq c).tasks → (s.rq c).tasks.count t = 1 ∧ (s.task t).onRq = true) ∧
    (∀ t c s', (s.task t).state = .blocked ∨ (s.task t).state = .blockSaving → s.step w c (.wake t) = some s' →
      ((s.task t).state = .blocked → s'.At t (.held c)) ∧
        ∀ s'', ReflTransGen (RunsOn w t) s' s'' → (s''.task t).Awake) ∧
    (∀ t c, s.pc c = .switched t → (s.task t).Awake → (s.task t).state ≠ .zombie →
      ∃ s', s.step w c .next = some s' ∧ (s'.task t).state = .ready) ∧
    (∀ t c d reserved kind k, s.pc c = .enqueue (.place d reserved) t kind k →
      ∃ s', s.step w c .next = some s' ∧ s'.pc c = .enqueue (.push d reserved) t kind k) ∧
    ∀ t c d reserved kind k, s.pc c = .enqueue (.push d reserved) t kind k →
      ∃ s', s.step w c .next = some s' ∧ t ∈ (s'.rq d).tasks := by
  obtain ⟨hi, hp⟩ := placed_of_runs h
  refine ⟨fun t h1 h2 => ?_, fun t c ht => ?_, fun t c s' hs hstep => ?_, fun t c hpc ha hz => ?_,
    fun t c d reserved kind k hpc => ?_, fun t c d reserved kind k hpc => ?_⟩
  · obtain ⟨p, hat⟩ := hp t h1 h2
    exact ⟨p, hat, fun q hq => (hi.task t).unique q p hq hat⟩
  · exact ⟨List.count_eq_one_of_mem (hi.nodup c) ht, ((hi.task t).fits (.queued c) ht).2⟩
  · have hstep' : Runs w s s' := ⟨c, .wake t, nofun, hstep⟩
    obtain ⟨hawake, hheld⟩ := wake_spec hs hstep
    exact ⟨hheld, fun s'' hr => awake_of_runs (hi.runs hstep').inv hawake hr⟩
  · exact ⟨s.commit w c t, by simp [step, next, hpc], hi.ready_of_commit ha hz hpc⟩
  · refine ⟨s.place c d reserved t kind k, by simp [step, next, hpc], ?_⟩
    rw [hi.place_eq hpc, goto_pc_self]
  · refine ⟨s.push w c d reserved t kind k, by simp [step, next, hpc], ?_⟩
    rw [hi.push_eq hpc]
    simp [Rqinner.insert]

/-- The first task is created on CPU `c`, runs there and blocks. -/
def firstBlock (c : γ) (t : τ) : List (γ × Cmd γ τ) :=
  [(c, .spawn t), (c, .choose c false), (c, .next), (c, .next), (c, .next), (c, .next), (c, .next), (c, .pop t),
    (c, .next), (c, .next), (c, .next), (c, .block), (c, .schedule), (c, .next)]

theorem placement_and_wakeups_firstBlock : ∃ s : Scheduler (Fin 2) (Fin 1), (s.task 0).state = .blocked ∧
    (∃! p, s.At 0 p) ∧ ∃ s', s.step (fun _ => 1024) 1 (.wake 0) = some s' ∧ s'.At 0 (.held 1) := by
  obtain ⟨s, hrun, hstate, hpc⟩ : ∃ s, (init 0 : Scheduler (Fin 2) (Fin 1)).run (fun _ => 1024) (firstBlock 0 0) = some s ∧
      (s.task 0).state = .blocked ∧ s.pc 1 = .loop := exists_of_any (by decide +kernel)
  obtain ⟨huniq, -, hwake, -⟩ := placement_and_wakeups (runs_of_run (by decide) hrun)
  have hstep : s.step (fun _ => 1024) 1 (.wake 0) = some (s.wakeUpTask 1 0 .loop) := by simp [step, chosen, hpc, caller]
  exact ⟨s, hstate, huniq 0 (by simp [hstate]) (by simp [hstate]), _, hstep, (hwake 0 1 _ (.inl hstate) hstep).1 hstate⟩

end Scheduler

end ShellCore.Sched.Smp
