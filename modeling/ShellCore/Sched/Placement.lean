import ShellCore.Sched.Moves

/-!
# Where a task is

A task that can run is in the hands of one CPU, which executes it or is about to put it somewhere, or
in one run queue; otherwise it is blocked. `Place` lists these places. `TaskOk` says that a task is in
at most one of them and that its record agrees with it, and every step keeps this.
-/

namespace ShellCore.Sched.Smp

open Function

variable {γ τ : Type}

namespace Cont

/-- The task that the caller executes. -/
def current : Cont τ → Option τ
  | task t => some t
  | _ => none

/-- The task that the caller has stolen. -/
def stolen : Cont τ → Option τ
  | run t => some t
  | _ => none

end Cont

/-- The records agree on what the invariant reads. -/
structure Task.SameAs (x y : Task γ) : Prop where
  state : x.state = y.state
  onRq : x.onRq = y.onRq
  cpu : x.cpu = y.cpu

namespace Pc

/-- The task that the CPU executes or is switching to or from. -/
def runs : Pc γ τ → Option τ
  | fetched t | dispatch t | start t | task t | switched t => some t
  | enqueue _ _ _ k | publish _ _ k | kick _ _ k => k.current
  | _ => none

/-- The task that the CPU has taken from somewhere and is about to put on a queue, or has stolen. -/
def holds : Pc γ τ → Option τ
  | resuming t | pooling t => some t
  | enqueue _ t _ _ => some t
  | publish _ _ k | kick _ _ k => k.stolen
  | _ => none

/-- The record of the task that CPU `c` runs. -/
def RunOk (c : γ) (x : Task γ) : Pc γ τ → Prop
  | fetched _ => x.state = .ready
  | dispatch _ | start _ => (x.state = .ready ∨ x.state = .running) ∧ x.onRq = false
  | switched _ => x.cpu = c ∧ x.onRq = false ∧ (x.state = .ready ∨ x.state = .blockSaving ∨ x.state = .zombie)
  | _ => x.cpu = c ∧ x.onRq = false ∧ x.state ≠ .blocked ∧ x.state ≠ .unInit

/-- What is known of the CPUs named in an enqueue on CPU `c`: a task that was running here goes back to
the queue of this CPU, or leaves it. -/
def KindOk (c : γ) (stage : EnqueueStage γ) : Kind γ → Prop
  | .newRunnable => True
  | .resumed oldCpu => oldCpu = c
  | .pool => stage = .place c false ∨ stage = .push c false

/-- The record of the task that CPU `c` holds. -/
def HeldOk (c : γ) (x : Task γ) : Pc γ τ → Prop
  | resuming _ | pooling _ => x.cpu = c ∧ x.onRq = false ∧ x.state = .ready
  | enqueue stage _ kind k => x.onRq = false ∧ x.state = .ready ∧ KindOk c stage kind ∧ k.stolen = none
  | _ => x.onRq = false ∧ x.state = .ready

variable {c : γ} {x : Task γ} {p : Pc γ τ}

theorem RunOk.not_blocked (h : p.RunOk c x) : x.state ≠ .blocked := by
  cases p <;> simp only [RunOk] at h <;> grind

theorem RunOk.not_unInit (h : p.RunOk c x) : x.state ≠ .unInit := by
  cases p <;> simp only [RunOk] at h <;> grind

theorem HeldOk.ready (h : p.HeldOk c x) : x.state = .ready := by
  cases p <;> simp only [HeldOk] at h <;> grind

theorem HeldOk.onRq (h : p.HeldOk c x) : x.onRq = false := by
  cases p <;> simp only [HeldOk] at h <;> grind

end Pc

theorem Task.SameAs.rfl {x : Task γ} : x.SameAs x := ⟨Eq.refl _, Eq.refl _, Eq.refl _⟩

variable {p : Pc γ τ}

theorem Task.SameAs.runOk {c : γ} {x y : Task γ} (h : x.SameAs y) : p.RunOk c x ↔ p.RunOk c y := by
  cases p <;> simp only [Pc.RunOk, h.state, h.onRq, h.cpu]

theorem Task.SameAs.heldOk {c : γ} {x y : Task γ} (h : x.SameAs y) : p.HeldOk c x ↔ p.HeldOk c y := by
  cases p <;> simp only [Pc.HeldOk, h.state, h.onRq, h.cpu]

inductive Place (γ : Type) where
  | running (c : γ)
  | held (c : γ)
  | queued (c : γ)
  | blocked
deriving DecidableEq

variable {s₁ : Scheduler γ τ}

namespace Scheduler

variable (s : Scheduler γ τ)

def At (t : τ) : Place γ → Prop
  | .running c => (s.pc c).runs = some t
  | .held c => (s.pc c).holds = some t
  | .queued c => t ∈ (s.rq c).tasks
  | .blocked => (s.task t).state = .blocked

/-- The task's record agrees with the place. -/
def Fits (t : τ) : Place γ → Prop
  | .running c => (s.pc c).RunOk c (s.task t)
  | .held c => (s.pc c).HeldOk c (s.task t)
  | .queued _ => (s.task t).state = .ready ∧ (s.task t).onRq = true
  | .blocked => (s.task t).onRq = false

structure TaskOk (s : Scheduler γ τ) (t : τ) : Prop where
  unique : ∀ p q, s.At t p → s.At t q → p = q
  fits : ∀ p, s.At t p → s.Fits t p
  fresh : (s.task t).state = .unInit → (s.task t).onRq = false

structure Inv (s : Scheduler γ τ) : Prop where
  task : ∀ t, s.TaskOk t
  nodup : ∀ c, (s.rq c).tasks.Nodup

/-- A task that exists and has not exited is somewhere. -/
def Placed (t : τ) : Prop :=
  (s.task t).state ≠ .unInit → (s.task t).state ≠ .zombie → ∃ p, s.At t p

/-- The step of CPU `c` from `s` to `s'` affects no task but `t`. -/
structure Others (s s' : Scheduler γ τ) (c : γ) (t : τ) : Prop where
  task : ∀ u, u ≠ t → s'.task u = s.task u
  pc : ∀ d, d ≠ c → s'.pc d = s.pc d
  runs : ∀ u, u ≠ t → ((s'.pc c).runs = some u ↔ (s.pc c).runs = some u)
  runOk : ∀ u, u ≠ t → (s'.pc c).runs = some u → (s.pc c).RunOk c (s.task u) → (s'.pc c).RunOk c (s.task u)
  old : ∀ u, u ≠ t → (s.pc c).holds ≠ some u
  new : ∀ u, u ≠ t → (s'.pc c).holds ≠ some u
  rq : ∀ u, u ≠ t → ∀ d, u ∈ (s'.rq d).tasks ↔ u ∈ (s.rq d).tasks

variable {s s' : Scheduler γ τ} {c d : γ} {t u : τ} (h : Others s s' c t)

include h

theorem Others.at_iff [DecidableEq γ] (hu : u ≠ t) (p : Place γ) : s'.At u p ↔ s.At u p := by
  cases p with
  | running d =>
    by_cases hd : d = c
    · subst hd
      exact h.runs u hu
    · simp only [At, h.pc d hd]
  | held d =>
    by_cases hd : d = c
    · subst hd
      exact iff_of_false (h.new u hu) (h.old u hu)
    · simp only [At, h.pc d hd]
  | queued d => exact h.rq u hu d
  | blocked => simp only [At, h.task u hu]

theorem Others.fits [DecidableEq γ] (hu : u ≠ t) {p : Place γ} (hp : s'.At u p) (hf : s.Fits u p) : s'.Fits u p := by
  cases p with
  | running d =>
    simp only [Fits, h.task u hu] at hf ⊢
    by_cases hd : d = c
    · subst hd
      exact h.runOk u hu hp hf
    · rwa [h.pc d hd]
  | held d =>
    by_cases hd : d = c
    · subst hd
      exact absurd hp (h.new u hu)
    · simp only [Fits, h.task u hu, h.pc d hd] at hf ⊢
      exact hf
  | queued d | blocked => simpa only [Fits, h.task u hu] using hf

theorem Others.taskOk [DecidableEq γ] (hu : u ≠ t) (hok : s.TaskOk u) : s'.TaskOk u where
  unique p q hp hq := hok.unique p q ((h.at_iff hu p).1 hp) ((h.at_iff hu q).1 hq)
  fits p hp := h.fits hu hp (hok.fits p ((h.at_iff hu p).1 hp))
  fresh hs := by
    rw [h.task u hu] at hs ⊢
    exact hok.fresh hs

theorem Others.placed [DecidableEq γ] (hu : u ≠ t) (hok : s.Placed u) : s'.Placed u := by
  intro h1 h2
  rw [h.task u hu] at h1 h2
  obtain ⟨p, hp⟩ := hok h1 h2
  exact ⟨p, (h.at_iff hu p).2 hp⟩

/-- Nothing but CPU `c` has `t`. -/
structure Alone (s : Scheduler γ τ) (c : γ) (t : τ) : Prop where
  runs : ∀ d, d ≠ c → (s.pc d).runs ≠ some t
  holds : ∀ d, d ≠ c → (s.pc d).holds ≠ some t
  rq : ∀ d, t ∉ (s.rq d).tasks

omit h

theorem TaskOk.alone_of_running (h : s.TaskOk t) (hr : (s.pc c).runs = some t) : s.Alone c t where
  runs d hd hp := hd (Place.running.inj (h.unique (.running d) (.running c) hp hr))
  holds d _ hp := nomatch h.unique (.held d) (.running c) hp hr
  rq d hp := nomatch h.unique (.queued d) (.running c) hp hr

theorem TaskOk.alone_of_held (h : s.TaskOk t) (hh : (s.pc c).holds = some t) : s.Alone c t where
  runs d _ hp := nomatch h.unique (.running d) (.held c) hp hh
  holds d hd hp := hd (Place.held.inj (h.unique (.held d) (.held c) hp hh))
  rq d hp := nomatch h.unique (.queued d) (.held c) hp hh

/-- A task that is blocked, or does not exist yet, is nowhere else. -/
theorem TaskOk.alone_of_state (h : s.TaskOk t) (hs : (s.task t).state = .blocked ∨ (s.task t).state = .unInit) :
    (∀ d, (s.pc d).runs ≠ some t ∧ (s.pc d).holds ≠ some t) ∧ s.Alone c t := by
  have hr : ∀ d, (s.pc d).runs ≠ some t := by
    intro d hp
    have hf := h.fits (.running d) hp
    exact hs.elim hf.not_blocked hf.not_unInit
  have hh : ∀ d, (s.pc d).holds ≠ some t := by
    intro d hp
    have hf := (h.fits (.held d) hp).ready
    rw [hf] at hs
    exact hs.elim nofun nofun
  refine ⟨fun d => ⟨hr d, hh d⟩, fun d _ => hr d, fun d _ => hh d, ?_⟩
  intro d hp
  have hf := (h.fits (.queued d) hp).1
  rw [hf] at hs
  exact hs.elim nofun nofun

/-- A queued task is in nobody's hands and in no other queue. -/
theorem TaskOk.of_queued (h : s.TaskOk t) (hq : t ∈ (s.rq c).tasks) :
    (∀ d, (s.pc d).runs ≠ some t ∧ (s.pc d).holds ≠ some t) ∧ ∀ d, t ∈ (s.rq d).tasks → d = c :=
  ⟨fun d => ⟨fun hp => (nomatch h.unique (.running d) (.queued c) hp hq),
    fun hp => (nomatch h.unique (.held d) (.queued c) hp hq)⟩,
    fun d hp => Place.queued.inj (h.unique (.queued d) (.queued c) hp hq)⟩

/-! ## Where the task of a step ends up -/

theorem taskOk_queued (hr : ∀ d, (s.pc d).runs ≠ some t) (hh : ∀ d, (s.pc d).holds ≠ some t)
    (hq : ∀ d, t ∈ (s.rq d).tasks ↔ d = c) (hs : (s.task t).state = .ready) (ho : (s.task t).onRq = true) :
    s.TaskOk t ∧ s.Placed t := by
  have hat : ∀ p, s.At t p → p = .queued c := by
    intro p hp
    cases p with
    | running d => exact absurd hp (hr d)
    | held d => exact absurd hp (hh d)
    | queued d => rw [(hq d).1 hp]
    | blocked => exact absurd (hs.symm.trans hp) (by decide)
  refine ⟨⟨fun p q hp hq => (hat p hp).trans (hat q hq).symm, fun p hp => ?_, fun hn => ?_⟩,
    fun _ _ => ⟨.queued c, (hq c).2 rfl⟩⟩
  · rw [hat p hp]
    exact ⟨hs, ho⟩
  · exact nomatch hs.symm.trans hn

theorem taskOk_absent (hr : ∀ d, (s.pc d).runs ≠ some t) (hh : ∀ d, (s.pc d).holds ≠ some t)
    (hq : ∀ d, t ∉ (s.rq d).tasks) (ho : (s.task t).onRq = false) : s.TaskOk t := by
  have hat : ∀ p, s.At t p → p = .blocked := by
    intro p hp
    cases p with
    | running d => exact absurd hp (hr d)
    | held d => exact absurd hp (hh d)
    | queued d => exact absurd hp (hq d)
    | blocked => rfl
  refine ⟨fun p q hp hq => (hat p hp).trans (hat q hq).symm, fun p hp => ?_, fun _ => ho⟩
  rw [hat p hp]
  exact ho

section Ends

variable [DecidableEq γ]

theorem Alone.taskOk_running (h : s.Alone c t) (hr : (s.pc c).runs = some t) (hh : (s.pc c).holds ≠ some t)
    (hok : (s.pc c).RunOk c (s.task t)) : s.TaskOk t ∧ s.Placed t := by
  have hat : ∀ p, s.At t p → p = .running c := by
    intro p hp
    cases p with
    | running d =>
      by_contra hd
      exact h.runs d (fun e => hd (e ▸ rfl)) hp
    | held d =>
      by_cases hd : d = c
      · exact absurd (hd ▸ hp) hh
      · exact absurd hp (h.holds d hd)
    | queued d => exact absurd hp (h.rq d)
    | blocked => exact absurd hp hok.not_blocked
  refine ⟨⟨fun p q hp hq => (hat p hp).trans (hat q hq).symm, fun p hp => ?_, fun hn => ?_⟩,
    fun _ _ => ⟨.running c, hr⟩⟩
  · rw [hat p hp]
    exact hok
  · exact absurd hn hok.not_unInit

theorem Alone.taskOk_held (h : s.Alone c t) (hr : (s.pc c).runs ≠ some t) (hh : (s.pc c).holds = some t)
    (hok : (s.pc c).HeldOk c (s.task t)) : s.TaskOk t ∧ s.Placed t := by
  have hat : ∀ p, s.At t p → p = .held c := by
    intro p hp
    cases p with
    | running d =>
      by_cases hd : d = c
      · exact absurd (hd ▸ hp) hr
      · exact absurd hp (h.runs d hd)
    | held d =>
      by_contra hd
      exact h.holds d (fun e => hd (e ▸ rfl)) hp
    | queued d => exact absurd hp (h.rq d)
    | blocked => exact absurd (hok.ready.symm.trans hp) (by decide)
  refine ⟨⟨fun p q hp hq => (hat p hp).trans (hat q hq).symm, fun p hp => ?_, fun hn => ?_⟩,
    fun _ _ => ⟨.held c, hh⟩⟩
  · rw [hat p hp]
    exact hok
  · exact nomatch hok.ready.symm.trans hn

end Ends

/-- What a step keeps: the invariant, and that no task is lost. -/
structure Kept (s s' : Scheduler γ τ) : Prop where
  inv : s'.Inv
  placed : ∀ t, s.Placed t → s'.Placed t

/-- The step of CPU `c` moves no task and changes no field of a record that the invariant reads. -/
structure Quiet (s s' : Scheduler γ τ) (c : γ) : Prop where
  task : ∀ u, (s'.task u).SameAs (s.task u)
  rq : ∀ d, (s'.rq d).tasks.Perm (s.rq d).tasks
  pc : ∀ d, d ≠ c → s'.pc d = s.pc d
  runs : (s'.pc c).runs = (s.pc c).runs
  holds : (s'.pc c).holds = (s.pc c).holds
  runOk : ∀ u, (s.pc c).runs = some u → (s.pc c).RunOk c (s.task u) → (s'.pc c).RunOk c (s.task u)
  heldOk : ∀ u, (s.pc c).holds = some u → (s.pc c).HeldOk c (s.task u) → (s'.pc c).HeldOk c (s.task u)

theorem Others.trans (h : Others s s₁ c t) (h' : Others s₁ s' c t) : Others s s' c t where
  task u hu := (h'.task u hu).trans (h.task u hu)
  pc d hd := (h'.pc d hd).trans (h.pc d hd)
  runs u hu := (h'.runs u hu).trans (h.runs u hu)
  runOk u hu hr hok := by
    have h1 := h.runOk u hu ((h'.runs u hu).1 hr) hok
    have h2 := h'.runOk u hu hr
    rw [h.task u hu] at h2
    exact h2 h1
  old := h.old
  new := h'.new
  rq u hu d := (h'.rq u hu d).trans (h.rq u hu d)

theorem Kept.trans (h : Kept s s₁) (h' : Kept s₁ s') : Kept s s' :=
  ⟨h'.inv, fun t ht => h'.placed t (h.placed t ht)⟩

section Rules

variable [DecidableEq γ]

theorem Inv.inv_of_others (h : s.Inv) (ho : Others s s' c t) (hn : ∀ d, (s'.rq d).tasks.Nodup)
    (ht : s'.TaskOk t) : s'.Inv := by
  refine ⟨fun u => ?_, hn⟩
  by_cases hu : u = t
  · exact hu ▸ ht
  · exact ho.taskOk hu (h.task u)

theorem Inv.of_others (h : s.Inv) (ho : Others s s' c t) (hn : ∀ d, (s'.rq d).tasks.Nodup)
    (ht : s'.TaskOk t ∧ s'.Placed t) : Kept s s' := by
  refine ⟨h.inv_of_others ho hn ht.1, fun u hu => ?_⟩
  by_cases hut : u = t
  · exact hut ▸ ht.2
  · exact ho.placed hut hu

theorem Quiet.at_iff (h : Quiet s s' c) (p : Place γ) : s'.At u p ↔ s.At u p := by
  cases p with
  | running d =>
    by_cases hd : d = c
    · subst hd
      simp only [At, h.runs]
    · simp only [At, h.pc d hd]
  | held d =>
    by_cases hd : d = c
    · subst hd
      simp only [At, h.holds]
    · simp only [At, h.pc d hd]
  | queued d => exact (h.rq d).mem_iff
  | blocked => simp only [At, (h.task u).state]

theorem Inv.of_quiet (h : s.Inv) (hq : Quiet s s' c) : Kept s s' := by
  refine ⟨⟨fun u => ⟨fun p q hp hp' => ?_, fun p hp => ?_, fun hn => ?_⟩, fun d => ?_⟩, fun u hu h1 h2 => ?_⟩
  · exact (h.task u).unique p q (hq.at_iff p |>.1 hp) (hq.at_iff q |>.1 hp')
  · have hold := hq.at_iff p |>.1 hp
    have hf := (h.task u).fits p hold
    cases p with
    | running d =>
      refine ((hq.task u).runOk).2 ?_
      by_cases hd : d = c
      · subst hd
        exact hq.runOk u hold hf
      · rw [hq.pc d hd]
        exact hf
    | held d =>
      refine ((hq.task u).heldOk).2 ?_
      by_cases hd : d = c
      · subst hd
        exact hq.heldOk u hold hf
      · rw [hq.pc d hd]
        exact hf
    | queued d => exact ⟨(hq.task u).state.trans hf.1, (hq.task u).onRq.trans hf.2⟩
    | blocked => exact (hq.task u).onRq.trans hf
  · exact (hq.task u).onRq.trans ((h.task u).fresh ((hq.task u).state.symm.trans hn))
  · exact (hq.rq d).nodup_iff.2 (h.nodup d)
  · rw [(hq.task u).state] at h1 h2
    obtain ⟨p, hp⟩ := hu h1 h2
    exact ⟨p, hq.at_iff p |>.2 hp⟩

theorem goto_self (h : s.pc c = p) : s.goto c p = s := by
  rw [goto, ← h, update_eq_self]

theorem others_setRq {q : Rqinner τ} (hq : ∀ u, u ≠ t → (u ∈ q.tasks ↔ u ∈ (s.rq d).tasks))
    (hold : ∀ u, u ≠ t → (s.pc c).holds ≠ some u) : Others s (s.setRq d q) c t where
  task _ _ := rfl
  pc _ _ := rfl
  runs _ _ := Iff.rfl
  runOk _ _ _ := id
  old := hold
  new := hold
  rq u hu e := by
    by_cases he : e = d
    · subst he
      simpa using hq u hu
    · simp [he]

theorem quiet_goto (ht : s₁.task = s.task) (hrq : s₁.rq = s.rq) (hpc : s₁.pc = s.pc)
    (hr : p.runs = (s.pc c).runs) (hh : p.holds = (s.pc c).holds)
    (hok : ∀ u, p.runs = some u → (s.pc c).RunOk c (s.task u) → p.RunOk c (s.task u))
    (hheld : ∀ u, p.holds = some u → (s.pc c).HeldOk c (s.task u) → p.HeldOk c (s.task u)) :
    Quiet s (s₁.goto c p) c where
  task u := by
    rw [goto_task, ht]
    exact .rfl
  rq d := by rw [goto_rq, hrq]
  pc d hd := by rw [goto_pc_of_ne _ _ _ hd, hpc]
  runs := by rw [goto_pc_self, hr]
  holds := by rw [goto_pc_self, hh]
  runOk u hu := by
    rw [goto_pc_self]
    exact hok u (hr.trans hu)
  heldOk u hu := by
    rw [goto_pc_self]
    exact hheld u (hh.trans hu)

variable [DecidableEq τ] {x : Task γ} {p : Pc γ τ}

omit [DecidableEq γ] in
theorem setTask_self : s.setTask t (s.task t) = s := by
  rw [setTask, update_eq_self]

/-- CPU `c` changes the record of `t` and goes on; all it ever has besides `t` is what it executes. -/
theorem others_goto (hr : ∀ u, u ≠ t → (p.runs = some u ↔ (s.pc c).runs = some u))
    (hok : ∀ u, u ≠ t → p.runs = some u → (s.pc c).RunOk c (s.task u) → p.RunOk c (s.task u))
    (hold : ∀ u, u ≠ t → (s.pc c).holds ≠ some u) (hnew : ∀ u, u ≠ t → p.holds ≠ some u) :
    Others s ((s.setTask t x).goto c p) c t where
  task u hu := update_of_ne hu _ _
  pc d hd := update_of_ne hd _ _
  runs u hu := by simpa using hr u hu
  runOk u hu := by simpa using hok u hu
  old := hold
  new u hu := by simpa using hnew u hu
  rq _ _ _ := Iff.rfl

/-- The same if it has nothing besides `t`. -/
theorem others_goto_only (hr : ∀ u, (s.pc c).runs = some u → u = t) (hr' : ∀ u, p.runs = some u → u = t)
    (hh : ∀ u, (s.pc c).holds = some u → u = t) (hh' : ∀ u, p.holds = some u → u = t) :
    Others s ((s.setTask t x).goto c p) c t :=
  others_goto (fun u hu => iff_of_false (fun e => hu (hr' u e)) (fun e => hu (hr u e)))
    (fun u hu e => absurd (hr' u e) hu) (fun u hu e => hu (hh u e)) (fun u hu e => hu (hh' u e))

section Ends

variable {s₁ : Scheduler γ τ}

theorem Alone.goto (h : s₁.Alone c t) : Alone ((s₁.setTask t x).goto c p) c t where
  runs d hd := by simpa [hd] using h.runs d hd
  holds d hd := by simpa [hd] using h.holds d hd
  rq := h.rq

theorem Inv.to_running (h : s.Inv) (hn : ∀ d, (s₁.rq d).tasks.Nodup) (ha : s₁.Alone c t)
    (ho : Others s ((s₁.setTask t x).goto c p) c t) (hr : p.runs = some t) (hh : p.holds ≠ some t)
    (hok : p.RunOk c x) : Kept s ((s₁.setTask t x).goto c p) := by
  refine h.of_others ho hn (ha.goto.taskOk_running ?_ ?_ ?_)
  · simpa using hr
  · simpa using hh
  · simpa using hok

theorem Inv.to_held (h : s.Inv) (hn : ∀ d, (s₁.rq d).tasks.Nodup) (ha : s₁.Alone c t)
    (ho : Others s ((s₁.setTask t x).goto c p) c t) (hr : p.runs ≠ some t) (hh : p.holds = some t)
    (hok : p.HeldOk c x) : Kept s ((s₁.setTask t x).goto c p) := by
  refine h.of_others ho hn (ha.goto.taskOk_held ?_ ?_ ?_)
  · simpa using hr
  · simpa using hh
  · simpa using hok

/-- The task is let go, as a blocked task or a zombie. -/
theorem Inv.to_nowhere (h : s.Inv) (hn : ∀ d, (s₁.rq d).tasks.Nodup) (ha : s₁.Alone c t)
    (ho : Others s ((s₁.setTask t x).goto c p) c t) (hr : p.runs ≠ some t) (hh : p.holds ≠ some t)
    (hx : x.state = .blocked ∨ x.state = .zombie) (honrq : x.onRq = false) : Kept s ((s₁.setTask t x).goto c p) := by
  have ha' : Alone ((s₁.setTask t x).goto c p) c t := ha.goto
  refine h.of_others ho hn ⟨taskOk_absent (fun d => ?_) (fun d => ?_) ha'.rq (by simpa using honrq),
    fun _ h2 => ⟨.blocked, ?_⟩⟩
  · by_cases hd : d = c
    · simpa [hd] using hr
    · exact ha'.runs d hd
  · by_cases hd : d = c
    · simpa [hd] using hh
    · exact ha'.holds d hd
  · have hz : x.state ≠ .zombie := by simpa using h2
    simpa [At] using hx.resolve_right hz

end Ends

/-- A task that is taken off its queue is in nobody's hands but those of the CPU that takes it. -/
theorem Inv.alone_take (h : s.Inv) (ht : t ∈ (s.rq d).tasks) :
    Alone (s.setRq d ((s.rq d).take t)) c t ∧ ∀ e, ((s.setRq d ((s.rq d).take t)).rq e).tasks.Nodup := by
  obtain ⟨hhand, hother⟩ := (h.task t).of_queued ht
  refine ⟨⟨fun e _ => (hhand e).1, fun e _ => (hhand e).2, fun e he => ?_⟩, fun e => ?_⟩
  · by_cases hed : e = d
    · subst hed
      rw [setRq_rq_self] at he
      exact (h.nodup e).not_mem_erase he
    · rw [setRq_rq_of_ne _ _ _ hed] at he
      exact hed (hother e he)
  · by_cases hed : e = d
    · subst hed
      rw [setRq_rq_self]
      exact (h.nodup e).erase t
    · rw [setRq_rq_of_ne _ _ _ hed]
      exact h.nodup e

theorem others_take (hh : ∀ u, (s.pc c).holds = some u → u = t) : Others s (s.setRq d ((s.rq d).take t)) c t :=
  others_setRq (fun _ hu => List.mem_erase_of_ne hu) (fun u hu e => hu (hh u e))

end Rules

end Scheduler

end ShellCore.Sched.Smp
