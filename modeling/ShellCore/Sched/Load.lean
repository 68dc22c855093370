import ShellCore.Sched.IdleGate

/-!
# The published load

Each CPU publishes how many tasks it has, how much they weigh, and how many wake-ups are on their way to
it. The counters are updated after the queue has been released, and a decrement saturates at zero. As
long as no decrement saturates, a counter is what the tasks of the CPU amount to, up to the updates that
are still to be made; `Pc.load` says what a CPU in the middle of an operation still owes to a counter.
-/

namespace ShellCore.Sched.Smp

open Relation List ViewOp

variable {γ τ : Type}

/-- A counter of a `RqView`. -/
inductive Counter where
  | count
  | weight
  | reservations
deriving DecidableEq

/-- What a task of a CPU adds to a counter of that CPU. -/
def Counter.amount (w : τ → Nat) : Counter → τ → ℤ
  | count, _ => 1
  | weight, t => w t
  | reservations, _ => 0

def RqView.get (v : RqView) : Counter → Nat
  | .count => v.runnableCount
  | .weight => v.runnableWeight
  | .reservations => v.wakeReservations

section

variable [DecidableEq γ]

/-- The change of counter `f` of CPU `c`, if it does not saturate. -/
def ViewOp.delta (f : Counter) (c : γ) : ViewOp γ → ℤ
  | addCount d => if f = .count ∧ d = c then 1 else 0
  | addWeight d n => if f = .weight ∧ d = c then n else 0
  | subCount d => if f = .count ∧ d = c then -1 else 0
  | subWeight d n => if f = .weight ∧ d = c then -n else 0
  | consume d => if f = .reservations ∧ d = c then -1 else 0

/-- What CPU `a` has in its hands that counts for CPU `c`. -/
def own (w : τ → Nat) (f : Counter) (c a : γ) (t : τ) : ℤ := if a = c then f.amount w t else 0

namespace Cont

def load (w : τ → Nat) (f : Counter) (c a : γ) : Cont τ → ℤ
  | task t | run t => own w f c a t
  | loop | idle => 0

end Cont

/-- The reservation that an enqueue holds. -/
def EnqueueStage.load (f : Counter) (c : γ) : EnqueueStage γ → ℤ
  | place d true | push d true => if f = .reservations ∧ d = c then 1 else 0
  | _ => 0

/-- A task that resumes or yields counts for its old CPU until it is on a queue; a new one does not count
before. -/
def Kind.load (w : τ → Nat) (f : Counter) (c a : γ) (t : τ) : Kind γ → ℤ
  | newRunnable => 0
  | resumed oldCpu => own w f c oldCpu t
  | pool => own w f c a t

/-- What CPU `a` adds to counter `f` of CPU `c`: its tasks, less the updates that it has still to make. -/
def Pc.load (w : τ → Nat) (f : Counter) (c a : γ) : Pc γ τ → ℤ
  | fetched t | dispatch t | start t | task t | switched t | resuming t | pooling t => own w f c a t
  | enqueue stage t kind k => stage.load f c + kind.load w f c a t + k.load w f c a
  | publish ops _ k => k.load w f c a - (ops.map (delta f c)).sum
  | kick _ _ k => k.load w f c a
  | loop | scan | idle _ => 0

/-- The CPU is in no scheduler operation. -/
def Pc.Resting : Pc γ τ → Prop
  | loop | scan | task _ | idle _ => True
  | _ => False

/-- The task that the CPU executes. -/
def Pc.current : Pc γ τ → Option τ
  | task t => some t
  | _ => none

end

def Rqinner.load (w : τ → Nat) (f : Counter) (rq : Rqinner τ) : ℤ := (rq.tasks.map (f.amount w)).sum

variable {k : Cont τ} {rq : Rqinner τ}

namespace Scheduler

section

variable [DecidableEq γ] [Fintype γ] (w : τ → Nat) (f : Counter) (s : Scheduler γ τ) (c : γ)

/-- Counter `f` of CPU `c` is right, up to what is under way. -/
def Balanced : Prop := (((s.view c).get f : Nat) : ℤ) = (s.rq c).load w f + ∑ a, (s.pc a).load w f c a

variable {w f s c} {s₁ : Scheduler γ τ} {a : γ} {p : Pc γ τ}

theorem Balanced.goto (h : s.Balanced w f c) (hpc : s₁.pc = s.pc)
    (hd : (((s₁.view c).get f : Nat) : ℤ) - ((s.view c).get f : Nat) =
      (s₁.rq c).load w f - (s.rq c).load w f + (p.load w f c a - (s.pc a).load w f c a)) :
    (s₁.goto a p).Balanced w f c := by
  have hsum : ∑ x, ((s₁.goto a p).pc x).load w f c x + (s.pc a).load w f c a =
      ∑ x, (s.pc x).load w f c x + p.load w f c a := by
    rw [← hpc]
    exact sum_actors_update fun (q : Pc γ τ) x => q.load w f c x
  unfold Balanced at h ⊢
  rw [goto_view, goto_rq]
  omega

/-- A step that changes neither counters nor queues, nor what the CPU owes. -/
theorem Balanced.goto_same (h : s.Balanced w f c) (hpc : s₁.pc = s.pc) (hview : s₁.view = s.view)
    (hrq : s₁.rq = s.rq) (hp : p.load w f c a = (s.pc a).load w f c a) : (s₁.goto a p).Balanced w f c := by
  refine h.goto hpc ?_
  rw [hview, hrq, hp]
  omega

/-- Signals do not touch the counters. -/
theorem Balanced.signals (h : s.Balanced w f c) (hs : s.Signals s₁) (hp : p.load w f c a = (s.pc a).load w f c a) :
    (s₁.goto a p).Balanced w f c := by
  obtain ⟨gate, ipi, view, rfl, hview⟩ := hs
  obtain ⟨i, b, hc⟩ := hview c
  refine h.goto rfl ?_
  dsimp only
  rw [hp, show (view c).get f = (s.view c).get f by rw [hc]; cases f <;> rfl]
  omega

end

/-! ## What the updates amount to -/

section

variable [DecidableEq γ] {w : τ → Nat} {f : Counter} {s : Scheduler γ τ} {c d : γ} {t : τ}

theorem sum_addRunnable : ((addRunnable d (w t)).map (delta f c)).sum = own w f c d t := by
  cases f <;> by_cases hd : d = c <;> simp [addRunnable, delta, own, Counter.amount, hd]

theorem sum_removeRunnable : ((removeRunnable d (w t)).map (delta f c)).sum = -own w f c d t := by
  cases f <;> by_cases hd : d = c <;> simp [removeRunnable, delta, own, Counter.amount, hd]

theorem sum_settle {reserved : Bool} :
    ((settle d reserved).map (delta f c)).sum = -(EnqueueStage.push d reserved).load f c := by
  cases reserved with
  | true =>
    simp only [settle, if_true, map_cons, map_nil, sum_cons, sum_nil, delta, EnqueueStage.load]
    split <;> rfl
  | false => rfl

attribute [simp] Pc.load EnqueueStage.load

theorem sum_published {reserved : Bool} {kind : Kind γ} {a : γ}
    (hk : Pc.KindOk a (EnqueueStage.push d reserved) kind) :
    ((published d reserved (w t) kind).map (delta f c)).sum =
      own w f c d t - (EnqueueStage.push d reserved).load f c - kind.load w f c a t := by
  cases kind with
  | newRunnable =>
    simp only [published, map_append, sum_append, sum_addRunnable, sum_settle, Kind.load]
    omega
  | resumed oldCpu =>
    simp only [published, map_append, sum_append, sum_settle, Kind.load]
    by_cases ho : oldCpu = d
    · subst ho
      simp only [if_true, map_nil, sum_nil]
      omega
    · simp only [if_neg ho, map_append, sum_append, sum_addRunnable, sum_removeRunnable]
      omega
  | pool =>
    obtain ⟨rfl, rfl⟩ : d = a ∧ reserved = false := by simpa [Pc.KindOk] using hk
    simp [published, Kind.load]

theorem load_setRq_insert : ((s.setRq d ((s.rq d).insert t)).rq c).load w f = (s.rq c).load w f + own w f c d t := by
  by_cases hc : c = d
  · subst hc
    simp [Rqinner.load, Rqinner.insert, own]
  · simp [hc, own, Ne.symm hc]

theorem load_setRq_take [DecidableEq τ] (ht : t ∈ (s.rq d).tasks) :
    ((s.setRq d ((s.rq d).take t)).rq c).load w f = (s.rq c).load w f - own w f c d t := by
  by_cases hc : c = d
  · subst hc
    have hsum := sum_map_erase (f.amount w) ht
    simp only [setRq_rq_self, Rqinner.load, Rqinner.take, own, if_true]
    omega
  · simp [hc, own, Ne.symm hc]

theorem load_setRq_back [DecidableEq τ] (ht : t ∈ (s.rq d).tasks) :
    ((s.setRq d (((s.rq d).take t).insert t)).rq c).load w f = (s.rq c).load w f := by
  by_cases hc : c = d
  · subst hc
    have hsum := sum_map_erase (f.amount w) ht
    simp only [setRq_rq_self, Rqinner.load, Rqinner.take, Rqinner.insert, map_append, map_cons, map_nil,
      sum_append, sum_cons, sum_nil]
    omega
  · simp [hc]

theorem load_pc {a : γ} : (k.pc : Pc γ τ).load w f c a = k.load w f c a := by
  cases k <;> rfl

theorem load_caller {p : Pc γ τ} {a : γ} (h : caller p = some k) : p.load w f c a = k.load w f c a := by
  cases p <;> simp only [caller, Option.some.injEq, reduceCtorEq] at h <;> subst h <;> rfl

/-- What an update takes away is there. -/
def Covered (s : Scheduler γ τ) : ViewOp γ → Prop
  | .subCount d => 1 ≤ (s.view d).runnableCount
  | .subWeight d n => n ≤ (s.view d).runnableWeight
  | .consume d => 1 ≤ (s.view d).wakeReservations
  | _ => True

theorem get_apply {op : ViewOp γ} (h : s.Covered op) :
    ((((s.apply op).view c).get f : Nat) : ℤ) = ((s.view c).get f : Nat) + op.delta f c := by
  cases op with
  | addCount d | addWeight d n | subCount d | subWeight d n | consume d =>
    by_cases hc : c = d
    · subst hc
      simp only [Covered] at h
      cases f <;> simp [apply, RqView.get, delta] <;> omega
    · cases f <;> simp [apply, RqView.get, delta, hc, Ne.symm hc]

end

/-! ## The steps -/

section

variable [DecidableEq γ] [Fintype γ] {w : τ → Nat} {f : Counter} {s s' : Scheduler γ τ} {a c : γ}
  (h : s.Balanced w f c)

include h

theorem Balanced.kick {stage : KickStage} {d : γ} (hpc : s.pc a = .kick stage d k)
    (hk : s.kick a d k stage = some s') : s'.Balanced w f c := by
  obtain ⟨s₁, p, rfl, hs, rfl | ⟨stage', rfl⟩⟩ := kick_signals hk
  · exact h.signals hs (by rw [load_pc, hpc]; rfl)
  · exact h.signals hs (by rw [hpc]; rfl)

theorem Balanced.idle {stage : IdleStage} (hpc : s.pc a = .idle stage)
    (hi : s.idle a stage = some s') : s'.Balanced w f c := by
  obtain ⟨s₁, p, rfl, hs, rfl | ⟨stage', rfl⟩⟩ := idle_signals hi <;> exact h.signals hs (by rw [hpc]; rfl)

variable [DecidableEq τ]

/-- Every step keeps the balance of a counter, as long as the update that it makes is covered. -/
theorem Balanced.move (hi : s.Inv) {cmd : Cmd γ τ} (hm : Move w s a cmd s')
    (hc : ∀ op ops target k, s.pc a = .publish (op :: ops) target k → s.Covered op) : s'.Balanced w f c := by
  cases hm with
  | none hpc _ | giveUp hpc | start hpc | schedule hpc _ => exact h.goto_same rfl rfl rfl (by rw [hpc]; rfl)
  | pop hpc ht =>
    refine h.goto rfl ?_
    rw [load_setRq_take ht, hpc]
    simp
  | fetch hpc =>
    rw [hi.fetchTask_eq hpc]
    exact h.goto_same rfl rfl rfl (by rw [hpc]; rfl)
  | @steal t source canMove hpc _ ht =>
    rw [hi.stealTask_eq ht]
    cases canMove with
    | true =>
      refine h.goto rfl ?_
      rw [setTask_rq, load_setRq_take ht, hpc]
      simp only [Pc.load, map_append, sum_append, sum_removeRunnable, sum_addRunnable, Cont.load, setTask_view,
        setRq_view]
      omega
    | false =>
      refine h.goto rfl ?_
      rw [setTask_rq, load_setRq_back ht, hpc]
      simp
  | dispatch hpc => exact h.signals signals_setView (by rw [hpc]; rfl)
  | own hpc _ =>
    rw [← goto_self (s := s.setTask _ _) (c := a) hpc]
    exact h.goto_same rfl rfl rfl (by rw [hpc])
  | interrupt hpc =>
    rw [← goto_self (s := s.setIpi _ _) (c := a) hpc]
    exact h.goto_same rfl rfl rfl (by rw [hpc])
  | commit hpc =>
    obtain ⟨-, -, ⟨-, heq⟩ | ⟨-, -, p, hp, heq⟩ | ⟨-, -, heq⟩ | ⟨-, heq⟩⟩ := hi.commit_cases (w := w) hpc
    · rw [heq]
      exact h.goto_same rfl rfl rfl (by rw [hpc]; rfl)
    · rw [heq]
      refine h.goto_same rfl rfl rfl ?_
      rcases hp with rfl | rfl <;> rw [hpc] <;> rfl
    all_goals
      rw [heq]
      refine h.goto_same rfl rfl rfl ?_
      rw [hpc]
      simp [Cont.load, sum_removeRunnable]
  | @resume t hpc =>
    have hcpu : (s.task t).cpu = a := by
      have hok := (hi.task t).fits (.held a) (show (s.pc a).holds = some t by rw [hpc]; rfl)
      simp only [Fits, hpc] at hok
      exact hok.1
    refine h.goto_same rfl rfl rfl ?_
    rw [hpc]
    simp [Kind.load, Cont.load, hcpu]
  | pool hpc | choose hpc =>
    refine h.goto_same rfl rfl rfl ?_
    rw [hpc]
    simp [Kind.load, Cont.load]
  | @reserve t kind k target hpc =>
    refine h.goto rfl ?_
    rw [hpc]
    by_cases ht : c = target
    · subst ht
      cases f <;> simp [RqView.get]
    · cases f <;> simp [RqView.get, ht, Ne.symm ht]
  | @place t kind k target reserved hpc =>
    rw [hi.place_eq hpc]
    refine h.goto_same rfl rfl rfl ?_
    rw [hpc]
    cases reserved <;> rfl
  | @push t kind k target reserved hpc =>
    obtain ⟨-, -, hkind, -⟩ := hi.enqueue hpc
    rw [hi.push_eq hpc]
    refine h.goto rfl ?_
    rw [show (((s.setTask t _).setRq target ((s.rq target).insert t)).rq c) =
      (s.setRq target ((s.rq target).insert t)).rq c from rfl, load_setRq_insert, hpc]
    simp only [Pc.load, sum_published hkind, setRq_view, setTask_view]
    omega
  | @publish op ops target k hpc =>
    refine h.goto (by simp) ?_
    rw [get_apply (hc op ops target k hpc), apply_rq, hpc]
    simp only [Pc.load, map_cons, sum_cons]
    omega
  | resumeCaller hpc _ =>
    refine h.goto_same rfl rfl rfl ?_
    rw [load_pc, hpc]
    simp
  | startKick hpc _ =>
    refine h.goto_same rfl rfl rfl ?_
    rw [hpc]
    simp
  | kick hpc hk => exact h.kick hpc hk
  | idle hpc hk => exact h.idle hpc hk
  | take hk _ =>
    refine h.goto_same rfl rfl rfl ?_
    rw [load_caller hk]
    simp [Kind.load]
  | notify hk _ =>
    rw [← goto_self (s := s.setTask _ _) (c := a) rfl]
    exact h.goto_same rfl rfl rfl rfl
  | stay => exact h

theorem Balanced.remove (hm : Removal w s a s') : s'.Balanced w f c := by
  obtain @⟨t, source, k, hk, ht⟩ := hm
  refine h.goto rfl ?_
  rw [setTask_rq, load_setRq_take ht, load_caller hk]
  simp only [Pc.load, sum_removeRunnable, setTask_view, setRq_view]
  omega

end

/-! ## Reservations never run out -/

section

variable [DecidableEq γ] {w : τ → Nat} {s : Scheduler γ τ} {a c d : γ}

theorem own_reservations {t : τ} : own w .reservations c a t = 0 := by
  simp [own, Counter.amount]

theorem cont_load_reservations : k.load w .reservations c a = 0 := by
  cases k <;> simp [Cont.load, own_reservations]

theorem sum_reservations_nonpos (ops : List (ViewOp γ)) : (ops.map (delta .reservations c)).sum ≤ 0 := by
  induction ops with
  | nil => exact le_refl _
  | cons op ops ih =>
    have hop : op.delta .reservations c ≤ 0 := by
      cases op <;> simp only [delta] <;> split <;> simp_all
    simp only [map_cons, sum_cons]
    omega

theorem load_reservations_nonneg (p : Pc γ τ) : 0 ≤ p.load w .reservations c a := by
  cases p with
  | fetched | dispatch | start | task | switched | resuming | pooling => simp [own_reservations]
  | loop | scan | idle => exact le_refl _
  | kick => simp [cont_load_reservations]
  | publish ops =>
    have hsum := sum_reservations_nonpos (c := c) ops
    simp only [Pc.load, cont_load_reservations]
    omega
  | enqueue stage t kind k =>
    have hkind : kind.load w .reservations c a t = 0 := by cases kind <;> simp [Kind.load, own_reservations]
    have hstage : 0 ≤ stage.load .reservations c := by
      unfold EnqueueStage.load
      split
      · split <;> decide
      · split <;> decide
      · exact le_refl _
    simp only [Pc.load, cont_load_reservations, hkind]
    omega

theorem rq_load_reservations : rq.load w .reservations = 0 := by
  unfold Rqinner.load
  induction rq.tasks with
  | nil => rfl
  | cons t l ih => simpa [Counter.amount] using ih

theorem rq_load_count : rq.load w .count = rq.tasks.length := by
  unfold Rqinner.load
  induction rq.tasks with
  | nil => rfl
  | cons t l ih =>
    simp only [map_cons, sum_cons, length_cons, ih, Counter.amount]
    omega

theorem rq_load_weight : rq.load w .weight = ((rq.tasks.map w).sum : Nat) := by
  unfold Rqinner.load
  induction rq.tasks with
  | nil => rfl
  | cons t l ih =>
    simp only [map_cons, sum_cons, ih, Counter.amount]
    omega

/-- Whoever gives a reservation back has made one. -/
theorem Balanced.consume_covered [Fintype γ] (h : s.Balanced w .reservations d) {ops : List (ViewOp γ)}
    {target : Option γ} (hpc : s.pc a = .publish (.consume d :: ops) target k) : s.Covered (.consume d) := by
  have hown : 1 ≤ (s.pc a).load w .reservations d a := by
    have hsum := sum_reservations_nonpos (c := d) ops
    rw [hpc]
    simp only [Pc.load, cont_load_reservations, map_cons, sum_cons, delta, and_self, if_true]
    omega
  have hle : (s.pc a).load w .reservations d a ≤ ∑ x, (s.pc x).load w .reservations d x :=
    Finset.single_le_sum (f := fun x => (s.pc x).load w .reservations d x) (fun x _ => load_reservations_nonneg _)
      (Finset.mem_univ a)
  unfold Balanced at h
  rw [rq_load_reservations] at h
  simp only [RqView.get] at h
  unfold Covered
  omega

end

/-! ## Runs -/

section

variable [DecidableEq γ] [DecidableEq τ]

/-- A step that, where it takes something away from the count or the weight of a CPU, finds it there. -/
def OrderlyStep (w : τ → Nat) (s s' : Scheduler γ τ) : Prop :=
  ∃ c cmd, s.step w c cmd = some s' ∧
    ∀ op ops target k, s.pc c = .publish (op :: ops) target k → (∀ d, op ≠ .consume d) → s.Covered op

instance (s : Scheduler γ τ) (op : ViewOp γ) : Decidable (s.Covered op) := by
  cases op <;> unfold Covered <;> infer_instance

/-- The update that CPU `c` is about to make, if any, is covered. -/
def nextCovered (s : Scheduler γ τ) (c : γ) : Bool :=
  match s.pc c with
  | .publish (op :: _) _ _ => s.Covered op
  | _ => true

def runCovered (w : τ → Nat) : Scheduler γ τ → List (γ × Cmd γ τ) → Option (Scheduler γ τ) :=
  runGuarded (fun s c _ => s.nextCovered c) (step w)

theorem orderlySteps_of_runCovered {w : τ → Nat} {s s' : Scheduler γ τ} {l : List (γ × Cmd γ τ)}
    (h : s.runCovered w l = some s') : ReflTransGen (OrderlyStep w) s s' := by
  refine reaches_of_runGuarded (fun s c cmd s' hnext hstep => ⟨c, cmd, hstep, ?_⟩) h
  intro op ops target k hpc _
  unfold nextCovered at hnext
  rw [hpc] at hnext
  exact of_decide_eq_true hnext

variable [Fintype γ] {w : τ → Nat} {s s' : Scheduler γ τ} {home : γ}

omit [DecidableEq τ] in
theorem balanced_init (f : Counter) (c : γ) : (init home : Scheduler γ τ).Balanced w f c := by
  have hload : ∀ a : γ, ((init home : Scheduler γ τ).pc a).load w f c a = 0 := fun _ => rfl
  unfold Balanced
  rw [Finset.sum_congr rfl fun a _ => hload a, Finset.sum_const_zero]
  cases f <;> rfl

/-- In an orderly run every counter stays in balance. -/
theorem balanced_of_orderly (h : ReflTransGen (OrderlyStep w) (init home) s) :
    s.Inv ∧ ∀ f c, s.Balanced w f c := by
  refine inv_of_reachable (I := fun s => s.Inv ∧ ∀ f c, s.Balanced w f c) ⟨inv_init, balanced_init⟩ ?_ h
  rintro s s' ⟨hi, hb⟩ ⟨a, cmd, hstep, hcov⟩
  have hcov' : ∀ op ops target k, s.pc a = .publish (op :: ops) target k → s.Covered op := by
    intro op ops target k hpc
    by_cases hop : ∃ d, op = .consume d
    · obtain ⟨d, rfl⟩ := hop
      exact (hb .reservations d).consume_covered hpc
    · exact hcov op ops target k hpc fun d hd => hop ⟨d, hd⟩
  rcases step_move hstep with hm | ⟨-, hm⟩
  · exact ⟨(hi.move hm).inv, fun f c => (hb f c).move hi hm hcov'⟩
  · exact ⟨hi.remove hm, fun f c => (hb f c).remove hm⟩

omit [DecidableEq τ] in
/-- At rest a CPU owes nothing to another, and to itself its current task. -/
theorem sum_load_resting {f : Counter} {c : γ} (hrest : ∀ a, (s.pc a).Resting) :
    ∑ a, (s.pc a).load w f c a = ((s.pc c).current.map (f.amount w)).getD 0 := by
  have hload : ∀ a, (s.pc a).load w f c a = if a = c then ((s.pc c).current.map (f.amount w)).getD 0 else 0 := by
    intro a
    have hr := hrest a
    by_cases hac : a = c
    · subst hac
      rw [if_pos rfl]
      cases hp : s.pc a <;> rw [hp] at hr <;> simp_all [Pc.Resting, Pc.current, own]
    · rw [if_neg hac]
      cases hp : s.pc a <;> rw [hp] at hr <;> simp_all [Pc.Resting, own]
  rw [Finset.sum_congr rfl fun a _ => hload a, Finset.sum_ite_eq' Finset.univ c, if_pos (Finset.mem_univ c)]

/-- In an orderly run, whenever no operation is in flight, what a CPU publishes is what it has. -/
theorem load_exact_of_orderly (h : ReflTransGen (OrderlyStep w) (init home) s)
    (hrest : ∀ a, (s.pc a).Resting) (c : γ) :
    (s.view c).runnableCount = (s.rq c).tasks.length + (if (s.pc c).current.isSome then 1 else 0) ∧
      (s.view c).runnableWeight = ((s.rq c).tasks.map w).sum + ((s.pc c).current.map w).getD 0 ∧
      (s.view c).wakeReservations = 0 := by
  obtain ⟨-, hb⟩ := balanced_of_orderly h
  have hcount := hb .count c
  have hweight := hb .weight c
  have hres := hb .reservations c
  unfold Balanced at hcount hweight hres
  rw [sum_load_resting hrest] at hcount hweight hres
  rw [rq_load_count] at hcount
  rw [rq_load_weight] at hweight
  rw [rq_load_reservations] at hres
  simp only [RqView.get] at hcount hweight hres
  cases hcur : (s.pc c).current with
  | none =>
    simp only [hcur, Option.map_none, Option.getD_none, Option.isSome_none, Bool.false_eq_true, if_false] at hcount hweight hres ⊢
    omega
  | some t =>
    simp only [hcur, Option.map_some, Option.getD_some, Option.isSome_some, if_true, Counter.amount] at hcount hweight hres ⊢
    omega

/-- A new task is put on the queue of CPU `c` and runs there. -/
def firstRun (c : γ) (t : τ) : List (γ × Cmd γ τ) :=
  [(c, .spawn t), (c, .choose c false), (c, .next), (c, .next), (c, .next), (c, .next), (c, .next), (c, .pop t),
    (c, .next), (c, .next), (c, .next)]

/-- The current task of CPU `c` puts a second task on the queue of CPU `d`, from where it is removed. -/
def removed (c d : γ) (t u : τ) : List (γ × Cmd γ τ) :=
  firstRun c t ++ [(c, .spawn u), (c, .choose d false)] ++ List.replicate 8 (c, .next) ++
    (c, .remove d u) :: List.replicate 3 (c, .next)

theorem load_exact_of_orderly_removed : ∃ s : Scheduler (Fin 2) (Fin 2),
    ReflTransGen (OrderlyStep fun _ => 1024) (init 0) s ∧ (s.pc 0).current = some 0 ∧
      (s.view 0).runnableCount = (s.rq 0).tasks.length + 1 ∧ (s.view 1).runnableCount = (s.rq 1).tasks.length := by
  obtain ⟨s, hrun, hpc₀, hpc₁⟩ : ∃ s, (init 0 : Scheduler (Fin 2) (Fin 2)).runCovered (fun _ => 1024) (removed 0 1 0 1) = some s ∧
      s.pc 0 = .task 0 ∧ s.pc 1 = .loop := exists_of_any (by decide +kernel)
  have hcur : (s.pc 0).current = some 0 := by
    rw [hpc₀]
    rfl
  have hnone : (s.pc 1).current = none := by
    rw [hpc₁]
    rfl
  have hsteps := orderlySteps_of_runCovered hrun
  have hload := load_exact_of_orderly hsteps (Fin.forall_fin_two.2 ⟨by rw [hpc₀]; trivial, by rw [hpc₁]; trivial⟩)
  have h₀ := (hload 0).1
  have h₁ := (hload 1).1
  rw [hcur] at h₀
  rw [hnone] at h₁
  exact ⟨s, hsteps, hcur, h₀, h₁⟩

/-- The current task of CPU `c` puts a second task on the queue of CPU `d`. Before it has published it, CPU
`d` has run the task to its end. -/
def overtaken (c d : γ) (t u : τ) : List (γ × Cmd γ τ) :=
  firstRun c t ++ [(c, .spawn u), (c, .choose d false), (c, .next), (c, .next), (d, .pop u), (d, .next), (d, .next),
    (d, .next), (d, .exit), (d, .schedule), (d, .next), (d, .next), (d, .next), (d, .next), (c, .next), (c, .next),
    (c, .next), (c, .next), (c, .next), (c, .next)]

/-- CPU 1 keeps the load of a task that has exited. -/
theorem load_wrong_when_overtaken : ∃ s : Scheduler (Fin 2) (Fin 2),
    ReflTransGen (Step fun _ => 1024) (init 0) s ∧ (∀ a, (s.pc a).Resting) ∧
      (s.rq 1).tasks = [] ∧ (s.pc 1).current = none ∧
      (s.view 1).runnableCount = 1 ∧ (s.view 1).runnableWeight = 1024 := by
  obtain ⟨s, hsteps, hpc₀, hpc₁, hrest⟩ : ∃ s : Scheduler (Fin 2) (Fin 2), ReflTransGen (Step fun _ => 1024) (init 0) s ∧
      s.pc 0 = .task 0 ∧ s.pc 1 = .loop ∧ (s.rq 1).tasks = [] ∧ (s.pc 1).current = none ∧
      (s.view 1).runnableCount = 1 ∧ (s.view 1).runnableWeight = 1024 :=
    exists_steps_of_any (overtaken 0 1 0 1) (by decide +kernel)
  refine ⟨s, hsteps, Fin.forall_fin_two.2 ⟨?_, ?_⟩, hrest⟩
  · rw [hpc₀]
    trivial
  · rw [hpc₁]
    trivial

end

end Scheduler

end ShellCore.Sched.Smp
