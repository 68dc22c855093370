import ShellCore.Lib.Actors
import ShellCore.Sched.WaitQueue

/-!
# Threads that clone, sleep and exit

A section under the lock of the thread table or of a task is one step. `exit_group` takes a snapshot of the threads of its
process, then marks and wakes up one after the other, while the other threads clone, exit and go to sleep.
-/

namespace ShellCore.Task

open Function

open Sched (Sleep)

/-- The fields of a task that its exit depends on. -/
structure ThreadInner (τ : Type) where
  /-- The process: the thread id of its first thread. -/
  tgid : τ
  sleep : Sleep
  zombie : Bool
  /-- `pending` contains `SIGKILL`. -/
  sigkill : Bool
  termSignal : Option Nat
  signalInterrupted : Bool
deriving DecidableEq

/-- Where a thread stands. -/
inductive ThreadPc (τ : Type) where
  /-- The id is not in use. -/
  | unborn
  /-- Under construction in `do_clone`. -/
  | built
  /-- It runs, in user mode or in a system call. -/
  | kernel
  | asleep
  /-- `wait_exec_update_lock`: before the look at `SIGKILL`, and before the lock is tried. -/
  | cloneCheck
  | cloneLock
  /-- `do_clone`, of a thread or of a process: before the child is built, is put into the table and is enqueued, and
  before the lock is released. -/
  | cloneBuild (thread : Bool)
  | cloneInsert (thread : Bool) (child : τ)
  | cloneEnqueue (thread : Bool) (child : τ)
  | cloneUnlock
  /-- The loop of `sys_exit_group` over the rest of the snapshot: before a thread is marked, and before the marked one is
  woken up. -/
  | groupMark (rest : List τ)
  | groupWake (t : τ) (rest : List τ)
  /-- `trap_return`, after `handle_signals`. -/
  | returning
  /-- `exit_current_and_run_next`, in the end of `exit_group` if `group`: before the thread leaves the table, before it
  becomes a zombie, and after. -/
  | exiting (group : Bool)
  | zombifying (group : Bool)
  | gone (group : Bool)
deriving DecidableEq

/-- What a thread does next: begin a call, or go on with the one it is in. -/
inductive ThreadCmd (τ : Type) where
  | clone (thread : Bool)
  /-- The child gets an id, or the clone fails. -/
  | build (child : τ)
  | fail
  | exit
  | exitGroup
  /-- A blocking call, whatever it has looked at before. -/
  | block
  /-- `sys_rt_sigsuspend`; `other` tells whether another signal can be delivered. -/
  | suspend (other : Bool)
  /-- `sys_rt_sigtimedwait` takes `SIGKILL`. -/
  | sigtimedwait
  /-- `handle_signals`; it handles one signal, and `other` tells whether that is another one. -/
  | trapReturn (other : Bool)
  /-- Anybody's `wake_up_task`. -/
  | wake (t : τ)
  | next
deriving DecidableEq

structure Threads (τ : Type) where
  /-- `TID2TCB`. -/
  tid2tcb : List τ
  inner : τ → ThreadInner τ
  /-- `exec_update_lock` of each process. -/
  execUpdateLock : τ → Bool
  pc : τ → ThreadPc τ

namespace Threads

variable {τ : Type} [DecidableEq τ]

/-- A single process with a single thread. -/
def init (leader : τ) : Threads τ where
  tid2tcb := [leader]
  inner t := ⟨t, .awake, false, false, none, false⟩
  execUpdateLock _ := false
  pc t := if t = leader then .kernel else .unborn

variable (s : Threads τ) (t : τ)

def goto (pc : ThreadPc τ) : Threads τ := { s with pc := update s.pc t pc }

def setInner (inner : ThreadInner τ) : Threads τ :=
  { s with inner := update s.inner t inner }

def setSleep (sleep : Sleep) : Threads τ := s.setInner t { s.inner t with sleep := sleep }

/-- The thread goes to sleep: `BlockSaving`. -/
def blockSaving : Threads τ := (s.setSleep t (.saving false)).goto t .asleep

/-- The loop body of `sys_exit_group`, under the lock of thread `u`. -/
def mark (u : τ) : Threads τ :=
  let inner := s.inner u
  s.setInner u { inner with
    sigkill := true
    termSignal := some 9
    signalInterrupted := inner.signalInterrupted || inner.sleep = .blocked }

/-- The child of `do_clone` by thread `t`. -/
def build (thread : Bool) (child : τ) : Threads τ :=
  ((s.setInner child ⟨if thread then (s.inner t).tgid else child, .ready, false, false, none, false⟩).goto child
    .built).goto t (.cloneInsert thread child)

def setLock (process : τ) (locked : Bool) : Threads τ :=
  { s with execUpdateLock := update s.execUpdateLock process locked }

/-- `recycle_on_exit`, after the table. -/
def zombify : Threads τ := s.setInner t { s.inner t with zombie := true, sigkill := false }

def next : Option (Threads τ) :=
  let inner := s.inner t
  match s.pc t with
  | .asleep =>
    match inner.sleep with
    | .saving pending => some (s.setSleep t (Sleep.saving pending).commit)
    | .ready => some ((s.setSleep t .awake).goto t .kernel)
    | _ => none
  | .cloneCheck => some (s.goto t (if inner.sigkill then .kernel else .cloneLock))
  | .cloneLock =>
    if s.execUpdateLock inner.tgid then some (s.goto t .cloneCheck)
    else some ((s.setLock inner.tgid true).goto t (.cloneBuild true))
  | .cloneInsert thread child => some ({ s with tid2tcb := s.tid2tcb ++ [child] }.goto t (.cloneEnqueue thread child))
  | .cloneEnqueue thread child => some ((s.goto child .asleep).goto t (if thread then .cloneUnlock else .kernel))
  | .cloneUnlock => some ((s.setLock inner.tgid false).goto t .kernel)
  | .groupMark [] => some (s.goto t (.exiting true))
  | .groupMark (u :: rest) => if u = t then some (s.goto t (.groupMark rest)) else some ((s.mark u).goto t (.groupWake u rest))
  | .groupWake u rest => some ((s.setSleep u (s.inner u).sleep.wake).goto t (.groupMark rest))
  | .returning => some (s.goto t (if inner.termSignal.isSome then .exiting false else .kernel))
  | .exiting group => some ({ s with tid2tcb := s.tid2tcb.filter (· ≠ t) }.goto t (.zombifying group))
  | .zombifying group => some ((s.zombify t).goto t (.gone group))
  | _ => none

def isKernel : Bool :=
  match s.pc t with
  | .kernel => true
  | _ => false

def step : ThreadCmd τ → Option (Threads τ)
  | .clone thread => if s.isKernel t then some (s.goto t (if thread then .cloneCheck else .cloneBuild false)) else none
  | .build child =>
    match s.pc t with
    | .cloneBuild thread => if s.pc child = .unborn then some (s.build t thread child) else none
    | _ => none
  | .fail =>
    match s.pc t with
    | .cloneBuild thread => some (s.goto t (if thread then .cloneUnlock else .kernel))
    | _ => none
  | .exit => if s.isKernel t then some (s.goto t (.exiting false)) else none
  | .exitGroup =>
    if s.isKernel t then
      some (s.goto t (.groupMark (s.tid2tcb.filter fun u => (s.inner u).tgid = (s.inner t).tgid)))
    else none
  | .block => if s.isKernel t then some (s.blockSaving t) else none
  | .suspend other =>
    if s.isKernel t then if (s.inner t).sigkill || other then some s else some (s.blockSaving t) else none
  | .sigtimedwait =>
    if s.isKernel t then some ((s.setInner t { s.inner t with sigkill := false }).goto t .returning) else none
  | .trapReturn other =>
    if s.isKernel t then
      if (s.inner t).sigkill && !other then
        some ((s.setInner t { s.inner t with sigkill := false, termSignal := some 9 }).goto t .returning)
      else some (s.goto t .returning)
    else none
  | .wake u => some (s.setSleep u (s.inner u).sleep.wake)
  | .next => s.next t

def Step (s s' : Threads τ) : Prop := ∃ t cmd, s.step t cmd = some s'

end Threads

/-! ## What is kept -/

namespace ThreadPc

variable {τ : Type}

/-- The child of a clone that is under way. -/
def child : ThreadPc τ → Option τ
  | cloneInsert _ c | cloneEnqueue _ c => some c
  | _ => none

/-- What `exit_group` has left of its snapshot. -/
def snapshot : ThreadPc τ → Option (List τ)
  | groupMark rest | groupWake _ rest => some rest
  | exiting true | zombifying true | gone true => some []
  | _ => none

def waking : ThreadPc τ → Option τ
  | groupWake t _ => some t
  | _ => none

/-- The thread does not come back to a system call once it is marked. -/
def leaving : ThreadPc τ → Bool
  | returning | exiting _ | zombifying _ | gone _ => true
  | _ => false

/-- The thread is there, and no child of a clone is with it. -/
def alone : ThreadPc τ → Bool
  | unborn | built | cloneInsert .. | cloneEnqueue .. => false
  | _ => true

/-- `exit_group` has been through its snapshot. -/
def finished : ThreadPc τ → Bool
  | exiting group | zombifying group | gone group => group
  | _ => false

theorem facts_of_alone {p : ThreadPc τ} (h : p.alone = true) : p ≠ .unborn ∧ p ≠ .built ∧ p.child = none := by
  cases p <;> first | (cases h; done) | simp [child]

theorem snapshot_of_finished {p : ThreadPc τ} (h : p.finished = true) : p.snapshot = some [] ∧ p.waking = none := by
  cases p <;> simp_all [finished, snapshot, waking]

end ThreadPc

open ThreadPc

namespace Threads

variable {τ : Type}

section

variable (s : Threads τ)

/-- The thread exits as soon as it would return to user mode. -/
def Marked (t : τ) : Prop := (s.inner t).termSignal.isSome = true

/-- The thread sleeps and no wake-up is pending. -/
def Stuck (t : τ) : Prop := (s.inner t).sleep.waits = true

structure WellFormed : Prop where
  born : ∀ t ∈ s.tid2tcb, s.pc t ≠ .unborn
  kill : ∀ t, s.Marked t → (s.inner t).sigkill = true ∨ (s.pc t).leaving = true
  built : ∀ t c, (s.pc t).child = some c → s.pc c = .built
  owner : ∀ t u c, (s.pc t).child = some c → (s.pc u).child = some c → t = u

end

variable [DecidableEq τ] {s s' : Threads τ} {t : τ} {p : ThreadPc τ} {cmd : ThreadCmd τ}

@[simp] theorem goto_pc_self : (s.goto t p).pc t = p := update_self ..

theorem goto_pc_of_ne {u : τ} (h : u ≠ t) : (s.goto t p).pc u = s.pc u := update_of_ne h ..

@[elab_as_elim]
theorem forall_goto {motive : τ → ThreadPc τ → Prop} (u : τ) (hnew : motive t p) (hall : ∀ u, motive u (s.pc u)) :
    motive u ((s.goto t p).pc u) :=
  forall_update (motive := motive) u hnew hall

@[simp] theorem goto_inner : (s.goto t p).inner = s.inner := rfl

@[simp] theorem goto_tid2tcb : (s.goto t p).tid2tcb = s.tid2tcb := rfl

variable (inner : ThreadInner τ)

include inner

@[simp] theorem setInner_inner_self : (s.setInner t inner).inner t = inner := update_self ..

theorem setInner_inner_of_ne {u : τ} (h : u ≠ t) : (s.setInner t inner).inner u = s.inner u :=
  update_of_ne h ..

@[simp] theorem setInner_pc : (s.setInner t inner).pc = s.pc := rfl

@[simp] theorem setInner_tid2tcb : (s.setInner t inner).tid2tcb = s.tid2tcb := rfl

omit inner

omit [DecidableEq τ] in
theorem pc_of_isKernel (h : s.isKernel t = true) : s.pc t = .kernel := by
  unfold isKernel at h
  split at h
  · assumption
  · cases h

/-! ### Well-formedness -/

variable (h : s.WellFormed)

include h

/-- A thread goes on; its child is the one it had, or one that has just been built. -/
theorem WellFormed.goto (hold : s.pc t = .built → ∀ u, (s.pc u).child ≠ some t) (hp : p ≠ .unborn)
    (hchild : ∀ c, p.child = some c → (s.pc t).child = some c ∨ s.pc c = .built ∧ c ≠ t ∧ ∀ u, (s.pc u).child ≠ some c)
    (hleaving : (s.pc t).leaving = true → s.Marked t → p.leaving = true) : (s.goto t p).WellFormed := by
  have hcase : ∀ u c, ((s.goto t p).pc u).child = some c → (s.pc u).child = some c ∨
      u = t ∧ s.pc c = .built ∧ c ≠ t ∧ ∀ u, (s.pc u).child ≠ some c :=
    fun u => forall_goto u (fun c hc => (hchild c hc).imp_right fun hnew => ⟨rfl, hnew⟩) fun _ _ => .inl
  constructor
  · exact fun u => forall_goto u (fun _ => hp) h.born
  · exact fun u => forall_goto u (fun hm => (h.kill t hm).imp_right fun hl => hleaving hl hm) h.kill
  · intro u c hu
    rcases hcase u c hu with hc | ⟨-, hb, hct, -⟩
    · have hct : c ≠ t := by
        rintro rfl
        exact hold (h.built u c hc) u hc
      exact (goto_pc_of_ne hct).trans (h.built u c hc)
    · exact (goto_pc_of_ne hct).trans hb
  · intro u v c hu hv
    rcases hcase u c hu with hc | ⟨rfl, -, -, hnone⟩ <;> rcases hcase v c hv with hc' | ⟨rfl, -, -, hnone'⟩
    · exact h.owner u v c hc hc'
    · exact absurd hc (hnone' u)
    · exact absurd hc' (hnone v)
    · rfl

/-- A thread without a child goes on. -/
theorem WellFormed.move {q : ThreadPc τ} (hpc : s.pc t = q) (hq : q.alone = true) (hp : p.alone = true)
    (hleaving : p.leaving = q.leaving ∨ p.leaving = true) : (s.goto t p).WellFormed := by
  obtain ⟨hborn, -, hchild⟩ := facts_of_alone hp
  refine h.goto (fun hb => absurd (hpc.symm.trans hb) (facts_of_alone hq).2.1) hborn (by simp [hchild]) ?_
  rw [hpc]
  exact fun hl _ => hleaving.elim (·.trans hl) id

/-- A task's fields change. -/
theorem WellFormed.setInner {u : τ} {inner : ThreadInner τ}
    (hkill : inner.termSignal.isSome = true → inner.sigkill = true ∨ (s.pc u).leaving = true) :
    (s.setInner u inner).WellFormed := by
  refine ⟨h.born, fun v hv => ?_, h.built, h.owner⟩
  by_cases hvu : v = u
  · subst hvu
    simp only [Marked, setInner_inner_self] at hv ⊢
    exact hkill hv
  · simp only [Marked, setInner_inner_of_ne _ hvu] at hv ⊢
    exact h.kill v hv

omit [DecidableEq τ] in
theorem WellFormed.table {table : List τ} (ht : ∀ u ∈ table, u ∈ s.tid2tcb ∨ s.pc u ≠ .unborn) :
    WellFormed { s with tid2tcb := table } :=
  ⟨fun u hu => (ht u hu).elim (h.born u) id, h.kill, h.built, h.owner⟩

theorem WellFormed.setLock (process : τ) (locked : Bool) : (s.setLock process locked).WellFormed :=
  ⟨h.born, h.kill, h.built, h.owner⟩

theorem WellFormed.setSleep (u : τ) (sleep : Sleep) : (s.setSleep u sleep).WellFormed :=
  h.setInner (h.kill u)

theorem WellFormed.build {thread : Bool} {c : τ} (hpc : s.pc t = .cloneBuild thread)
    (hc : s.pc c = .unborn) : (s.build t thread c).WellFormed := by
  have hct : c ≠ t := by
    rintro rfl
    cases hpc.symm.trans hc
  have hfresh : ∀ u, (s.pc u).child ≠ some c := by
    intro u hu
    cases hc.symm.trans (h.built u c hu)
  refine ((h.setInner (by simp)).goto (t := c) (fun _ => hfresh) (by simp) (by simp [child]) ?_).goto ?_ (by simp)
    (fun d hd => .inr ?_) ?_
  · simp [hc, leaving]
  · simp [goto_pc_of_ne hct.symm, hpc]
  · obtain rfl := Option.some.inj hd
    exact ⟨goto_pc_self, hct, fun u => forall_goto u (by simp [child]) hfresh⟩
  · simp [goto_pc_of_ne hct.symm, hpc, leaving]

/-- The child is handed to the scheduler. -/
theorem WellFormed.enqueue {c : τ} (hc : (s.pc t).child = some c) (hp : p.alone = true) :
    ((s.goto c .asleep).goto t p).WellFormed := by
  obtain ⟨hborn, -, hchild⟩ := facts_of_alone hp
  have hb := h.built t c hc
  have hstay : s.pc t ≠ .built ∧ (s.pc t).leaving = false := by
    cases hpc : s.pc t <;> simp [hpc, child, leaving] at hc ⊢
  have hct : c ≠ t := by
    rintro rfl
    exact hstay.1 hb
  have hnext : (s.goto t p).WellFormed :=
    h.goto (fun hb => absurd hb hstay.1) hborn (by simp [hchild]) (by simp [hstay.2])
  have hpcc : (s.goto t p).pc c = .built := (goto_pc_of_ne hct).trans hb
  rw [show (s.goto c .asleep).goto t p = (s.goto t p).goto c .asleep from
    congrArg (fun f => { s with pc := f }) (update_comm hct ..)]
  refine hnext.goto (fun _ u hu => ?_) (by simp) (by simp [child]) (by simp [hpcc, leaving])
  by_cases hut : u = t
  · subst hut
    rw [goto_pc_self, hchild] at hu
    cases hu
  · rw [goto_pc_of_ne hut] at hu
    exact hut (h.owner u t c hu hc)

theorem WellFormed.next (hstep : s.next t = some s') : s'.WellFormed := by
  unfold Threads.next at hstep
  simp only at hstep
  cases hpc : s.pc t <;> simp only [hpc] at hstep
  case unborn | built | kernel | cloneBuild | gone => cases hstep
  case asleep =>
    split at hstep
    · cases hstep
      exact h.setSleep t _
    · cases hstep
      exact (h.setSleep t .awake).move hpc rfl rfl (.inl rfl)
    · cases hstep
  case cloneCheck =>
    cases hstep
    exact h.move hpc rfl (by split <;> rfl) (.inl (by split <;> rfl))
  case cloneLock =>
    split at hstep
    · cases hstep
      exact h.move hpc rfl rfl (.inl rfl)
    · cases hstep
      exact (h.setLock _ true).move hpc rfl rfl (.inl rfl)
  case cloneInsert thread c =>
    cases hstep
    have hb := h.built t c (by rw [hpc]; rfl)
    have htable : WellFormed { s with tid2tcb := s.tid2tcb ++ [c] } := by
      refine h.table fun u hu => ?_
      rcases List.mem_append.1 hu with hu | hu
      · exact .inl hu
      · obtain rfl := List.mem_singleton.1 hu
        exact .inr (by simp [hb])
    exact htable.goto (by simp [hpc]) (by simp) (by simp [hpc, child]) (by simp [hpc, leaving])
  case cloneEnqueue thread c =>
    cases hstep
    exact h.enqueue (by rw [hpc]; rfl) (by split <;> rfl)
  case cloneUnlock =>
    cases hstep
    exact (h.setLock _ false).move hpc rfl rfl (.inl rfl)
  case groupMark rest =>
    cases rest with
    | nil =>
      cases hstep
      exact h.move hpc rfl rfl (.inr rfl)
    | cons u rest =>
      simp only at hstep
      split at hstep
      · cases hstep
        exact h.move hpc rfl rfl (.inl rfl)
      · cases hstep
        exact WellFormed.move (s := s.mark u) (h.setInner (by simp)) hpc rfl rfl (.inl rfl)
  case groupWake u rest =>
    cases hstep
    exact (h.setSleep u _).move hpc rfl rfl (.inl rfl)
  case returning =>
    cases hstep
    refine h.goto (by simp [hpc]) ?_ ?_ ?_
    · split <;> simp
    · split <;> simp [child]
    · intro _ hm
      rw [if_pos (show (s.inner t).termSignal.isSome = true from hm)]
      rfl
  case exiting group =>
    cases hstep
    have htable : WellFormed { s with tid2tcb := s.tid2tcb.filter (· ≠ t) } :=
      h.table fun u hu => .inl (List.mem_filter.1 hu).1
    exact htable.move hpc rfl rfl (.inr rfl)
  case zombifying group =>
    cases hstep
    exact WellFormed.move (s := s.zombify t) (h.setInner fun _ => .inr (by rw [hpc]; rfl)) hpc rfl rfl (.inr rfl)

theorem WellFormed.blockSaving (hpc : s.pc t = .kernel) : (s.blockSaving t).WellFormed :=
  (h.setSleep t _).move hpc rfl rfl (.inl rfl)

theorem WellFormed.returning (hpc : s.pc t = .kernel) : (s.goto t .returning).WellFormed :=
  h.move hpc rfl rfl (.inr rfl)

theorem WellFormed.step (hstep : s.step t cmd = some s') : s'.WellFormed := by
  cases cmd with
  | clone thread =>
    obtain ⟨hk, rfl⟩ := of_guard hstep
    have hpc := pc_of_isKernel hk
    exact h.move hpc rfl (by split <;> rfl) (.inl (by split <;> rfl))
  | build c =>
    simp only [Threads.step] at hstep
    split at hstep
    case h_1 thread hpc =>
      obtain ⟨hc, rfl⟩ := of_guard hstep
      exact h.build hpc hc
    case h_2 => cases hstep
  | fail =>
    simp only [Threads.step] at hstep
    split at hstep
    case h_1 thread hpc =>
      cases hstep
      exact h.move hpc rfl (by split <;> rfl) (.inl (by split <;> rfl))
    case h_2 => cases hstep
  | exit =>
    obtain ⟨hk, rfl⟩ := of_guard hstep
    exact h.move (pc_of_isKernel hk) rfl rfl (.inr rfl)
  | exitGroup =>
    obtain ⟨hk, rfl⟩ := of_guard hstep
    exact h.move (pc_of_isKernel hk) rfl rfl (.inl rfl)
  | block =>
    obtain ⟨hk, rfl⟩ := of_guard hstep
    exact h.blockSaving (pc_of_isKernel hk)
  | suspend other =>
    obtain ⟨hk, hstep⟩ := Option.ite_none_right_eq_some.1 hstep
    split at hstep
    · cases hstep
      exact h
    · cases hstep
      exact h.blockSaving (pc_of_isKernel hk)
  | sigtimedwait =>
    obtain ⟨hk, rfl⟩ := of_guard hstep
    exact (h.returning (pc_of_isKernel hk)).setInner fun _ => .inr (by rw [goto_pc_self]; rfl)
  | trapReturn other =>
    obtain ⟨hk, hstep⟩ := Option.ite_none_right_eq_some.1 hstep
    have hr := h.returning (pc_of_isKernel hk)
    split at hstep
    · cases hstep
      exact hr.setInner fun _ => .inr (by rw [goto_pc_self]; rfl)
    · cases hstep
      exact hr
  | wake u =>
    cases hstep
    exact h.setSleep u _
  | next => exact h.next hstep

end Threads

end ShellCore.Task
