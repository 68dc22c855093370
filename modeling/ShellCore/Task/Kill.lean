import ShellCore.Task.SignalMask

/-!
# `kill` of a process group

`kill` finds the members of a process group by trying one process number after the other. A process is
known by the number of its thread group, and `pgid` is a field of each task: the group of a process is
that of the task `get_process` finds for it.
-/

namespace ShellCore.Task

open Function List

/-- What `kill` reads of a task. -/
structure TaskStruct where
  tid : Nat
  tgid : Nat
  pgid : Nat
deriving DecidableEq

inductive Errno where
  | EINVAL
  | ESRCH
deriving DecidableEq

structure Registry where
  /-- `TID2TCB`, in the order of the numbers. -/
  tasks : List TaskStruct
  /-- The actions and the shared pending signals of a thread group. -/
  action : Nat → Nat → SignalAction
  sharedPending : Nat → SigSet
  termSignal : TaskStruct → Option Nat
  /-- The tasks for which `wake_up_task` was called. -/
  woken : List TaskStruct

namespace Registry

variable (s : Registry)

def getProcess (pid : Nat) : Option TaskStruct :=
  ((s.tasks.find? fun t => t.tid == pid).filter fun t => t.tgid == pid).or (s.tasks.find? fun t => t.tgid == pid)

def insertPending (tgid sig : Nat) : Registry :=
  { s with sharedPending := update s.sharedPending tgid ((s.sharedPending tgid).insert sig) }

/-- The tasks of a process, each with whether it is forced to exit. -/
def targets (tgid sig : Nat) : List (TaskStruct × Bool) :=
  let force := sig == SIGKILL || (s.action tgid sig).handler == SIG_DFL && defaultSignalTerminates sig
  (s.tasks.filter fun t => t.tgid == tgid).map (·, force)

def wake (sig : Nat) (matched : List (TaskStruct × Bool)) : Registry :=
  { s with
    termSignal := fun t => if (t, true) ∈ matched then some (sig + 1) else s.termSignal t
    woken := s.woken ++ matched.map Prod.fst }

/-- One number of the scan for a process group. -/
def visit (pgid sig : Nat) (x : Registry × List (TaskStruct × Bool)) (i : Nat) :
    Registry × List (TaskStruct × Bool) :=
  match x.1.getProcess i with
  | none => x
  | some proc =>
    if proc.pgid = pgid then (x.1.insertPending proc.tgid sig, x.2 ++ x.1.targets proc.tgid sig) else x

/-- The end of the call, with the tasks that were found. -/
def wakeMatched (sig : Nat) (x : Registry × List (TaskStruct × Bool)) : Registry × Option Errno :=
  if x.2 = [] then (x.1, some .ESRCH) else (x.1.wake sig x.2, none)

/-- The group that `pid` means. -/
def targetPgid (currentPgid : Nat) (pid : Int) : Nat := if pid = 0 then currentPgid else (-pid).toNat

/-- The state and the error, if there is one. -/
def sysKill (currentPgid : Nat) (pid signum : Int) : Registry × Option Errno :=
  if signum < 0 ∨ signum.toNat > MAX_SIG then (s, some .EINVAL)
  else
    let sig := (signum - 1).toNat
    if pid > 0 then
      match s.getProcess pid.toNat with
      | none => (s, some .ESRCH)
      | some proc =>
        if signum = 0 then (s, none)
        else ((s.insertPending proc.tgid sig).wake sig (s.targets proc.tgid sig), none)
    else
      let pgid := targetPgid currentPgid pid
      if signum = 0 then
        (s, if (range' 1 4095).any fun i => (s.getProcess i).any (·.pgid == pgid) then none else some .ESRCH)
      else wakeMatched sig ((range' 2 4094).foldl (visit pgid sig) (s, []))

/-- The process `p` is alive and its group is `g`. -/
def Member (g p : Nat) : Prop := ∃ t, s.getProcess p = some t ∧ t.pgid = g

/-- The signal reaches exactly the members of the group. -/
structure Reaches (g sig : Nat) (r : Registry × Option Errno) : Prop where
  pending : ∀ p n, r.1.sharedPending p n = true ↔ s.sharedPending p n = true ∨ n = sig ∧ s.Member g p
  woken : ∃ new, r.1.woken = s.woken ++ new ∧ ∀ t, t ∈ new ↔ t ∈ s.tasks ∧ s.Member g t.tgid
  refused : r.2 = some .ESRCH ↔ ∀ p, ¬ s.Member g p

variable {s} {g sig i p : Nat} {t : TaskStruct}

theorem mem_of_getProcess (h : s.getProcess p = some t) : t ∈ s.tasks ∧ t.tgid = p := by
  unfold getProcess at h
  rcases Option.or_eq_some_iff.1 h with h | ⟨-, h⟩
  · obtain ⟨hfind, hp⟩ := Option.filter_eq_some_iff.1 h
    exact ⟨mem_of_find?_eq_some hfind, eq_of_beq hp⟩
  · have hp := find?_some h
    exact ⟨mem_of_find?_eq_some h, eq_of_beq hp⟩

theorem mem_targets : t ∈ (s.targets p sig).map Prod.fst ↔ t ∈ s.tasks ∧ t.tgid = p := by
  simp [targets]

/-- What the scan has done after the numbers `l`. -/
structure Scanned (s : Registry) (g sig : Nat) (l : List Nat) (x : Registry × List (TaskStruct × Bool)) : Prop where
  tasks : x.1.tasks = s.tasks
  woken : x.1.woken = s.woken
  pending : ∀ p n, x.1.sharedPending p n = true ↔ s.sharedPending p n = true ∨ n = sig ∧ p ∈ l ∧ s.Member g p
  matched : ∀ t, t ∈ x.2.map Prod.fst ↔ t ∈ s.tasks ∧ t.tgid ∈ l ∧ s.Member g t.tgid

variable {l : List Nat} {x : Registry × List (TaskStruct × Bool)}

theorem Scanned.skip (h : Scanned s g sig l x) (hi : ¬ s.Member g i) : Scanned s g sig (l ++ [i]) x := by
  have hmem : ∀ p, p ∈ l ++ [i] ∧ s.Member g p ↔ p ∈ l ∧ s.Member g p := by
    intro p
    rw [mem_append, mem_singleton]
    exact ⟨fun hp => ⟨hp.1.resolve_right (by rintro rfl; exact hi hp.2), hp.2⟩, fun hp => ⟨.inl hp.1, hp.2⟩⟩
  exact ⟨h.tasks, h.woken, fun p n => by rw [h.pending, hmem], fun t => by rw [h.matched, hmem]⟩

theorem Scanned.visit (h : Scanned s g sig l x) (i : Nat) : Scanned s g sig (l ++ [i]) (visit g sig x i) := by
  have hget : x.1.getProcess i = s.getProcess i := by
    unfold getProcess
    rw [h.tasks]
  unfold Registry.visit
  rw [hget]
  cases hproc : s.getProcess i with
  | none =>
    refine h.skip fun ⟨t, ht, _⟩ => ?_
    cases hproc.symm.trans ht
  | some proc =>
    by_cases hg : proc.pgid = g
    · have hi : s.Member g i := ⟨proc, hproc, hg⟩
      obtain ⟨-, rfl⟩ := mem_of_getProcess hproc
      simp only [if_pos hg]
      refine ⟨h.tasks, h.woken, fun p n => ?_, fun t => ?_⟩
      · by_cases hp : p = proc.tgid
        · subst hp
          by_cases hn : n = sig <;> simp [insertPending, SigSet.insert, hn, h.pending, hi]
        · simp [insertPending, hp, h.pending]
      · rw [map_append, mem_append, mem_targets, h.matched, h.tasks, mem_append, mem_singleton]
        by_cases ht : t.tgid = proc.tgid <;> simp [ht, hi]
        exact fun hmem _ => hmem
    · simp only [if_neg hg]
      refine h.skip fun ⟨t, ht, hpgid⟩ => hg ?_
      cases hproc.symm.trans ht
      exact hpgid

theorem scanned_nil (s : Registry) (g sig : Nat) : Scanned s g sig [] (s, []) := by
  constructor <;> simp

/-- The loop of the scan. -/
theorem Scanned.foldl (l' : List Nat) (h : Scanned s g sig l x) :
    Scanned s g sig (l ++ l') (l'.foldl (Registry.visit g sig) x) := by
  induction l' generalizing l x with
  | nil => rwa [append_nil]
  | cons i l' ih =>
    rw [append_cons]
    exact ih (h.visit i)

/-- The signal has reached the members whose numbers were tried. -/
theorem Scanned.reaches_iff (h : Scanned s g sig l x) :
    s.Reaches g sig (wakeMatched sig x) ↔ ∀ p, s.Member g p → p ∈ l := by
  have hwoken : (wakeMatched sig x).1.woken = s.woken ++ x.2.map Prod.fst := by
    unfold wakeMatched
    split
    case isTrue hnil => rw [hnil, map_nil, append_nil, h.woken]
    case isFalse => exact congrArg (· ++ x.2.map Prod.fst) h.woken
  have hpending : (wakeMatched sig x).1.sharedPending = x.1.sharedPending := by
    unfold wakeMatched
    split <;> rfl
  have herror : (wakeMatched sig x).2 = some .ESRCH ↔ x.2 = [] := by
    unfold wakeMatched
    split <;> simp_all
  constructor
  · rintro ⟨-, ⟨new, hnew, hall⟩, -⟩ p ⟨t, ht, hg⟩
    obtain ⟨hmem, rfl⟩ := mem_of_getProcess ht
    obtain rfl := append_cancel_left (hwoken.symm.trans hnew)
    exact ((h.matched t).1 ((hall t).2 ⟨hmem, t, ht, hg⟩)).2.1
  · intro hl
    have hmatched : ∀ t, t ∈ x.2.map Prod.fst ↔ t ∈ s.tasks ∧ s.Member g t.tgid := fun t =>
      (h.matched t).trans ⟨fun ht => ⟨ht.1, ht.2.2⟩, fun ht => ⟨ht.1, hl _ ht.2, ht.2⟩⟩
    refine ⟨fun p n => ?_, ⟨_, hwoken, hmatched⟩, herror.trans ⟨fun hnil p hp => ?_, fun hnone => ?_⟩⟩
    · rw [hpending, h.pending]
      exact or_congr_right (and_congr_right fun _ => ⟨And.right, fun hp => ⟨hl p hp, hp⟩⟩)
    · obtain ⟨t, ht, hg⟩ := hp
      obtain ⟨hmem, rfl⟩ := mem_of_getProcess ht
      have ht' := (hmatched t).2 ⟨hmem, t, ht, hg⟩
      rw [hnil] at ht'
      cases ht'
    · rw [← map_eq_nil_iff (f := Prod.fst), eq_nil_iff_forall_not_mem]
      exact fun t ht => hnone _ ((hmatched t).1 ht).2

section Group

variable {currentPgid : Nat} {pid signum : Int} (hpid : pid ≤ 0) (hsig : 1 ≤ signum ∧ signum ≤ 64)

include hpid hsig

theorem sysKill_group : s.sysKill currentPgid pid signum = wakeMatched (signum - 1).toNat
    ((range' 2 4094).foldl (visit (targetPgid currentPgid pid) (signum - 1).toNat) (s, [])) := by
  unfold sysKill
  rw [if_neg (by unfold MAX_SIG; omega), if_neg (not_lt.2 hpid), if_neg (show signum ≠ 0 by omega)]

/-- A signal for a process group reaches the whole group exactly if the numbers of its members are
among those that are tried. -/
theorem sysKill_reaches_iff :
    s.Reaches (targetPgid currentPgid pid) (signum - 1).toNat (s.sysKill currentPgid pid signum) ↔
      ∀ p, s.Member (targetPgid currentPgid pid) p → 2 ≤ p ∧ p < 4096 := by
  rw [sysKill_group hpid hsig, ((scanned_nil s _ _).foldl (range' 2 4094)).reaches_iff]
  simp only [nil_append, mem_range'_1]

end Group

/-- Tasks with the default actions. -/
def withTasks (tasks : List TaskStruct) : Registry :=
  ⟨tasks, fun _ _ => ⟨0, 0, fun _ => false⟩, fun _ _ => false, fun _ => none, []⟩

/-- Processes 7 and 8 are a group and 7 has a second thread; process 10 is not in it. -/
def pair : Registry := withTasks [⟨7, 7, 7⟩, ⟨8, 8, 7⟩, ⟨9, 7, 7⟩, ⟨10, 10, 10⟩]

theorem sysKill_reaches_early : pair.Reaches 7 14 (pair.sysKill 1 (-7) 15) := by
  refine (@sysKill_reaches_iff pair 1 (-7) 15 (by decide) (by decide)).2 ?_
  rintro p ⟨t, ht, -⟩
  obtain ⟨hmem, rfl⟩ := mem_of_getProcess ht
  have hall : ∀ t ∈ pair.tasks, 2 ≤ t.tgid ∧ t.tgid < 4096 := by decide
  exact hall t hmem

/-- The scan ends before process 4096. -/
theorem sysKill_misses_late :
    ¬ (withTasks [⟨4096, 4096, 4096⟩]).Reaches 4096 14 ((withTasks [⟨4096, 4096, 4096⟩]).sysKill 1 (-4096) 15) := by
  rw [sysKill_group (by decide) (by decide)]
  refine fun h => absurd (((scanned_nil _ _ _).foldl (range' 2 4094)).reaches_iff.1 h 4096 ⟨_, rfl, rfl⟩) ?_
  rw [nil_append, mem_range'_1]
  decide

end Registry

end ShellCore.Task
