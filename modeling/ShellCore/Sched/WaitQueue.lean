import Mathlib

/-!
# Sleeping tasks

What the wait queues of the kernel see of a task: whether it sleeps, and whether its wake-up is under way. A task
that blocks is saving its context first; a wake-up that comes before the scheduler has seen it is kept for the
scheduler.
-/

namespace ShellCore.Sched

/-- The state of a task with respect to `wake_up_one` and `wake_up_task`. -/
inductive Sleep where
  | awake
  | saving (wakePending : Bool)
  | blocked
  /-- Woken up, not yet run again. -/
  | ready
deriving DecidableEq

namespace Sleep

/-- `wake_up_task`. -/
def wake : Sleep → Sleep
  | saving _ => saving true
  | blocked => ready
  | s => s

/-- What the scheduler makes of a task that has switched away. -/
def commit : Sleep → Sleep
  | saving true => ready
  | saving false => blocked
  | s => s

/-- The task sleeps and no wake-up of it is under way. -/
def waits : Sleep → Bool
  | saving pending => !pending
  | blocked => true
  | _ => false

/-- `wake_up_one` returns after it has found a task in such a state. -/
def accepts : Sleep → Bool
  | saving _ | blocked => true
  | _ => false

@[simp] theorem waits_wake (s : Sleep) : s.wake.waits = false := by
  cases s <;> rfl

@[simp] theorem waits_commit (s : Sleep) : s.commit.waits = s.waits := by
  cases s with
  | saving pending => cases pending <;> rfl
  | _ => rfl

theorem accepts_of_waits {s : Sleep} (h : s.waits = true) : s.accepts = true := by
  cases s <;> first | rfl | cases h

end Sleep

end ShellCore.Sched
