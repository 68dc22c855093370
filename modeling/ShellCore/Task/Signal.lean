import Mathlib

/-!
# Signals

A signal is known by the number of its bit, which is one less than its number in user space. A thread has signals of its
own that are pending and shares others with its thread group. `handle_signals` takes the lowest one that is pending and
not blocked and has `call_signal_handler` act on it.
-/

namespace ShellCore.Task

def MAX_SIG : Nat := 64

def SIGKILL : Nat := 8

def SIGALRM : Nat := 13

def SIGCHLD : Nat := 16

def SIGCONT : Nat := 17

def SIGSTOP : Nat := 18

def SIGURG : Nat := 22

def SIGWINCH : Nat := 27

def SIG_DFL : Nat := 0

def SIG_IGN : Nat := 1

def SA_NODEFER : Nat := 0x40000000

abbrev SigSet := Nat → Bool

namespace SigSet

def insert (s : SigSet) (sig : Nat) : SigSet := Function.update s sig true

def remove (s : SigSet) (sig : Nat) : SigSet := Function.update s sig false

/-- `trailing_zeros`. -/
def first (s : SigSet) : Option Nat := (List.range MAX_SIG).find? s

theorem mem_of_first {s : SigSet} {sig : Nat} (h : s.first = some sig) : s sig = true ∧ sig < MAX_SIG :=
  ⟨List.find?_some h, List.mem_range.1 (List.mem_of_find?_eq_some h)⟩

end SigSet

structure SignalAction where
  handler : Nat
  flags : Nat
  mask : SigSet

def unmaskable (sig : Nat) : Bool := sig == SIGKILL || sig == SIGSTOP

/-- The part of a task that signals are about. -/
structure ThreadSig where
  pending : SigSet
  blocked : SigSet
  sigsuspendSavedMask : Option SigSet
  termSignal : Option Nat
  frozen : Bool

/-- What has become of a signal. -/
inductive Outcome where
  | dropped
  | ran
  | marked
deriving DecidableEq

namespace ThreadSig

variable (th : ThreadSig)

/-- SIGKILL and SIGSTOP cannot be blocked. -/
def unmasked : ThreadSig := { th with blocked := fun sig => th.blocked sig && !unmaskable sig }

/-- What is pending and not blocked. -/
def deliverable (shared : SigSet) : SigSet := fun sig => (th.pending sig || shared sig) && !th.blocked sig

/-- The mask from before `sigsuspend` is put back. -/
def restoreMask : ThreadSig := { th with blocked := th.sigsuspendSavedMask.getD th.blocked, sigsuspendSavedMask := none }

def mark (sig : Nat) : ThreadSig := { th with termSignal := some (sig + 1) }

/-- The default actions. -/
def byDefault (sig : Nat) : ThreadSig × Outcome :=
  if sig = SIGCHLD ∨ sig = SIGURG ∨ sig = SIGWINCH then (th, .dropped)
  else if sig = SIGSTOP then ({ th with frozen := true }, .dropped)
  else if sig = SIGCONT then ({ th with frozen := false }, .dropped)
  else (th.mark sig, .marked)

/-- The masks while a handler runs. -/
def blockFor (sig : Nat) (action : SignalAction) : ThreadSig :=
  { th with
    sigsuspendSavedMask := none
    blocked := fun s => th.blocked s || action.mask s || (action.flags &&& SA_NODEFER == 0 && s == sig) }

/-- `frameOk` says whether the frame could be written to the user's stack. -/
def callSignalHandler (action : SignalAction) (frameOk : Bool) (sig : Nat) : ThreadSig × Outcome :=
  if action.handler = SIG_IGN then (th.restoreMask, .dropped)
  else if action.handler ≠ SIG_DFL then
    if frameOk then (th.blockFor sig action, .ran) else ((th.blockFor sig action).mark sig, .marked)
  else th.restoreMask.byDefault sig

end ThreadSig

end ShellCore.Task
