import ShellCore.Lib.Actors
import ShellCore.Lib.Waiting
import ShellCore.Sched.WaitQueue

/-!
# Reads of datagram sockets

Tasks read UDP and raw sockets. Packets come from the network stack, which `net_poll` runs, and for a raw socket also
through its own loopback queue. A reader that finds nothing lets go of the locks, polls, and goes to sleep on the socket's
wait queue. A section under one lock is one step; `net_poll` holds the socket set from its start to its end.
-/

namespace ShellCore.Net

open Function

open Sched (Sleep)

/-- What follows `net_poll`: the call returns, or the reader of a socket goes to sleep. -/
inductive After (κ : Type) where
  | user
  | block (k : κ)
deriving DecidableEq

/-- Where a task stands. -/
inductive Pc (κ τ : Type) where
  | user
  /-- `read`: before the loopback queue and before the network stack is looked at. -/
  | readLocal (k : κ)
  | readSmol (k : κ)
  /-- `try_recv_packet` and `recvfrom`, in the same order. -/
  | recvLocal (k : κ)
  | recvSmol (k : κ)
  /-- `net_poll`: before the locks, in the loop over the sockets, and in `wake_up_one` before a task is popped, before its
  state is looked at and before `wake_up_task`. -/
  | pollStart (after : After κ)
  | pollNext (rest : List κ) (after : After κ)
  | pollWake (k : κ) (rest : List κ) (after : After κ)
  | pollPopped (t : τ) (k : κ) (rest : List κ) (after : After κ)
  | pollTask (t : τ) (rest : List κ) (after : After κ)
  /-- `block_current_and_run_next`: before the task's state is set, before the task is queued, asleep, and after it. -/
  | saving (k : κ)
  | pushing (k : κ)
  | waiting (k : κ)
  | removing (k : κ)
  /-- `send_packet` over the loopback queue: before `wake_up_all_mp` takes the tasks off the queue, and before it wakes
  them up. -/
  | sendWake (k : κ)
  | sendTasks (tasks : List τ)
deriving DecidableEq

def After.pc {κ τ : Type} : After κ → Pc κ τ
  | user => .user
  | block k => .saving k

/-- What a task does. `packets` are what the network stack takes in, if the step is the start of `net_poll`. -/
inductive Cmd (κ τ α : Type) where
  | read (k : κ)
  | recv (k : κ)
  | send (k : κ) (packet : α)
  | netPoll
  | signal (t : τ)
  | next (packets : List (κ × α))
deriving DecidableEq

structure Sockets (κ τ α : Type) where
  /-- A raw socket, or else a UDP one. -/
  raw : κ → Bool
  /-- What the network stack holds for the socket. -/
  smol : κ → List α
  /-- `local_rx_buffer`. -/
  localRx : κ → List α
  /-- `rx_queue`. -/
  waiters : κ → List τ
  sleep : τ → Sleep
  pc : τ → Pc κ τ
  /-- Who holds the socket set in `net_poll`. -/
  socketSet : Option τ

namespace Sockets

variable {κ τ α : Type} [DecidableEq κ] [DecidableEq τ]

def init (raw : κ → Bool) : Sockets κ τ α where
  raw := raw
  smol _ := []
  localRx _ := []
  waiters _ := []
  sleep _ := .awake
  pc _ := .user
  socketSet := none

variable (s : Sockets κ τ α) (t : τ)

def goto (pc : Pc κ τ) : Sockets κ τ α := { s with pc := update s.pc t pc }

def setSleep (sleep : Sleep) : Sockets κ τ α :=
  { s with sleep := update s.sleep t sleep }

variable (k : κ)

def setWaiters (queue : List τ) : Sockets κ τ α :=
  { s with waiters := update s.waiters k queue }

def setLocal (packets : List α) : Sockets κ τ α :=
  { s with localRx := update s.localRx k packets }

def setSmol (packets : List α) : Sockets κ τ α :=
  { s with smol := update s.smol k packets }

/-- The interfaces are polled: each packet goes to its socket. -/
def takeIn (packets : List (κ × α)) : Sockets κ τ α :=
  packets.foldl (fun s p => s.setSmol p.1 (s.smol p.1 ++ [p.2])) s

/-- The look at the loopback queue: the first packet is returned, or the task goes on. -/
def takeLocal (go : Pc κ τ) : Sockets κ τ α :=
  match s.localRx k with
  | _ :: packets => (s.setLocal k packets).goto t .user
  | [] => s.goto t go

/-- The look at the network stack, when nobody polls. -/
def takeSmol (found go : Pc κ τ) : Option (Sockets κ τ α) :=
  match s.socketSet, s.smol k with
  | some _, _ => none
  | none, _ :: packets => some ((s.setSmol k packets).goto t found)
  | none, [] => some (s.goto t go)

/-- The state of a task that `wake_up_one` has popped. -/
def look (t u : τ) (k : κ) (rest : List κ) (after : After κ) : Sockets κ τ α :=
  match s.sleep u with
  | .saving _ => (s.setSleep u (.saving true)).goto t (.pollNext rest after)
  | .blocked => s.goto t (.pollTask u rest after)
  | _ => s.goto t (.pollWake k rest after)

/-- `handles` are the sockets in the order of the socket set. -/
def next (handles : List κ) (s : Sockets κ τ α) (t : τ) (packets : List (κ × α)) : Option (Sockets κ τ α) :=
  match s.pc t with
  | .user => none
  | .readLocal k => some (s.takeLocal t k (.readSmol k))
  | .readSmol k => s.takeSmol t k (if s.raw k then .user else .pollStart .user) (.pollStart (.block k))
  | .recvLocal k => some (s.takeLocal t k (.recvSmol k))
  | .recvSmol k => s.takeSmol t k .user .user
  | .pollStart after =>
    match s.socketSet with
    | some _ => none
    | none => some ({ s.takeIn packets with socketSet := some t }.goto t (.pollNext handles after))
  | .pollNext [] after => some ({ s with socketSet := none }.goto t after.pc)
  | .pollNext (k :: rest) after =>
    some (s.goto t (if (s.smol k).isEmpty || (s.waiters k).isEmpty then .pollNext rest after else .pollWake k rest after))
  | .pollWake k rest after =>
    match s.waiters k with
    | [] => some (s.goto t (.pollNext rest after))
    | u :: queue => some ((s.setWaiters k queue).goto t (.pollPopped u k rest after))
  | .pollPopped u k rest after => some (s.look t u k rest after)
  | .pollTask u rest after => some ((s.setSleep u (s.sleep u).wake).goto t (.pollNext rest after))
  | .saving k => some ((s.setSleep t (.saving false)).goto t (.pushing k))
  | .pushing k => some ((s.setWaiters k (s.waiters k ++ [t])).goto t (.waiting k))
  | .waiting k =>
    match s.sleep t with
    | .saving pending => some (s.setSleep t (Sleep.saving pending).commit)
    | .ready => some ((s.setSleep t .awake).goto t (if s.raw k then .readLocal k else .removing k))
    | _ => none
  | .removing k => some ((s.setWaiters k ((s.waiters k).filter (· ≠ t))).goto t (.readSmol k))
  | .sendWake k => some ((s.setWaiters k []).goto t (.sendTasks (s.waiters k)))
  | .sendTasks [] => some (s.goto t .user)
  | .sendTasks (u :: tasks) => some ((s.setSleep u (s.sleep u).wake).goto t (.sendTasks tasks))

def isUser : Bool :=
  match s.pc t with
  | .user => true
  | _ => false

def step (handles : List κ) (s : Sockets κ τ α) (t : τ) : Cmd κ τ α → Option (Sockets κ τ α)
  | .read k => if s.isUser t then some (s.goto t (if s.raw k then .readLocal k else .readSmol k)) else none
  | .recv k => if s.isUser t then some (s.goto t (if s.raw k then .recvLocal k else .recvSmol k)) else none
  | .send k packet =>
    if s.isUser t && s.raw k then some ((s.setLocal k (s.localRx k ++ [packet])).goto t (.sendWake k)) else none
  | .netPoll => if s.isUser t then some (s.goto t (.pollStart .user)) else none
  | .signal u => some (s.setSleep u (s.sleep u).wake)
  | .next packets => s.next handles t packets

def Step (handles : List κ) (s s' : Sockets κ τ α) : Prop := ∃ t cmd, s.step handles t cmd = some s'

def run (handles : List κ) : Sockets κ τ α → List (τ × Cmd κ τ α) → Option (Sockets κ τ α) := runCalls (·.step handles)

end Sockets

end ShellCore.Net
