import ShellCore.Task.Signal

/-!
# Blocked signals

The ways in which a signal reaches a thread group, and what a signal that every thread blocks can do. `kill` looks at
the action alone: where that is the default and the default terminates, it marks every thread at once. For a process
group it finds only processes whose numbers it tries, from 2 to 4095.
-/

namespace ShellCore.Task

structure SignalGroup (τ : Type) where
  /-- The number of the process. -/
  pid : Nat
  /-- The threads of the group in the table of tasks. -/
  threads : List τ
  shared : SigSet
  thread : τ → ThreadSig
  action : Nat → SignalAction

inductive SigHow where
  | block
  | unblock
  | setmask

inductive SigCmd (τ : Type) where
  /-- `kill` with the number of the process. -/
  | kill (sig : Nat)
  /-- `kill` with the number of its process group. -/
  | killpg (sig : Nat)
  | tkill (t : τ) (sig : Nat)
  | alarm
  | timer (t : τ) (sig : Nat)
  | handleSignals (t : τ) (frameOk : Bool)
  | sigprocmask (t : τ) (how : SigHow) (set : SigSet)
  | sigsuspend (t : τ) (mask : SigSet)
  /-- `sigsuspend` returns. -/
  | sigsuspended (t : τ) (original : SigSet)
  /-- The mask of a signal frame, or one that a call has put in place for a time. -/
  | setMask (t : τ) (mask : SigSet)
  | sigaction (sig : Nat) (action : SignalAction)

def defaultSignalTerminates (sig : Nat) : Bool :=
  !(sig == SIGCHLD || sig == SIGURG || sig == SIGWINCH || sig == SIGSTOP || sig == SIGCONT)

namespace SignalGroup

variable {τ : Type} [DecidableEq τ]

/-- A call and what has become of which signal in which thread. -/
abbrev Done (τ : Type) := SignalGroup τ × List (τ × Nat × Outcome)

variable (g : SignalGroup τ) (t : τ)

def setThread (th : ThreadSig) : SignalGroup τ :=
  { g with thread := Function.update g.thread t th }

variable (sig : Nat)

def shouldForceDefaultSignalExit : Bool :=
  sig == SIGKILL || (g.action sig).handler == SIG_DFL && defaultSignalTerminates sig

/-- `kill`, for the process itself and as a member of a process group. -/
def killGroup : Done τ :=
  if sig < MAX_SIG then
    if g.shouldForceDefaultSignalExit sig then
      ({ g with shared := g.shared.insert sig
                thread := fun t => if t ∈ g.threads then (g.thread t).mark sig else g.thread t },
        g.threads.map fun t => (t, sig, .marked))
    else ({ g with shared := g.shared.insert sig }, [])
  else (g, [])

def sysKill : Done τ := g.killGroup sig

/-- `kill` of the process group, as far as this member of it is concerned. -/
def sysKillpg : Done τ := if 2 ≤ g.pid ∧ g.pid < 4096 then g.killGroup sig else (g, [])

/-- A signal for one thread. -/
def queue : SignalGroup τ :=
  g.setThread t { g.thread t with pending := (g.thread t).pending.insert sig }

def sysTkill : Done τ := (if sig < MAX_SIG then g.queue t sig else g, [])

def queueTimerSignal : Done τ := (g.queue t sig, [])

/-- An alarm goes to every thread. -/
def checkTimers : Done τ := (g.threads.foldl (fun g t => g.queue t SIGALRM) g, [])

def handleSignals (frameOk : Bool) : Done τ :=
  let th := (g.thread t).unmasked
  match (th.deliverable g.shared).first with
  | none => (g.setThread t th.restoreMask, [])
  | some sig =>
    if th.pending sig then
      let done := ({ th with pending := th.pending.remove sig }).callSignalHandler (g.action sig) frameOk sig
      (g.setThread t done.1, [(t, sig, done.2)])
    else
      let done := th.callSignalHandler (g.action sig) frameOk sig
      ({ g with shared := g.shared.remove sig }.setThread t done.1, [(t, sig, done.2)])

def setBlocked (mask : SigSet) : SignalGroup τ :=
  g.setThread t { g.thread t with blocked := mask }

def sysSigprocmask (set : SigSet) : SigHow → SignalGroup τ
  | .block => g.setBlocked t fun sig => (g.thread t).blocked sig || set sig
  | .unblock => g.setBlocked t fun sig => (g.thread t).blocked sig && !set sig
  | .setmask => g.setBlocked t set

def step : SigCmd τ → Done τ
  | .kill sig => g.sysKill sig
  | .killpg sig => g.sysKillpg sig
  | .tkill t sig => g.sysTkill t sig
  | .alarm => g.checkTimers
  | .timer t sig => g.queueTimerSignal t sig
  | .handleSignals t frameOk => if t ∈ g.threads then g.handleSignals t frameOk else (g, [])
  | .sigprocmask t how set => (g.sysSigprocmask t set how, [])
  | .sigsuspend t mask => (g.setBlocked t fun sig => mask sig && !unmaskable sig, [])
  | .sigsuspended t original => (g.setThread t { g.thread t with sigsuspendSavedMask := some original }, [])
  | .setMask t mask => (g.setBlocked t mask, [])
  | .sigaction sig action => ({ g with action := Function.update g.action sig action }, [])

/-- The calls one after the other. -/
def run (g : SignalGroup τ) : List (SigCmd τ) → Done τ
  | [] => (g, [])
  | cmd :: rest => ((run (g.step cmd).1 rest).1, (g.step cmd).2 ++ (run (g.step cmd).1 rest).2)

/-! ## What a blocked signal does -/

/-- Every thread blocks the signal. -/
def Blocks : Prop := ∀ t ∈ g.threads, (g.thread t).blocked sig = true

/-- A thread is marked for termination, or runs a handler, because of the signal. -/
def Affects (cmd : SigCmd τ) (sig : Nat) : Prop :=
  ∃ t outcome, (t, sig, outcome) ∈ (g.step cmd).2 ∧ outcome ≠ .dropped

/-- The call terminates the group by default, without a look at the masks. -/
def Forces (cmd : SigCmd τ) (sig : Nat) : Prop :=
  (cmd = .kill sig ∨ cmd = .killpg sig ∧ 2 ≤ g.pid ∧ g.pid < 4096) ∧ (g.action sig).handler = SIG_DFL ∧
    defaultSignalTerminates sig = true

/-- Up to the last call every thread blocks the signal, and no call terminates the group without a look at that. -/
def BlockedRun (g : SignalGroup τ) (sig : Nat) : List (SigCmd τ) → Prop
  | [] => True
  | cmd :: rest => g.Blocks sig ∧ ¬g.Forces cmd sig ∧ BlockedRun (g.step cmd).1 sig rest

variable {g g' : SignalGroup τ} {cmd : SigCmd τ} {sig sig' : Nat} {t : τ} {frameOk : Bool}

omit [DecidableEq τ] in
/-- What is handled is not blocked. -/
theorem handled_not_blocked {th : ThreadSig} (hsig : unmaskable sig = false) (hblocked : th.blocked sig = true)
    (h : (th.unmasked.deliverable g.shared).first = some sig') : sig' ≠ sig := by
  rintro rfl
  have hmem := (SigSet.mem_of_first h).1
  simp [ThreadSig.deliverable, ThreadSig.unmasked, hblocked, hsig] at hmem

theorem handleSignals_effects (hsig : unmaskable sig = false) (hblocked : (g.thread t).blocked sig = true)
    {u : τ} {outcome : Outcome} : (u, sig, outcome) ∉ (g.handleSignals t frameOk).2 := by
  intro hmem
  unfold handleSignals at hmem
  simp only at hmem
  split at hmem
  · cases hmem
  · rename_i sig' hfirst
    have hne := handled_not_blocked hsig hblocked hfirst
    split at hmem <;> simp only [List.mem_singleton, Prod.mk.injEq] at hmem <;> exact hne hmem.2.1.symm

theorem killGroup_effects (hkill : sig ≠ SIGKILL) (hlt : sig < MAX_SIG) :
    (∃ t outcome, (t, sig, outcome) ∈ (g.killGroup sig').2 ∧ outcome ≠ .dropped) ↔
      sig' = sig ∧ (g.action sig).handler = SIG_DFL ∧ defaultSignalTerminates sig = true ∧ g.threads ≠ [] := by
  unfold killGroup shouldForceDefaultSignalExit
  constructor
  · rintro ⟨t, outcome, hmem, -⟩
    split at hmem
    · split at hmem
      · rename_i hforce
        obtain ⟨u, hu, heq⟩ := List.mem_map.1 hmem
        simp only [Prod.mk.injEq] at heq
        obtain ⟨-, rfl, -⟩ := heq
        simp only [Bool.or_eq_true, beq_iff_eq, hkill, false_or, Bool.and_eq_true] at hforce
        exact ⟨rfl, hforce.1, hforce.2, List.ne_nil_of_mem hu⟩
      · cases hmem
    · cases hmem
  · rintro ⟨rfl, hdfl, hterm, hne⟩
    obtain ⟨t, ht⟩ := List.exists_mem_of_ne_nil _ hne
    refine ⟨t, .marked, ?_, by decide⟩
    rw [if_pos hlt, if_pos (by simp [hdfl, hterm])]
    exact List.mem_map.2 ⟨t, ht, rfl⟩

theorem sysKillpg_effects (hkill : sig ≠ SIGKILL) (hlt : sig < MAX_SIG) :
    (∃ t outcome, (t, sig, outcome) ∈ (g.sysKillpg sig').2 ∧ outcome ≠ .dropped) ↔ (2 ≤ g.pid ∧ g.pid < 4096) ∧
      sig' = sig ∧ (g.action sig).handler = SIG_DFL ∧ defaultSignalTerminates sig = true ∧ g.threads ≠ [] := by
  rw [sysKillpg]
  split
  · rename_i hpid
    rw [killGroup_effects hkill hlt, and_iff_right hpid]
  · rename_i hpid
    simp [hpid]

theorem forces_of_affects (hkill : sig ≠ SIGKILL) (hstop : sig ≠ SIGSTOP) (hlt : sig < MAX_SIG) (hblocks : g.Blocks sig)
    (h : g.Affects cmd sig) : g.Forces cmd sig ∧ g.threads ≠ [] := by
  have hunmask : unmaskable sig = false := by simp [unmaskable, hkill, hstop]
  cases cmd with
  | kill sig' =>
    obtain ⟨rfl, hdfl, hterm, hne⟩ := (killGroup_effects hkill hlt).1 h
    exact ⟨⟨.inl rfl, hdfl, hterm⟩, hne⟩
  | killpg sig' =>
    obtain ⟨hpid, rfl, hdfl, hterm, hne⟩ := (sysKillpg_effects hkill hlt).1 h
    exact ⟨⟨.inr ⟨rfl, hpid⟩, hdfl, hterm⟩, hne⟩
  | handleSignals t frameOk =>
    obtain ⟨u, outcome, hmem, -⟩ := h
    simp only [step] at hmem
    split at hmem
    · rename_i ht
      exact absurd hmem (handleSignals_effects hunmask (hblocks t ht))
    · cases hmem
  | _ =>
    obtain ⟨u, outcome, hmem, -⟩ := h
    cases hmem

/-- A signal that every thread blocks affects the group in one case only: it is sent with `kill` to the process, or to
its process group and the number of the process is tried, its action is the default and the default terminates. In a run
without such a call nothing comes of it, up to the first call that unblocks it. -/
theorem blocked_signal_affects_iff (hkill : sig ≠ SIGKILL) (hstop : sig ≠ SIGSTOP) (hlt : sig < MAX_SIG) :
    (∀ (g : SignalGroup τ) cmd, g.Blocks sig → (g.Affects cmd sig ↔ g.Forces cmd sig ∧ g.threads ≠ [])) ∧
    ∀ (g : SignalGroup τ) cmds, g.BlockedRun sig cmds →
      ∀ t outcome, (t, sig, outcome) ∈ (g.run cmds).2 → outcome = .dropped := by
  refine ⟨fun g cmd hblocks => ⟨forces_of_affects hkill hstop hlt hblocks, ?_⟩, fun g cmds => ?_⟩
  · rintro ⟨⟨rfl | ⟨rfl, hpid⟩, hdfl, hterm⟩, hne⟩
    · exact (killGroup_effects hkill hlt).2 ⟨rfl, hdfl, hterm, hne⟩
    · exact (sysKillpg_effects hkill hlt).2 ⟨hpid, rfl, hdfl, hterm, hne⟩
  · induction cmds generalizing g with
    | nil => simp [run]
    | cons cmd cmds ih =>
      rintro ⟨hblocks, hforces, hrest⟩ t outcome hmem
      rcases List.mem_append.1 hmem with hnow | hlater
      · by_contra hne
        exact hforces (forces_of_affects hkill hstop hlt hblocks ⟨t, outcome, hnow, hne⟩).1
      · exact ih _ hrest t outcome hlater

/-- SIGTERM. -/
def termination : Nat := 14

def noSignals : SigSet := fun _ => false

/-- One thread that blocks SIGTERM; `handler` is the action for it. -/
def blocking (pid handler : Nat) : SignalGroup Unit where
  pid
  threads := [()]
  shared := noSignals
  thread _ := ⟨noSignals, SigSet.insert noSignals termination, none, none, false⟩
  action _ := ⟨handler, 0, noSignals⟩

/-- SIGTERM is sent to the process while there is a handler for it, and then to the thread, by a timer and to the process
group. -/
def whileBlocked : List (SigCmd Unit) :=
  [.kill termination, .sigaction termination ⟨SIG_DFL, 0, noSignals⟩, .tkill () termination, .handleSignals () true,
    .timer () termination, .killpg termination, .handleSignals () true]

/-- `blocked_signal_affects_iff` for a process whose number is not tried. -/
theorem blocked_signal_affects_iff_handler : ¬(blocking 1 0x1000).Affects (.kill termination) termination ∧
    ∀ outcome, ((), termination, outcome) ∈ ((blocking 1 0x1000).run whileBlocked).2 → outcome = .dropped := by
  obtain ⟨hcall, hrun⟩ := @blocked_signal_affects_iff Unit _ termination (by decide) (by decide) (by decide)
  have hblocks : ∀ g : SignalGroup Unit, (g.thread ()).blocked termination = true → g.Blocks termination :=
    fun _ h _ _ => h
  constructor
  · rw [hcall _ _ (hblocks _ (by decide))]
    rintro ⟨⟨-, hdfl, -⟩, -⟩
    cases hdfl
  · refine hrun _ whileBlocked ?_ ()
    simp only [whileBlocked, BlockedRun, Forces, reduceCtorEq, false_or, false_and, or_false, not_false_eq_true, true_and]
    exact ⟨hblocks _ (by decide), by decide, hblocks _ (by decide), hblocks _ (by decide), hblocks _ (by decide),
      hblocks _ (by decide), hblocks _ (by decide), by decide, hblocks _ (by decide), trivial⟩

/-- `kill` with SIGTERM marks a thread that blocks it. -/
theorem kill_marks_blocked : (blocking 7 SIG_DFL).Blocks termination ∧
    (((blocking 7 SIG_DFL).step (.kill termination)).1.thread ()).termSignal = some 15 ∧
    (((blocking 7 SIG_DFL).step (.killpg termination)).1.thread ()).termSignal = some 15 ∧
    (((blocking 7 SIG_DFL).step (.kill termination)).1.thread ()).blocked termination = true :=
  ⟨fun _ _ => rfl, by decide, by decide, by decide⟩

end SignalGroup

end ShellCore.Task
