import ShellCore.Net.Socket

/-!
# Readers that miss a packet

While the network stack holds a packet for a socket, every run of `net_poll` wakes up the first sleeper of its queue, and
every blocked reader is in the queue or about to be woken up. `net_poll` does not look at the loopback queue: a packet that
comes there after the reader has looked and before it is queued wakes nobody up.
-/

namespace ShellCore.Net

open Function Relation Option List

open Sched (Sleep)

variable {κ τ α : Type}

namespace Pc

/-- The socket on whose queue a task sleeps. -/
def waitsOn : Pc κ τ → Option κ
  | waiting k => some k
  | _ => none

/-- The tasks that a wake-up has taken off a queue. -/
def hand : Pc κ τ → List τ
  | pollPopped u _ _ _ | pollTask u _ _ => [u]
  | sendTasks tasks => tasks
  | _ => []

/-- The socket whose readers are to be woken up. -/
def owes : Pc κ τ → Option κ
  | sendWake k => some k
  | _ => none

/-- The task has nobody to wake up. -/
def Idle (p : Pc κ τ) : Prop := p.hand = [] ∧ p.owes = none

end Pc

def After.gap : After κ → Option κ
  | user => none
  | block k => some k

/-- The reader of this socket has seen that the loopback queue is empty, and is not yet queued. -/
def Pc.gap : Pc κ τ → Option κ
  | readSmol k | saving k | pushing k | removing k => some k
  | pollStart after | pollNext _ after | pollWake _ _ after | pollPopped _ _ _ after | pollTask _ _ after => after.gap
  | _ => none

@[simp] theorem After.gap_pc (after : After κ) : (after.pc : Pc κ τ).gap = after.gap := by
  cases after <;> rfl

@[simp] theorem After.waitsOn_pc (after : After κ) : (after.pc : Pc κ τ).waitsOn = none := by
  cases after <;> rfl

variable {k : κ} {l : List (τ × Cmd κ τ α)} {u : τ} {queue : List τ} {sleep : Sleep} {packets : List (κ × α)}
  {s : Sockets κ τ α} {found go : Pc κ τ}

namespace Sockets

/-- A socket is calm if `calm` holds of its loopback queue. -/
def view (calm : List α → Prop) (s : Sockets κ τ α) : WaitView τ κ :=
  .ofActors Pc.waitsOn (fun p u => u ∈ p.hand) (fun p k => p.owes = some k) s.pc (fun t => (s.sleep t).waits = true) s.waiters
    fun k => calm (s.localRx k)

/-- A reader looks at the loopback queue before it goes to sleep, and no UDP socket has one. -/
structure Quiet (s : Sockets κ τ α) : Prop where
  udp : ∀ k, s.raw k = false → s.localRx k = []
  gap : ∀ t k, (s.pc t).gap = some k → s.localRx k = []

variable [DecidableEq κ] [DecidableEq τ] {s s' s₁ : Sockets κ τ α} {t : τ} {p : Pc κ τ} {cmd : Cmd κ τ α} {handles : List κ}

section

omit [DecidableEq κ]

@[simp] theorem goto_pc_self : (s.goto t p).pc t = p := update_self ..

@[simp] theorem setSleep_sleep_self (sleep : Sleep) : (s.setSleep t sleep).sleep t = sleep := update_self ..

theorem setSleep_sleep_of_ne (sleep : Sleep) (h : u ≠ t) : (s.setSleep t sleep).sleep u = s.sleep u :=
  update_of_ne h ..

end

section

omit [DecidableEq τ]

@[simp] theorem setWaiters_waiters_self (k : κ) (queue : List τ) : (s.setWaiters k queue).waiters k = queue :=
  update_self ..

theorem setWaiters_waiters_of_ne {k k' : κ} (queue : List τ) (h : k' ≠ k) : (s.setWaiters k queue).waiters k' = s.waiters k' :=
  update_of_ne h ..

theorem setLocal_localRx_of_ne {k k' : κ} (packets : List α) (h : k' ≠ k) :
    (s.setLocal k packets).localRx k' = s.localRx k' :=
  update_of_ne h ..

end

/-! ## The loopback queue -/

variable (h : s.Quiet)

include h

omit [DecidableEq κ] in
/-- A task goes on; it has looked at the loopback queue if it is in the gap. -/
theorem Quiet.goto (hraw : s₁.raw = s.raw) (hlocal : s₁.localRx = s.localRx) (hpc : s₁.pc = s.pc)
    (hp : ∀ k, p.gap = some k → s.localRx k = []) : (s₁.goto t p).Quiet := by
  refine ⟨?_, fun u => forall_update (motive := fun _ (q : Pc κ τ) => ∀ k, q.gap = some k → s₁.localRx k = []) u (hlocal ▸ hp) ?_⟩
  · show ∀ k, s₁.raw k = false → s₁.localRx k = []
    rw [hraw, hlocal]
    exact h.udp
  · rw [hpc, hlocal]
    exact h.gap

omit [DecidableEq κ] in
theorem Quiet.setSleep (u : τ) (sleep : Sleep) : (s.setSleep u sleep).Quiet := ⟨h.udp, h.gap⟩

omit [DecidableEq κ] [DecidableEq τ] in
/-- A reader starts with the loopback queue of a raw socket. -/
theorem Quiet.gap_look (hp : p.gap = some k) (k' : κ)
    (hk' : (if s.raw k then .readLocal k else p).gap = some k') : s.localRx k' = [] := by
  split at hk'
  case isTrue => cases hk'
  case isFalse hraw =>
    obtain rfl := some.inj (hp.symm.trans hk')
    exact h.udp k (Bool.eq_false_iff.2 hraw)

/-- The loopback queue of a raw socket changes while no reader of it is in the gap. -/
theorem Quiet.setLocal (packets : List α) (hp : p.gap = none) (hraw : s.raw k ≠ false)
    (hgap : ∀ u, (s.pc u).gap ≠ some k) : ((s.setLocal k packets).goto t p).Quiet := by
  have hkeep : ∀ k', k' ≠ k → s.localRx k' = [] → (s.setLocal k packets).localRx k' = [] :=
    fun k' hne hk' => (setLocal_localRx_of_ne _ hne).trans hk'
  refine ⟨fun k' hk' => hkeep k' ?_ (h.udp k' hk'), fun u => forall_update (motive := fun _ (q : Pc κ τ) => ∀ k', q.gap = some k' → (s.setLocal k packets).localRx k' = []) u (by simp [hp])
    fun u k' hu => hkeep k' ?_ (h.gap u k' hu)⟩
  · rintro rfl
    exact hraw hk'
  · rintro rfl
    exact hgap u hu

theorem Quiet.takeLocal {go : Pc κ τ} (hgo : ∀ k', go.gap = some k' → k' = k) : (s.takeLocal t k go).Quiet := by
  unfold Sockets.takeLocal
  split
  case h_1 x packets hk =>
    have hne : s.localRx k ≠ [] := by simp [hk]
    exact h.setLocal packets rfl (fun hraw => hne (h.udp k hraw)) fun u hu => hne (h.gap u k hu)
  case h_2 hk =>
    refine h.goto rfl rfl rfl fun k' hk' => ?_
    rw [hgo k' hk', hk]

theorem Quiet.takeSmol (hfound : found.gap = none)
    (hgo : ∀ k', go.gap = some k' → s.localRx k' = []) (hstep : s.takeSmol t k found go = some s') : s'.Quiet := by
  unfold Sockets.takeSmol at hstep
  split at hstep
  · cases hstep
  · cases hstep
    exact h.goto rfl rfl rfl (by simp [hfound])
  · cases hstep
    exact h.goto rfl rfl rfl hgo

omit h [DecidableEq τ] in
/-- What the network stack takes in changes its own queues only. -/
theorem takeIn_eq (s : Sockets κ τ α) (packets : List (κ × α)) : ∃ smol, s.takeIn packets = { s with smol := smol } := by
  unfold takeIn
  induction packets generalizing s with
  | nil => exact ⟨s.smol, rfl⟩
  | cons p packets ih =>
    obtain ⟨smol, h⟩ := ih (s.setSmol p.1 (s.smol p.1 ++ [p.2]))
    exact ⟨smol, h⟩

omit h [DecidableEq κ] [DecidableEq τ] in
theorem idle_of_isUser (h : s.isUser t = true) : (s.pc t).Idle := by
  unfold isUser at h
  split at h
  case h_1 hpc => exact hpc ▸ ⟨rfl, rfl⟩
  · cases h

/-- No packet is sent over the loopback queue of a socket while a reader of it is between its look at the queue and the wait
queue. -/
def Orderly (s : Sockets κ τ α) : Cmd κ τ α → Prop
  | .send k _ => ∀ u, (s.pc u).gap ≠ some k
  | _ => True

theorem Quiet.next (hstep : s.next handles t packets = some s') : s'.Quiet := by
  have hgap := h.gap t
  unfold Sockets.next at hstep
  cases hpc : s.pc t <;> simp only [hpc] at hstep hgap
  case user => cases hstep
  case readLocal | recvLocal =>
    cases hstep
    exact h.takeLocal (by simp [Pc.gap])
  case readSmol k =>
    refine h.takeSmol ?_ ?_ hstep
    · split <;> rfl
    · exact hgap
  case recvSmol k => exact h.takeSmol rfl (by simp [Pc.gap]) hstep
  case pollStart after =>
    split at hstep
    · cases hstep
    · cases hstep
      obtain ⟨smol, hsmol⟩ := takeIn_eq s packets
      rw [hsmol]
      exact h.goto rfl rfl rfl hgap
  case pollNext rest after =>
    cases rest with
    | nil =>
      cases hstep
      exact h.goto rfl rfl rfl fun k hk => hgap k (after.gap_pc.symm.trans hk)
    | cons k rest =>
      cases hstep
      refine h.goto rfl rfl rfl ?_
      split <;> exact hgap
  case pollWake k rest after =>
    split at hstep <;> cases hstep <;> exact h.goto rfl rfl rfl hgap
  case pollPopped u k rest after =>
    cases hstep
    unfold look
    split <;> exact h.goto rfl rfl rfl hgap
  case pollTask | saving | removing =>
    cases hstep
    exact h.goto rfl rfl rfl hgap
  case pushing | sendWake =>
    cases hstep
    exact h.goto rfl rfl rfl (by simp [Pc.gap])
  case waiting k =>
    split at hstep
    · cases hstep
      exact h.setSleep t _
    · cases hstep
      exact h.goto rfl rfl rfl (h.gap_look rfl)
    · cases hstep
  case sendTasks tasks => cases tasks <;> cases hstep <;> exact h.goto rfl rfl rfl (by simp [Pc.gap])

theorem Quiet.step (ho : s.Orderly cmd) (hstep : s.step handles t cmd = some s') : s'.Quiet := by
  cases cmd with
  | read k =>
    obtain ⟨-, rfl⟩ := of_guard hstep
    exact h.goto rfl rfl rfl (h.gap_look rfl)
  | recv k =>
    obtain ⟨-, rfl⟩ := of_guard hstep
    refine h.goto rfl rfl rfl ?_
    split <;> simp [Pc.gap]
  | send k packet =>
    obtain ⟨hcond, rfl⟩ := of_guard hstep
    exact h.setLocal _ rfl (by simp [(Bool.and_eq_true_iff.1 hcond).2]) ho
  | netPoll =>
    obtain ⟨-, rfl⟩ := of_guard hstep
    exact h.goto rfl rfl rfl (by simp [Pc.gap, After.gap])
  | signal u =>
    cases hstep
    exact h.setSleep u _
  | next packets => exact h.next hstep

/-! ## Who waits and who wakes -/

variable {calm : List α → Prop}

omit h

section

omit [DecidableEq κ]

/-- A step of `t` that puts nobody to sleep and changes no queue. -/
theorem follows_goto (hpc : s₁.pc = s.pc) (hq : s₁.waiters = s.waiters)
    (hsleep : ∀ u, u ≠ t → (s₁.sleep u).waits = true → (s.sleep u).waits = true) (hwait : p.waitsOn = none)
    (hhand : ∀ u, u ∈ (s.pc t).hand → u ∈ p.hand ∨ (s₁.sleep u).waits = false) (howes : (s.pc t).owes = none)
    (hcalm : ∀ k, calm (s.localRx k) → calm (s₁.localRx k) ∨ p.owes = some k) :
    (s.view calm).Follows ((s₁.goto t p).view calm) t := by
  unfold view
  rw [← hpc] at hhand howes ⊢
  rw [← hq]
  exact WaitView.follows_update hwait hsleep (fun _ _ _ => .inl) (fun _ _ => id) (fun u h => (hhand u h).imp_right Bool.eq_false_iff.1)
    (by simp [howes]) hcalm

/-- A step that changes neither queues nor sleepers. -/
theorem follows_move (hpc : s₁.pc = s.pc) (hsleep : s₁.sleep = s.sleep) (hq : s₁.waiters = s.waiters)
    (hlocal : ∀ k, calm (s.localRx k) → calm (s₁.localRx k)) (hwait : p.waitsOn = none)
    (hhand : ∀ u, u ∈ (s.pc t).hand → u ∈ p.hand ∨ (s.sleep u).waits = false) (howes : (s.pc t).owes = none) :
    (s.view calm).Follows ((s₁.goto t p).view calm) t := by
  refine follows_goto hpc hq (fun u _ h => hsleep ▸ h) hwait ?_ howes fun k h => .inl (hlocal k h)
  rw [hsleep]
  exact hhand

/-- Such a step of a task that has nobody to wake up. -/
theorem follows_idle (hi : (s.pc t).Idle) {smol : κ → List α} {lock : Option τ} (hwait : p.waitsOn = none) :
    (s.view calm).Follows (({ s with smol := smol, socketSet := lock }.goto t p).view calm) t :=
  follows_move rfl rfl rfl (fun _ h => h) hwait (by simp [hi.1]) hi.2

end

variable (htail : ∀ x l, calm (x :: l) → calm l)

include htail

theorem follows_takeLocal {go : Pc κ τ} (hi : (s.pc t).Idle)
    (hgo : go.waitsOn = none) : (s.view calm).Follows ((s.takeLocal t k go).view calm) t := by
  unfold Sockets.takeLocal
  split
  case h_1 x packets hk =>
    refine follows_move rfl rfl rfl (fun k' hk' => ?_) rfl (by simp [hi.1]) hi.2
    by_cases hk'' : k' = k
    · subst hk''
      rw [hk] at hk'
      simpa [setLocal] using htail x packets hk'
    · rwa [setLocal_localRx_of_ne _ hk'']
  case h_2 => exact follows_idle hi hgo

omit htail

theorem follows_takeSmol (hi : (s.pc t).Idle)
    (hfound : found.waitsOn = none) (hgo : go.waitsOn = none) (hstep : s.takeSmol t k found go = some s') :
    (s.view calm).Follows (s'.view calm) t := by
  unfold Sockets.takeSmol at hstep
  split at hstep
  · cases hstep
  · cases hstep
    exact follows_idle hi hfound
  · cases hstep
    exact follows_idle hi hgo

section

omit [DecidableEq κ]

theorem waits_setSleep {u v : τ} (h : sleep.waits = true → (s.sleep u).waits = true)
    (hv : ((s.setSleep u sleep).sleep v).waits = true) : (s.sleep v).waits = true := by
  by_cases hvu : v = u
  · subst hvu
    rw [setSleep_sleep_self] at hv
    exact h hv
  · rwa [setSleep_sleep_of_ne _ hvu] at hv

/-- The step ends the sleep of `u`, whom `t` had in hand. -/
theorem follows_wake (hsleep : sleep.waits = false) (hwait : p.waitsOn = none)
    (hhand : ∀ v, v ∈ (s.pc t).hand → v ∈ p.hand ∨ v = u) (howes : (s.pc t).owes = none) :
    (s.view calm).Follows (((s.setSleep u sleep).goto t p).view calm) t :=
  WaitView.follows_wake (W := fun x : Sleep => x.waits = true) (by simp [hsleep]) hwait hhand (by simp [howes]) fun _ => .inl

theorem follows_look {rest : List κ} {after : After κ} (hpc : s.pc t = .pollPopped u k rest after) :
    (s.view calm).Follows ((s.look t u k rest after).view calm) t := by
  have hhand : ∀ v, v ∈ (s.pc t).hand → v = u := by simp [hpc, Pc.hand]
  have howes : (s.pc t).owes = none := by rw [hpc]; rfl
  unfold look
  split
  case h_1 => exact follows_wake rfl rfl (fun v hv => .inr (hhand v hv)) howes
  case h_2 => exact follows_move rfl rfl rfl (fun _ h => h) rfl (fun v hv => .inl (by simp [Pc.hand, hhand v hv])) howes
  case h_3 hsaving hblocked =>
    refine follows_move rfl rfl rfl (fun _ h => h) rfl (fun v hv => .inr ?_) howes
    rw [hhand v hv]
    cases hs : s.sleep u with
    | saving pending => exact absurd hs (hsaving pending)
    | blocked => exact absurd hs hblocked
    | _ => rfl

end

theorem follows_pollWake {rest : List κ} {after : After κ}
    (hpc : s.pc t = .pollWake k rest after) (hq : s.waiters k = u :: queue) :
    (s.view calm).Follows (((s.setWaiters k queue).goto t (.pollPopped u k rest after)).view calm) t := by
  refine WaitView.follows_queue rfl (fun v _ hmem => ?_) ?_ (by simp [hpc, Pc.hand]) (by simp [hpc, Pc.owes]) fun _ => .inl
  · rw [hq] at hmem
    exact (mem_cons.1 hmem).symm.imp_right fun h => by simp [Pc.hand, h]
  · rw [hq]
    exact subset_cons_self ..

theorem follows_pushing (h : calm (s.localRx k)) (hpc : s.pc t = .pushing k) :
    (s.view calm).Follows (((s.setWaiters k (s.waiters k ++ [t])).goto t (.waiting k)).view calm) t :=
  WaitView.follows_sleep rfl (fun _ _ => id) (by simp [hpc, Pc.hand]) (by simp [hpc, Pc.owes]) (fun _ => id) h

theorem follows_removing (hpc : s.pc t = .removing k) :
    (s.view calm).Follows (((s.setWaiters k ((s.waiters k).filter (· ≠ t))).goto t (.readSmol k)).view calm) t :=
  WaitView.follows_queue rfl (fun u hu hmem => by simp [hmem, hu]) (filter_subset_self _) (by simp [hpc, Pc.hand])
    (by simp [hpc, Pc.owes]) fun _ => .inl

/-- `wake_up_all_mp` takes everybody off the queue. -/
theorem follows_sendWake (hpc : s.pc t = .sendWake k) :
    (s.view calm).Follows (((s.setWaiters k []).goto t (.sendTasks (s.waiters k))).view calm) t :=
  WaitView.follows_queue rfl (fun _ _ => .inr) (nil_subset _) (by simp [hpc, Pc.hand]) (by simp [hpc, Pc.owes, eq_comm]) fun _ => .inl

include htail

theorem follows_next (h : ∀ k, s.pc t = .pushing k → calm (s.localRx k)) (hstep : s.next handles t packets = some s') :
    (s.view calm).Follows (s'.view calm) t := by
  have hidle : ∀ q, s.pc t = q → q.Idle → (s.pc t).Idle := by
    rintro q rfl hq
    exact hq
  unfold Sockets.next at hstep
  cases hpc : s.pc t <;> simp only [hpc] at hstep
  case user => cases hstep
  case readLocal | recvLocal =>
    cases hstep
    exact follows_takeLocal htail (hidle _ hpc ⟨rfl, rfl⟩) rfl
  case readSmol k =>
    refine follows_takeSmol (hidle _ hpc ⟨rfl, rfl⟩) ?_ rfl hstep
    split <;> rfl
  case recvSmol k => exact follows_takeSmol (hidle _ hpc ⟨rfl, rfl⟩) rfl rfl hstep
  case pollStart after =>
    split at hstep
    · cases hstep
    · cases hstep
      obtain ⟨smol, hsmol⟩ := takeIn_eq s packets
      rw [hsmol]
      exact follows_idle (hidle _ hpc ⟨rfl, rfl⟩) rfl
  case pollNext rest after =>
    cases rest with
    | nil =>
      cases hstep
      exact follows_idle (hidle _ hpc ⟨rfl, rfl⟩) after.waitsOn_pc
    | cons k rest =>
      cases hstep
      refine follows_idle (hidle _ hpc ⟨rfl, rfl⟩) ?_
      split <;> rfl
  case pollWake k rest after =>
    split at hstep
    · cases hstep
      exact follows_idle (hidle _ hpc ⟨rfl, rfl⟩) rfl
    case h_2 u queue hq =>
      cases hstep
      exact follows_pollWake hpc hq
  case pollPopped u k rest after =>
    cases hstep
    exact follows_look hpc
  case pollTask u rest after =>
    cases hstep
    exact follows_wake (Sleep.waits_wake _) rfl (by simp [hpc, Pc.hand]) (by simp [hpc, Pc.owes])
  case saving k =>
    cases hstep
    refine follows_goto rfl rfl (fun u hu hw => ?_) rfl (by simp [hpc, Pc.hand]) (by simp [hpc, Pc.owes]) fun _ => .inl
    rwa [setSleep_sleep_of_ne _ hu] at hw
  case pushing k =>
    cases hstep
    exact follows_pushing (h k hpc) hpc
  case waiting k =>
    split at hstep
    case h_1 pending hs =>
      cases hstep
      refine WaitView.follows_waits (fun u hu => waits_setSleep (fun hw => ?_) hu) fun _ h => h
      rw [Sleep.waits_commit] at hw
      rw [hs]
      exact hw
    case h_2 =>
      cases hstep
      refine follows_wake rfl ?_ (by simp [hpc, Pc.hand]) (by simp [hpc, Pc.owes])
      split <;> rfl
    case h_3 => cases hstep
  case removing k =>
    cases hstep
    exact follows_removing hpc
  case sendWake k =>
    cases hstep
    exact follows_sendWake hpc
  case sendTasks tasks =>
    cases tasks with
    | nil =>
      cases hstep
      exact follows_idle (hidle _ hpc ⟨rfl, rfl⟩) rfl
    | cons u tasks =>
      cases hstep
      refine follows_wake (Sleep.waits_wake _) rfl (fun v hv => ?_) (by simp [hpc, Pc.owes])
      rw [hpc] at hv
      exact (mem_cons.1 hv).symm

theorem follows_step (h : ∀ k, s.pc t = .pushing k → calm (s.localRx k))
    (hstep : s.step handles t cmd = some s') : (s.view calm).Follows (s'.view calm) t := by
  cases cmd with
  | read k | recv k =>
    obtain ⟨hu, rfl⟩ := of_guard hstep
    refine follows_idle (idle_of_isUser hu) ?_
    split <;> rfl
  | send k packet =>
    obtain ⟨hcond, rfl⟩ := of_guard hstep
    have hi := idle_of_isUser (Bool.and_eq_true_iff.1 hcond).1
    refine follows_goto rfl rfl (fun _ _ => id) rfl (by simp [hi.1]) hi.2 fun k' hk' => ?_
    by_cases hk : k' = k
    · subst hk
      exact .inr rfl
    · left
      rwa [setLocal_localRx_of_ne _ hk]
  | netPoll =>
    obtain ⟨hu, rfl⟩ := of_guard hstep
    exact follows_idle (idle_of_isUser hu) rfl
  | signal u =>
    cases hstep
    exact WaitView.follows_waits (fun v hv => waits_setSleep (by simp) hv) fun _ h => h
  | next packets => exact follows_next htail h hstep

/-! ## A run of `net_poll` -/

/-- Task `t` takes a step of its own and no packet comes in. -/
def Alone (handles : List κ) (t : τ) (s s' : Sockets κ τ α) : Prop := s.step handles t (.next []) = some s'

/-- The task that `net_poll` wakes up for the socket. -/
def pollTarget (s : Sockets κ τ α) (k : κ) : Option τ :=
  if (s.smol k).isEmpty then none else (s.waiters k).find? fun u => (s.sleep u).accepts

variable {r : τ} {k : κ} {rest : List κ} {after : After κ}

omit htail

omit [DecidableEq κ] [DecidableEq τ] in
theorem pollTarget_eq_some : s.pollTarget k = some r ↔
    s.smol k ≠ [] ∧ (s.waiters k).find? (fun u => (s.sleep u).accepts) = some r := by
  unfold pollTarget
  rw [ite_none_left_eq_some, List.isEmpty_iff]

omit [DecidableEq κ] [DecidableEq τ] in
theorem pollTarget_same (h : s.pollTarget k = some r) (hsmol : s'.smol = s.smol) (hq : s'.waiters k = s.waiters k)
    (hsleep : s'.sleep = s.sleep) : s'.pollTarget k = some r := by
  unfold pollTarget at h ⊢
  rwa [hsmol, hq, hsleep]

omit [DecidableEq κ] in
/-- A sleeper before `r` would have been found in its place: the sleep of one that is found elsewhere does not matter. -/
theorem pollTarget_setSleep (h : s.pollTarget k = some r) (hu : (s.sleep u).accepts = true) (hne : r ≠ u)
    (sleep : Sleep) : (s.setSleep u sleep).pollTarget k = some r := by
  obtain ⟨hpacket, hfind⟩ := pollTarget_eq_some.1 h
  refine pollTarget_eq_some.2 ⟨hpacket, ?_⟩
  obtain ⟨hr, before, rest, hq, hbefore⟩ := find?_eq_some_iff_append.1 hfind
  refine find?_eq_some_iff_append.2 ⟨?_, before, rest, hq, fun v hv => ?_⟩
  · rwa [setSleep_sleep_of_ne _ hne]
  · have hvu : v ≠ u := by
      rintro rfl
      have := hbefore v hv
      simp [hu] at this
    rw [setSleep_sleep_of_ne _ hvu]
    exact hbefore v hv

omit [DecidableEq κ] in
theorem waits_wake_of_not (hsleep : sleep.waits = false) (h : (s.sleep r).waits = false) :
    ((s.setSleep u sleep).sleep r).waits = false := by
  by_cases hru : r = u
  · subst hru
    rw [setSleep_sleep_self, hsleep]
  · rw [setSleep_sleep_of_ne _ hru, h]

omit [DecidableEq τ] in
/-- `wake_up_one` pops the first task of a queue: it was the sleeper to be found there, or that one is still to be found. -/
theorem pollTarget_pop {k' : κ} (hq : s.waiters k' = u :: queue) (h : s.pollTarget k = some r) :
    (r = u ∧ (s.sleep u).accepts = true) ∨
      (s.setWaiters k' queue).pollTarget k = some r ∧ ((s.sleep u).accepts = true → k' ≠ k) := by
  obtain ⟨hpacket, hfind⟩ := pollTarget_eq_some.1 h
  by_cases hk : k' = k
  · subst hk
    rw [hq, find?_cons] at hfind
    cases ha : (s.sleep u).accepts with
    | true =>
      rw [ha] at hfind
      exact .inl ⟨(some.inj hfind).symm, rfl⟩
    | false =>
      rw [ha] at hfind
      refine .inr ⟨pollTarget_eq_some.2 ⟨hpacket, ?_⟩, by simp⟩
      rw [setWaiters_waiters_self]
      exact hfind
  · exact .inr ⟨pollTarget_same h rfl (setWaiters_waiters_of_ne _ (Ne.symm hk)) rfl, fun _ => hk⟩

/-- A sleeper that `wake_up_one` has popped is woken up. -/
theorem woken_of_pop (sleep : Sleep) {k' : κ} (hq : s.waiters k' = u :: queue)
    (hs₁ : s₁.sleep = s.sleep) (ht₁ : ∀ v, (s.setWaiters k' queue).pollTarget k = some v → s₁.pollTarget k = some v)
    (hu : (s.sleep u).accepts = true) (hsleep : sleep.waits = false)
    (h : (s.sleep r).waits = false ∨ s.pollTarget k = some r) :
    ((s₁.setSleep u sleep).sleep r).waits = false ∨ (s₁.setSleep u sleep).pollTarget k = some r ∧ k' ≠ k := by
  by_cases hru : r = u
  · subst hru
    left
    rw [setSleep_sleep_self, hsleep]
  · rcases h with hw | ht
    · exact .inl (waits_wake_of_not hsleep (by rw [hs₁, hw]))
    · rcases pollTarget_pop hq ht with ⟨hr, -⟩ | ⟨ht, hne⟩
      · exact absurd hr hru
      · exact .inr ⟨pollTarget_setSleep (ht₁ r ht) (by rw [hs₁, hu]) hru sleep, hne hu⟩

/-- `wake_up_one` on a socket's queue ends, and wakes up the sleeper that is to be found in it. -/
theorem pollWake_ends (handles : List κ) (queue : List τ) {k' : κ} (hpc : s.pc t = .pollWake k' rest after)
    (hq : s.waiters k' = queue) (h : (s.sleep r).waits = false ∨ s.pollTarget k = some r) :
    ∃ s', ReflTransGen (Alone handles t) s s' ∧ s'.pc t = .pollNext rest after ∧
      ((s'.sleep r).waits = false ∨ s'.pollTarget k = some r ∧ k' ≠ k) := by
  induction queue generalizing s with
  | nil =>
    refine ⟨s.goto t (.pollNext rest after), .single (by simp [Alone, step, next, hpc, hq]), goto_pc_self, ?_⟩
    refine h.imp_right fun (ht : s.pollTarget k = some r) => ⟨pollTarget_same ht rfl rfl rfl, ?_⟩
    rintro rfl
    have hfind := (pollTarget_eq_some.1 ht).2
    rw [hq] at hfind
    cases hfind
  | cons u queue ih =>
    obtain ⟨s₁, hs₁⟩ : ∃ s₁, s₁ = (s.setWaiters k' queue).goto t (.pollPopped u k' rest after) := ⟨_, rfl⟩
    have hpop : Alone handles t s s₁ := by
      rw [hs₁]
      simp [Alone, step, next, hpc, hq]
    have hpc₁ : s₁.pc t = .pollPopped u k' rest after := by
      rw [hs₁]
      exact goto_pc_self
    have hlook : Alone handles t s₁ (s₁.look t u k' rest after) := by simp [Alone, step, next, hpc₁]
    have hsleep₁ : s₁.sleep = s.sleep := by
      rw [hs₁]
      rfl
    have htarget₁ : ∀ v, (s.setWaiters k' queue).pollTarget k = some v → s₁.pollTarget k = some v := by
      intro v hv
      rw [hs₁]
      exact pollTarget_same hv rfl rfl rfl
    have hq₁ : s₁.waiters k' = queue := by
      rw [hs₁]
      exact setWaiters_waiters_self ..
    cases hs : s.sleep u with
    | saving pending =>
      rw [look, hsleep₁, hs] at hlook
      refine ⟨_, .head hpop (.single hlook), goto_pc_self, ?_⟩
      exact (woken_of_pop (.saving true) hq hsleep₁ htarget₁ (by rw [hs]; rfl) rfl h).imp_right
        fun ⟨ht, hne⟩ => ⟨pollTarget_same ht rfl rfl rfl, hne⟩
    | blocked =>
      rw [look, hsleep₁, hs] at hlook
      have hwake : Alone handles t (s₁.goto t (.pollTask u rest after))
          (((s₁.goto t (.pollTask u rest after)).setSleep u (s₁.sleep u).wake).goto t (.pollNext rest after)) := by
        simp only [Alone, step, next, goto_pc_self]
        rfl
      refine ⟨_, .head hpop (.head hlook (.single hwake)), goto_pc_self, ?_⟩
      exact (woken_of_pop (s₁.sleep u).wake hq hsleep₁ htarget₁ (by rw [hs]; rfl) (Sleep.waits_wake _) h).imp_right
        fun ⟨ht, hne⟩ => ⟨pollTarget_same ht rfl rfl rfl, hne⟩
    | awake | ready =>
      rw [look, hsleep₁, hs] at hlook
      obtain ⟨s', hrun, hpc', hdone⟩ := ih (s := s₁.goto t (.pollWake k' rest after)) goto_pc_self hq₁ (by
        rcases h with hw | ht
        · exact .inl (by rw [← hsleep₁] at hw; exact hw)
        · rcases pollTarget_pop hq ht with ⟨-, ha⟩ | ⟨ht, -⟩
          · rw [hs] at ha
            cases ha
          · exact .inr (pollTarget_same (htarget₁ r ht) rfl rfl rfl))
      exact ⟨s', .head hpop (.head hlook hrun), hpc', hdone⟩

/-- The loop of `net_poll` ends, and has woken `r` up if its socket is still to come. -/
theorem pollNext_ends (handles : List κ) (hpc : s.pc t = .pollNext rest after)
    (h : (s.sleep r).waits = false ∨ s.pollTarget k = some r ∧ k ∈ rest) :
    ∃ s', ReflTransGen (Alone handles t) s s' ∧ s'.pc t = after.pc ∧ (s'.sleep r).waits = false := by
  induction rest generalizing s with
  | nil =>
    refine ⟨{ s with socketSet := none }.goto t after.pc, .single (by simp [Alone, step, next, hpc]), goto_pc_self, ?_⟩
    exact h.resolve_right (by simp)
  | cons k' rest ih =>
    have hstep : Alone handles t s (s.goto t
        (if (s.smol k').isEmpty || (s.waiters k').isEmpty then .pollNext rest after else .pollWake k' rest after)) := by
      simp only [Alone, step, next, hpc]
    split at hstep
    case isTrue hempty =>
      have hrest : ((s.goto t (.pollNext rest after)).sleep r).waits = false ∨
          (s.goto t (.pollNext rest after)).pollTarget k = some r ∧ k ∈ rest := by
        refine h.imp_right fun ⟨ht, hmem⟩ => ⟨pollTarget_same ht rfl rfl rfl, (mem_cons.1 hmem).resolve_left ?_⟩
        rintro rfl
        obtain ⟨hpacket, hfind⟩ := pollTarget_eq_some.1 ht
        have hq := ne_nil_of_mem (mem_of_find?_eq_some hfind)
        simp [hpacket, hq] at hempty
      obtain ⟨s', hrun, hpc', hdone⟩ := ih goto_pc_self hrest
      exact ⟨s', .head hstep hrun, hpc', hdone⟩
    case isFalse =>
      obtain ⟨s₁, hrun₁, hpc₁, hrest⟩ : ∃ s₁, ReflTransGen (Alone handles t) (s.goto t (.pollWake k' rest after)) s₁ ∧
          s₁.pc t = .pollNext rest after ∧ ((s₁.sleep r).waits = false ∨ s₁.pollTarget k = some r ∧ k ∈ rest) := by
        rcases h with hw | ⟨ht, hmem⟩
        · obtain ⟨s₁, hrun₁, hpc₁, hdone⟩ := pollWake_ends (r := r) (k := k') handles (s.waiters k')
            (s := s.goto t (.pollWake k' rest after)) goto_pc_self rfl (.inl hw)
          exact ⟨s₁, hrun₁, hpc₁, .inl (hdone.resolve_right fun ⟨_, hne⟩ => hne rfl)⟩
        · obtain ⟨s₁, hrun₁, hpc₁, hdone⟩ := pollWake_ends handles (s.waiters k')
            (s := s.goto t (.pollWake k' rest after)) goto_pc_self rfl (.inr (pollTarget_same ht rfl rfl rfl))
          exact ⟨s₁, hrun₁, hpc₁, hdone.imp_right fun ⟨ht, hne⟩ => ⟨ht, (mem_cons.1 hmem).resolve_left (Ne.symm hne)⟩⟩
      obtain ⟨s', hrun, hpc', hdone⟩ := ih hpc₁ hrest
      exact ⟨s', .head hstep (hrun₁.trans hrun), hpc', hdone⟩

/-- `net_poll` by task `t`, from its start to its end, with nobody in between and without a new packet. -/
def PollRun (handles : List κ) (t : τ) (s s' : Sockets κ τ α) : Prop :=
  ∃ s₁, s.step handles t .netPoll = some s₁ ∧ ReflTransGen (Alone handles t) s₁ s' ∧ s'.pc t = .user

theorem pollRun_wakes (hall : ∀ k, k ∈ handles) (hpc : s.pc t = .user) (hfree : s.socketSet = none)
    (h : s.pollTarget k = some r) : ∃ s', PollRun handles t s s' ∧ (s'.sleep r).waits = false := by
  have hstart : s.step handles t .netPoll = some (s.goto t (.pollStart .user)) := by simp [step, isUser, hpc]
  have hlock : Alone handles t (s.goto t (.pollStart .user))
      ({ s.goto t (.pollStart .user) with socketSet := some t }.goto t (.pollNext handles .user)) := by
    have hfree' : (s.goto t (.pollStart .user)).socketSet = none := hfree
    simp [Alone, step, next, hfree', takeIn]
  obtain ⟨s', hrun, hpc', hdone⟩ := pollNext_ends (r := r) (k := k) handles
    (s := { s.goto t (.pollStart .user) with socketSet := some t }.goto t (.pollNext handles .user)) goto_pc_self
    (.inr ⟨pollTarget_same h rfl rfl rfl, hall k⟩)
  exact ⟨s', ⟨_, hstart, .head hlock hrun, hpc'⟩, hdone⟩

/-! ## Whole runs -/

def OrderlyStep (handles : List κ) (s s' : Sockets κ τ α) : Prop := ∃ t cmd, s.Orderly cmd ∧ s.step handles t cmd = some s'

omit [DecidableEq κ] [DecidableEq τ] in
theorem quiet_init (raw : κ → Bool) : (init raw : Sockets κ τ α).Quiet := ⟨fun _ _ => rfl, fun _ _ _ => rfl⟩

omit [DecidableEq κ] [DecidableEq τ] in
theorem covered_init (raw : κ → Bool) : ((init raw : Sockets κ τ α).view calm).Covered := by
  constructor
  · rintro u k ⟨hw, -⟩
    cases hw
  · rintro u k ⟨hw, -⟩
    cases hw

/-- Every sleeper can be found. -/
theorem covered_of_steps {raw : κ → Bool} (hr : ReflTransGen (Step handles) (init raw) s) :
    (s.view fun _ => True).Covered :=
  inv_of_reachable (I := fun s => (s.view fun _ => True).Covered) (covered_init raw)
    (fun _ _ h ⟨_, _, hstep⟩ => (follows_step (fun _ _ _ => trivial) (fun _ _ => trivial) hstep).covered h) hr

/-- In an orderly run the sleepers of a socket with something in its loopback queue are about to be woken up. -/
theorem covered_of_orderlySteps {raw : κ → Bool} (hr : ReflTransGen (OrderlyStep handles) (init raw) s) :
    (s.view (· = [])).Covered := by
  refine (inv_of_reachable (I := fun s => s.Quiet ∧ (s.view (· = [])).Covered) ⟨quiet_init raw, covered_init raw⟩ ?_ hr).2
  rintro s s' ⟨hquiet, h⟩ ⟨t, cmd, ho, hstep⟩
  refine ⟨hquiet.step ho hstep, (follows_step ?_ ?_ hstep).covered h⟩
  · intro x l hl
    cases hl
  · intro k hpc
    exact hquiet.gap t k (by rw [hpc]; rfl)

/-- A checker of `Orderly`. -/
def orderly [Fintype τ] (s : Sockets κ τ α) : Cmd κ τ α → Bool
  | .send k _ => decide (∀ u, (s.pc u).gap ≠ some k)
  | _ => true

omit [DecidableEq τ] in
theorem orderly_spec [Fintype τ] (h : s.orderly cmd = true) : s.Orderly cmd := by
  cases cmd with
  | send k packet => simpa [orderly, Orderly] using h
  | _ => trivial

def runOrderly [Fintype τ] (handles : List κ) : Sockets κ τ α → List (τ × Cmd κ τ α) → Option (Sockets κ τ α) :=
  runGuarded (fun s _ cmd => s.orderly cmd) (·.step handles)

theorem orderlySteps_of_runOrderly [Fintype τ] (h : s.runOrderly handles l = some s') :
    ReflTransGen (OrderlyStep handles) s s' :=
  reaches_of_runGuarded (fun _ t k _ ho hk => ⟨t, k, orderly_spec ho, hk⟩) h

/-- The task is blocked in a read of the socket, and not woken up. -/
def BlockedOn (s : Sockets κ τ α) (r : τ) (k : κ) : Prop := s.pc r = .waiting k ∧ (s.sleep r).waits = true

section

omit [DecidableEq κ] [DecidableEq τ]

theorem BlockedOn.asleep (h : s.BlockedOn r k) : (s.view calm).asleep r k := ⟨by rw [h.1]; rfl, h.2⟩

/-- A wake-up of the task is under way. -/
def WakePending (s : Sockets κ τ α) (r : τ) (k : κ) : Prop :=
  (∃ w, r ∈ (s.pc w).hand) ∨ ∃ w, s.pc w = .sendWake k ∧ r ∈ s.waiters k

theorem wakePending_of_owes {w : τ} (hw : (s.pc w).owes = some k) (hq : r ∈ s.waiters k) : s.WakePending r k := by
  refine .inr ⟨w, ?_, hq⟩
  cases hpc : s.pc w <;> simp [hpc, Pc.owes] at hw ⊢
  exact hw

/-- The sleeper that is found in a queue is the given one or one before it. -/
theorem pollTarget_before (hp : s.smol k ≠ []) (hq : r ∈ s.waiters k) (hr : (s.sleep r).waits = true) :
    ∃ u before rest, s.pollTarget k = some u ∧ s.waiters k = before ++ u :: rest ∧ (u = r ∨ r ∈ rest) := by
  have haccepts := Sleep.accepts_of_waits hr
  cases hfind : (s.waiters k).find? fun u => (s.sleep u).accepts with
  | none => exact absurd haccepts (find?_eq_none.1 hfind r hq)
  | some u =>
    obtain ⟨-, before, rest, hsplit, hbefore⟩ := find?_eq_some_iff_append.1 hfind
    refine ⟨u, before, rest, pollTarget_eq_some.2 ⟨hp, hfind⟩, hsplit, ?_⟩
    rw [hsplit, mem_append, mem_cons] at hq
    rcases hq with hq | hq | hq
    · have := hbefore r hq
      simp [haccepts] at this
    · exact .inl hq.symm
    · exact .inr hq

end

/-- A reader that is blocked while the network stack holds a packet for its socket has a wake-up under way, or is queued,
and a run of `net_poll` by any task wakes up it or one that is queued before it. If no packet comes over the loopback queue
of a socket while a reader of it is between its look at that queue and the wait queue, a reader that is blocked while there
is a packet in the loopback queue has a wake-up under way. -/
theorem blocked_reader_woken {raw : κ → Bool} (hall : ∀ k, k ∈ handles) (hb : s.BlockedOn r k) :
    (ReflTransGen (Step handles) (init raw) s → s.smol k ≠ [] →
      s.WakePending r k ∨ ∃ u before rest, s.pollTarget k = some u ∧ s.waiters k = before ++ u :: rest ∧ (u = r ∨ r ∈ rest) ∧
        ∀ t, s.pc t = .user → s.socketSet = none → ∃ s', PollRun handles t s s' ∧ (s'.sleep u).waits = false) ∧
    (ReflTransGen (OrderlyStep handles) (init raw) s → s.localRx k ≠ [] → s.WakePending r k) := by
  constructor
  · intro hr hp
    rcases (covered_of_steps hr).found r k hb.asleep with hq | ⟨w, hw⟩
    · obtain ⟨u, before, rest, ht, hsplit, hur⟩ := pollTarget_before hp hq hb.2
      exact .inr ⟨u, before, rest, ht, hsplit, hur, fun t hpc hfree => pollRun_wakes hall hpc hfree ht⟩
    · exact .inl (.inl ⟨w, hw⟩)
  · intro hr hp
    have hcovered := covered_of_orderlySteps hr
    rcases hcovered.found r k hb.asleep with hq | ⟨w, hw⟩
    · rcases hcovered.due r k hb.asleep hq with hcalm | ⟨w, hw⟩ | ⟨w, hw⟩
      · exact absurd hcalm hp
      · exact wakePending_of_owes hw hq
      · exact .inl ⟨w, hw⟩
    · exact .inl ⟨w, hw⟩

def nexts (t : τ) (n : Nat) : List (τ × Cmd κ τ α) := replicate n (t, .next [])

theorem alone_of_run {n : Nat} (h : s.run handles (nexts t n) = some s') : ReflTransGen (Alone handles t) s s' := by
  induction n generalizing s with
  | zero =>
    cases h
    exact .refl
  | succ n ih =>
    obtain ⟨s₁, hstep, h⟩ := bind_eq_some_iff.1 h
    exact .head hstep (ih h)

/-- `net_poll` in `n` steps. -/
def polls (t : τ) (n : Nat) : List (τ × Cmd κ τ α) := (t, .netPoll) :: nexts t n

/-- A run that goes on with `net_poll`. -/
theorem pollRun_of_run {n : Nat} (h : s.run handles l = some s₁)
    (h' : s.run handles (l ++ polls t n) = some s') (hpc : s'.pc t = .user) : PollRun handles t s₁ s' := by
  induction l generalizing s with
  | nil =>
    cases h
    obtain ⟨s₂, hstep, h'⟩ := bind_eq_some_iff.1 h'
    exact ⟨s₂, hstep, alone_of_run h', hpc⟩
  | cons x l ih =>
    obtain ⟨s₂, hstep, h⟩ := bind_eq_some_iff.1 h
    obtain ⟨s₃, hstep', h'⟩ := bind_eq_some_iff.1 h'
    obtain rfl := some.inj (hstep.symm.trans hstep')
    exact ih h h'

/-- `t` reads the socket, and takes `n` steps. -/
def reads (t : τ) (k : κ) (n : Nat) : List (τ × Cmd κ τ α) := (t, .read k) :: nexts t n

/-- `t` polls, and takes in a packet for the socket. -/
def takesIn (t : τ) (k : κ) (packet : α) : List (τ × Cmd κ τ α) := [(t, .netPoll), (t, .next [(k, packet)])] ++ nexts t 2

/-- The reader has polled when another task takes in a packet, and goes to sleep. -/
def sleepsOnPacket (r t : τ) (k : κ) (packet : α) : List (τ × Cmd κ τ α) := reads r k 4 ++ takesIn t k packet ++ nexts r 3

/-- The reader of a raw socket sleeps when a packet is sent to it. -/
def sentWhileAsleep (r t : τ) (k : κ) (packet : α) : List (τ × Cmd κ τ α) := reads r k 8 ++ [(t, .send k packet)]

/-- `blocked_reader_woken` where the reader is woken up by `net_poll`, and where a sender is about to. -/
theorem blocked_reader_woken_packets :
    (∃ s : Sockets Unit (Fin 2) Nat, s.smol () = [7] ∧ s.BlockedOn 0 () ∧ s.pollTarget () = some 0 ∧
      ∃ s', PollRun [()] 1 s s' ∧ (s'.sleep 0).waits = false) ∧
    ∃ s : Sockets Unit (Fin 2) Nat, s.localRx () = [7] ∧ s.BlockedOn 0 () ∧ s.WakePending 0 () := by
  constructor
  · obtain ⟨s, hrun, hpc, hidle, hsleep, hsmol, hq, hfree⟩ : ∃ s, Sockets.run [()] (init fun _ => false)
        (sleepsOnPacket (0 : Fin 2) 1 () 7) = some s ∧ s.pc 0 = .waiting () ∧ s.pc 1 = .user ∧ s.sleep 0 = .blocked ∧
        s.smol () = [7] ∧ s.waiters () = [0] ∧ s.socketSet = none := exists_of_any (by decide +kernel)
    have hb : s.BlockedOn 0 () := ⟨hpc, by rw [hsleep]; rfl⟩
    have ht : s.pollTarget () = some 0 := pollTarget_eq_some.2 ⟨by simp [hsmol], by simp [hq, hsleep, Sleep.accepts]⟩
    have hnone : ¬s.WakePending 0 () := by
      rintro (⟨w, hw⟩ | ⟨w, hw, -⟩) <;> fin_cases w <;> simp_all [Pc.hand]
    rcases (blocked_reader_woken (by simp) hb).1 (steps_of_runCalls hrun) (by simp [hsmol]) with h | ⟨u, _, _, hu, -, -, hpoll⟩
    · exact absurd h hnone
    · obtain rfl := some.inj (hu.symm.trans ht)
      exact ⟨s, hsmol, hb, ht, hpoll 1 hidle hfree⟩
  · obtain ⟨s, hrun, hb, hlocal⟩ : ∃ s, Sockets.runOrderly [()] (init fun _ => true) (sentWhileAsleep (0 : Fin 2) 1 () 7) =
        some s ∧ (s.pc 0 = .waiting () ∧ (s.sleep 0).waits = true) ∧ s.localRx () = [7] := exists_of_any (by decide +kernel)
    exact ⟨s, hlocal, hb, (blocked_reader_woken (by simp) hb).2 (orderlySteps_of_runOrderly hrun) (by simp [hlocal])⟩

/-- Two readers have polled when a packet comes in, and go to sleep. -/
def bothSleepOnPacket (r r' t : τ) (k : κ) (packet : α) : List (τ × Cmd κ τ α) :=
  reads r k 4 ++ reads r' k 4 ++ takesIn t k packet ++ nexts r 3 ++ nexts r' 3

/-- A run of `net_poll` wakes up one reader of a socket: the other one sleeps on, with the packet still there. -/
theorem second_reader_sleeps_on :
    ∃ s s' : Sockets Unit (Fin 3) Nat, ReflTransGen (Step [()]) (init fun _ => false) s ∧ s.BlockedOn 1 () ∧
      s.smol () = [7] ∧ ¬s.WakePending 1 () ∧ PollRun [()] 2 s s' ∧ s'.BlockedOn 1 () ∧ s'.smol () = [7] := by
  obtain ⟨s, hrun, hb, hpc₀, hpc₂, hsmol⟩ : ∃ s, Sockets.run [()] (init fun _ => false)
      (bothSleepOnPacket (0 : Fin 3) 1 2 () 7) = some s ∧ (s.pc 1 = .waiting () ∧ (s.sleep 1).waits = true) ∧
      s.pc 0 = .waiting () ∧ s.pc 2 = .user ∧ s.smol () = [7] := exists_of_any (by decide +kernel)
  obtain ⟨s', hrun', hb', hpc', hsmol'⟩ : ∃ s, Sockets.run [()] (init fun _ => false)
      (bothSleepOnPacket (0 : Fin 3) 1 2 () 7 ++ polls 2 6) = some s ∧ (s.pc 1 = .waiting () ∧ (s.sleep 1).waits = true) ∧
      s.pc 2 = .user ∧ s.smol () = [7] := exists_of_any (by decide +kernel)
  refine ⟨s, s', steps_of_runCalls hrun, hb, hsmol, ?_, pollRun_of_run hrun hrun' hpc', hb', hsmol'⟩
  rintro (⟨w, hw⟩ | ⟨w, hw, -⟩) <;> fin_cases w <;> simp_all [Pc.hand]

end Sockets

end ShellCore.Net
