import ShellCore.Lib.Actors
import ShellCore.Task.Signal

/-!
# Signals that a thread group shares

Threads of one group run `handle_signals` at the same time. A thread reads the shared set in one section of its lock and
takes the signal out in a later one, so another thread may have read it in between. Each time a signal becomes pending it
gets a number, which the code does not have; `invoked` is the list of the calls of `call_signal_handler`.
-/

namespace ShellCore.Task

open Function Relation

inductive SigPc where
  | user
  /-- The shared set is read and `sig`, which became pending as `serial`, chosen; the thread holds its own lock. -/
  | remove (sig serial : Nat)
  /-- The signal is out of its set; `serial` if that was the shared one. -/
  | call (sig : Nat) (serial : Option Nat)
deriving DecidableEq

structure SharedSignals (τ : Type) where
  shared : Nat → Option Nat
  serials : Nat
  thread : τ → ThreadSig
  action : Nat → SignalAction
  pc : τ → SigPc
  invoked : List (τ × Nat × Option Nat)

inductive SharedCmd where
  /-- `insert_pending` on the shared set. -/
  | insertPending (sig : Nat)
  | handleSignals
  | next (frameOk : Bool)
  /-- A signal for the thread itself. -/
  | tkill (sig : Nat)
  | setMask (mask : SigSet) (saved : Option SigSet)
  | sigaction (sig : Nat) (action : SignalAction)

namespace SharedSignals

variable {τ : Type} [DecidableEq τ] (s : SharedSignals τ)

def pendingFlags : SigSet := fun sig => (s.shared sig).isSome

variable (t : τ)

def goto (th : ThreadSig) (pc : SigPc) : SharedSignals τ :=
  { s with thread := update s.thread t th, pc := update s.pc t pc }

def insertPending (sig : Nat) : SharedSignals τ :=
  match s.shared sig with
  | some _ => s
  | none => { s with shared := update s.shared sig (some s.serials), serials := s.serials + 1 }

/-- The signal that a thread would handle. -/
def choice : Option Nat := ((s.thread t).unmasked.deliverable s.pendingFlags).first

/-- `handle_signals` up to the choice of a signal. A signal of the thread itself is taken out under the same lock. -/
def handleSignals : SharedSignals τ :=
  let th := (s.thread t).unmasked
  match s.choice t with
  | none => s.goto t th.restoreMask .user
  | some sig =>
    if th.pending sig then s.goto t { th with pending := th.pending.remove sig } (.call sig none)
    else
      match s.shared sig with
      | some serial => s.goto t th (.remove sig serial)
      | none => s.goto t th .user

def next (frameOk : Bool) : Option (SharedSignals τ) :=
  match s.pc t with
  | .user => none
  | .remove sig serial =>
    some ({ s with shared := update s.shared sig none }.goto t (s.thread t) (.call sig (some serial)))
  | .call sig serial =>
    some ({ s with invoked := s.invoked ++ [(t, sig, serial)] }.goto t
      ((s.thread t).callSignalHandler (s.action sig) frameOk sig).1 .user)

def holdsLock : SigPc → Bool
  | .remove .. => true
  | _ => false

def step : SharedCmd → Option (SharedSignals τ)
  | .insertPending sig => if sig < MAX_SIG then some (s.insertPending sig) else none
  | .handleSignals => if s.pc t = .user then some (s.handleSignals t) else none
  | .next frameOk => s.next t frameOk
  | .tkill sig =>
    if sig < MAX_SIG ∧ holdsLock (s.pc t) = false then
      some (s.goto t { s.thread t with pending := (s.thread t).pending.insert sig } (s.pc t))
    else none
  | .setMask mask saved =>
    if s.pc t = .user then some (s.goto t { s.thread t with blocked := mask, sigsuspendSavedMask := saved } .user) else none
  | .sigaction sig action => some { s with action := update s.action sig action }

def Step (s s' : SharedSignals τ) : Prop := ∃ t cmd, s.step t cmd = some s'

def init (thread : τ → ThreadSig) (action : Nat → SignalAction) : SharedSignals τ where
  shared _ := none
  serials := 0
  thread := thread
  action := action
  pc _ := .user
  invoked := []

/-- The insertions that led to a call of `call_signal_handler`, once for each call. -/
def consumed : List Nat := s.invoked.filterMap fun x => x.2.2

/-- The thread has chosen the shared signal and not yet taken it out. -/
def chose (sig : Nat) : SigPc → Bool
  | .remove sig' _ => sig' == sig
  | _ => false

/-- A thread that is about to choose a shared signal finds no other thread between its choice of that signal and the
removal. -/
def Orderly : SharedCmd → Prop
  | .handleSignals => ∀ sig ∈ s.choice t, (s.thread t).pending sig = false → ∀ u, chose sig (s.pc u) = false
  | _ => True

def OrderlyStep (s s' : SharedSignals τ) : Prop := ∃ t cmd, s.Orderly t cmd ∧ s.step t cmd = some s'

/-! ## Each insertion is in one place -/

/-- The insertion that a thread is handling. -/
def inHand : SigPc → Option Nat
  | .user => none
  | .remove _ serial => some serial
  | .call _ serial => serial

structure Inv (s : SharedSignals τ) : Prop where
  /-- What is chosen is still pending. -/
  chosen : ∀ t sig serial, s.pc t = .remove sig serial → s.shared sig = some serial
  /-- One thread at most has chosen a signal. -/
  single : ∀ t u sig serial serial', s.pc t = .remove sig serial → s.pc u = .remove sig serial' → t = u
  /-- Numbers are not used twice. -/
  fresh : ∀ sig serial, s.shared sig = some serial → serial < s.serials ∧ serial ∉ s.consumed
  distinct : ∀ sig sig' serial, s.shared sig = some serial → s.shared sig' = some serial → sig = sig'
  /-- What a thread is about to call for is neither pending nor in another hand. -/
  calling : ∀ t sig serial, s.pc t = .call sig (some serial) → serial < s.serials ∧ serial ∉ s.consumed ∧
    (∀ sig', s.shared sig' ≠ some serial) ∧ ∀ u, inHand (s.pc u) = some serial → u = t
  done : ∀ serial ∈ s.consumed, serial < s.serials
  nodup : s.consumed.Nodup

variable {s s' : SharedSignals τ} {t : τ} {sig serial : Nat} {th : ThreadSig} {pc : SigPc} (h : s.Inv)

include h

omit [DecidableEq τ] in
/-- A state with the same sets and the same calls, and places that are no more than before. -/
theorem Inv.of_pcs (hshared : s'.shared = s.shared) (hserials : s'.serials = s.serials)
    (hconsumed : s'.consumed = s.consumed)
    (hpc : ∀ u, s'.pc u = s.pc u ∨ inHand (s'.pc u) = none) : s'.Inv := by
  have hold : ∀ u pc serial, s'.pc u = pc → inHand pc = some serial → s.pc u = pc := by
    intro u pc serial hu hin
    rcases hpc u with heq | hnone
    · rw [← heq, hu]
    · rw [hu, hin] at hnone
      cases hnone
  refine ⟨fun t sig serial ht => ?_, fun t u sig serial serial' ht hu => ?_, ?_, ?_, fun t sig serial ht => ?_, ?_, ?_⟩
  · rw [hshared]
    exact h.chosen t sig serial (hold t _ _ ht rfl)
  · exact h.single t u sig serial serial' (hold t _ _ ht rfl) (hold u _ _ hu rfl)
  · rw [hshared, hserials, hconsumed]
    exact h.fresh
  · rw [hshared]
    exact h.distinct
  · obtain ⟨hlt, hnot, hfree, hother⟩ := h.calling t sig serial (hold t _ _ ht rfl)
    rw [hshared, hserials, hconsumed]
    refine ⟨hlt, hnot, hfree, fun u hu => hother u ?_⟩
    rw [hold u _ _ rfl hu]
    exact hu
  · rw [hserials, hconsumed]
    exact h.done
  · rw [hconsumed]
    exact h.nodup

omit [DecidableEq τ] in
theorem Inv.insertPending : (s.insertPending sig).Inv := by
  unfold SharedSignals.insertPending
  split
  · exact h
  · rename_i hnone
    have hlt : ∀ {serial}, serial < s.serials → serial < s.serials + 1 := fun h => h.trans (Nat.lt_succ_self _)
    refine ⟨fun t sig' serial ht => ?_, h.single, fun sig' serial hs => ?_, fun sig₁ sig₂ serial h₁ h₂ => ?_,
      fun t sig' serial ht => ?_, fun serial hs => hlt (h.done serial hs), h.nodup⟩
    · have hchosen := h.chosen t sig' serial ht
      have hne : sig' ≠ sig := by
        rintro rfl
        cases hnone.symm.trans hchosen
      exact (update_of_ne hne _ _).trans hchosen
    · rcases update_cases hs with ⟨-, heq⟩ | ⟨-, hold⟩
      · cases heq
        exact ⟨Nat.lt_succ_self _, fun hmem => lt_irrefl _ (h.done _ hmem)⟩
      · exact ⟨hlt (h.fresh sig' serial hold).1, (h.fresh sig' serial hold).2⟩
    · rcases update_cases h₁ with ⟨rfl, heq⟩ | ⟨-, hold₁⟩ <;> rcases update_cases h₂ with ⟨rfl, heq'⟩ | ⟨-, hold₂⟩
      · rfl
      · cases heq
        exact absurd (h.fresh _ _ hold₂).1 (lt_irrefl _)
      · cases heq'
        exact absurd (h.fresh _ _ hold₁).1 (lt_irrefl _)
      · exact h.distinct _ _ _ hold₁ hold₂
    · obtain ⟨hlt', hnot, hfree, hother⟩ := h.calling t sig' serial ht
      refine ⟨hlt hlt', hnot, fun sig'' hs => ?_, hother⟩
      rcases update_cases hs with ⟨-, heq⟩ | ⟨-, hold⟩
      · cases heq
        exact lt_irrefl _ hlt'
      · exact hfree sig'' hold

/-- A thread chooses a shared signal that no other thread has chosen. -/
theorem Inv.choose (hshared : s.shared sig = some serial)
    (hnone : ∀ u, chose sig (s.pc u) = false) : (s.goto t th (.remove sig serial)).Inv := by
  have hfree : ∀ {u serial'}, s.pc u ≠ .remove sig serial' := by
    intro u serial' hu
    have hchose := hnone u
    rw [hu] at hchose
    exact absurd hchose (by simp [chose])
  refine ⟨fun u sig' serial' hu => ?_, fun u v sig' serial₁ serial₂ hu hv => ?_, h.fresh, h.distinct,
    fun u sig' serial' hu => ?_, h.done, h.nodup⟩
  · rcases update_cases hu with ⟨-, heq⟩ | ⟨-, hold⟩
    · cases heq
      exact hshared
    · exact h.chosen u sig' serial' hold
  · rcases update_cases hu with ⟨rfl, heq⟩ | ⟨-, hold⟩ <;> rcases update_cases hv with ⟨rfl, heq'⟩ | ⟨-, hold'⟩
    · rfl
    · cases heq
      exact absurd hold' hfree
    · cases heq'
      exact absurd hold hfree
    · exact h.single u v sig' serial₁ serial₂ hold hold'
  · rcases update_cases hu with ⟨-, heq⟩ | ⟨-, hold⟩
    · cases heq
    · obtain ⟨hlt, hnot, hgone, hother⟩ := h.calling u sig' serial' hold
      refine ⟨hlt, hnot, hgone, fun v hv => ?_⟩
      generalize hpc : (s.goto t th (.remove sig serial)).pc v = pc at hv
      rcases update_cases hpc with ⟨-, rfl⟩ | ⟨-, rfl⟩
      · cases hv
        exact absurd hshared (hgone sig)
      · exact hother v hv

/-- The thread that chose a signal takes it out of the shared set. -/
theorem Inv.remove (ht : s.pc t = .remove sig serial) :
    ({ s with shared := update s.shared sig none }.goto t th (.call sig (some serial))).Inv := by
  have hchosen := h.chosen t sig serial ht
  have hsub : ∀ {sig' serial'}, update s.shared sig none sig' = some serial' →
      sig' ≠ sig ∧ s.shared sig' = some serial' := by
    intro sig' serial' hs
    have hne : sig' ≠ sig := by
      rintro rfl
      rw [update_self] at hs
      cases hs
    exact ⟨hne, (update_of_ne hne _ _).symm.trans hs⟩
  -- no other thread has the number that was pending until now
  have hmine : ∀ u, inHand (s.pc u) = some serial → u = t := by
    intro u hu
    cases hpc : s.pc u with
    | user =>
      rw [hpc] at hu
      cases hu
    | remove sig' serial' =>
      rw [hpc] at hu
      cases hu
      have hsig := h.distinct sig' sig serial (h.chosen u sig' serial hpc) hchosen
      subst hsig
      exact h.single u t sig' serial serial hpc ht
    | call sig' serial' =>
      rw [hpc] at hu
      have hserial : serial' = some serial := hu
      subst hserial
      exact absurd hchosen ((h.calling u sig' serial hpc).2.2.1 sig)
  refine ⟨fun u sig' serial' hu => ?_, fun u v sig' serial₁ serial₂ hu hv => ?_, fun sig' serial' hs => ?_,
    fun sig₁ sig₂ serial' h₁ h₂ => ?_, fun u sig' serial' hu => ?_, h.done, h.nodup⟩
  · rcases update_cases hu with ⟨-, heq⟩ | ⟨hut, hold⟩
    · cases heq
    · have hne : sig' ≠ sig := by
        rintro rfl
        exact hut (h.single u t sig' serial' serial hold ht)
      exact (update_of_ne hne _ _).trans (h.chosen u sig' serial' hold)
  · rcases update_cases hu with ⟨-, heq⟩ | ⟨-, hold⟩
    · cases heq
    · rcases update_cases hv with ⟨-, heq⟩ | ⟨-, hold'⟩
      · cases heq
      · exact h.single u v sig' serial₁ serial₂ hold hold'
  · exact h.fresh sig' serial' (hsub hs).2
  · exact h.distinct sig₁ sig₂ serial' (hsub h₁).2 (hsub h₂).2
  · have hback : ∀ v, inHand (update s.pc t (.call sig (some serial)) v) = some serial' →
        inHand (s.pc v) = some serial' := by
      intro v hv
      generalize hpc : update s.pc t (.call sig (some serial)) v = pc at hv
      rcases update_cases hpc with ⟨rfl, rfl⟩ | ⟨-, rfl⟩
      · rw [ht]
        exact hv
      · exact hv
    rcases update_cases hu with ⟨rfl, heq⟩ | ⟨-, hold⟩
    · cases heq
      refine ⟨(h.fresh sig serial hchosen).1, (h.fresh sig serial hchosen).2, fun sig' hs => ?_,
        fun v hv => hmine v (hback v hv)⟩
      exact (hsub hs).1 (h.distinct sig' sig serial (hsub hs).2 hchosen)
    · obtain ⟨hlt, hnot, hfree, hother⟩ := h.calling u sig' serial' hold
      exact ⟨hlt, hnot, fun sig'' hs => hfree sig'' (hsub hs).2, fun v hv => hother v (hback v hv)⟩

/-- A thread calls `call_signal_handler`. -/
theorem Inv.call {serial : Option Nat} (ht : s.pc t = .call sig serial) :
    ({ s with invoked := s.invoked ++ [(t, sig, serial)] }.goto t th .user).Inv := by
  have hpc : ∀ u, update s.pc t .user u = s.pc u ∨ inHand (update s.pc t .user u) = none := by
    exact fun u => forall_update u (.inr rfl) fun _ => .inl rfl
  cases serial with
  | none =>
    refine h.of_pcs rfl rfl ?_ hpc
    show (s.invoked ++ [(t, sig, none)]).filterMap _ = _
    rw [List.filterMap_append]
    exact List.append_nil _
  | some serial =>
    obtain ⟨hlt, hnot, hfree, hother⟩ := h.calling t sig serial ht
    have hconsumed : ({ s with invoked := s.invoked ++ [(t, sig, some serial)] }.goto t th .user).consumed =
        s.consumed ++ [serial] := List.filterMap_append
    have hmem : ∀ {x}, x ≠ serial → x ∉ s.consumed →
        x ∉ ({ s with invoked := s.invoked ++ [(t, sig, some serial)] }.goto t th .user).consumed := by
      intro x hne hx
      rw [hconsumed, List.mem_append, List.mem_singleton]
      exact not_or.mpr ⟨hx, hne⟩
    have hold : ∀ u pc x, update s.pc t .user u = pc → inHand pc = some x → u ≠ t ∧ s.pc u = pc := by
      intro u pc x hu hx
      have hut : u ≠ t := by
        rintro rfl
        rw [update_self] at hu
        rw [← hu] at hx
        cases hx
      exact ⟨hut, (update_of_ne hut _ _).symm.trans hu⟩
    refine ⟨fun u sig' x hu => h.chosen u sig' x (hold u _ _ hu rfl).2,
      fun u v sig' x y hu hv => h.single u v sig' x y (hold u _ _ hu rfl).2 (hold v _ _ hv rfl).2,
      fun sig' x hs => ⟨(h.fresh sig' x hs).1, hmem ?_ (h.fresh sig' x hs).2⟩, h.distinct, fun u sig' x hu => ?_,
      fun x hx => ?_, ?_⟩
    · rintro rfl
      exact hfree sig' hs
    · obtain ⟨hut, hu'⟩ := hold u _ _ hu rfl
      obtain ⟨hlt', hnot', hfree', hother'⟩ := h.calling u sig' x hu'
      have hne : x ≠ serial := by
        rintro rfl
        exact hut (hother u (by rw [hu']; rfl))
      refine ⟨hlt', hmem hne hnot', hfree', fun v hv => hother' v ?_⟩
      rw [(hold v _ _ rfl hv).2]
      exact hv
    · rw [hconsumed, List.mem_append, List.mem_singleton] at hx
      rcases hx with hx | rfl
      · exact h.done x hx
      · exact hlt
    · rw [hconsumed]
      exact List.nodup_append.mpr ⟨h.nodup, List.nodup_singleton _, by
        rintro x hx _ (_ | ⟨_, ⟨⟩⟩) rfl
        exact hnot hx⟩

/-- A thread whose place has no insertion in hand, before and after. -/
theorem Inv.idle (hpc : inHand pc = none) : (s.goto t th pc).Inv := by
  exact h.of_pcs rfl rfl rfl fun u => forall_update (motive := fun u p => p = s.pc u ∨ inHand p = none) u (.inr hpc) fun _ => .inl rfl

theorem Inv.handleSignals (horderly : s.Orderly t .handleSignals) : (s.handleSignals t).Inv := by
  unfold SharedSignals.handleSignals
  dsimp only
  cases hchoice : s.choice t with
  | none => exact h.idle rfl
  | some sig =>
    dsimp only
    by_cases hpending : (s.thread t).unmasked.pending sig = true
    · rw [if_pos hpending]
      exact h.idle rfl
    · rw [if_neg hpending]
      cases hshared : s.shared sig with
      | none => exact h.idle rfl
      | some serial => exact h.choose hshared (horderly sig hchoice (eq_false_of_ne_true hpending))

theorem Inv.orderlyStep (hs : s.OrderlyStep s') : s'.Inv := by
  obtain ⟨t, cmd, horderly, hs⟩ := hs
  cases cmd with
  | insertPending sig =>
    obtain ⟨-, rfl⟩ := of_guard hs
    exact h.insertPending
  | handleSignals =>
    obtain ⟨-, rfl⟩ := of_guard hs
    exact h.handleSignals horderly
  | next frameOk =>
    cases hpc : s.pc t with
    | user =>
      have hnone : s.next t frameOk = none := by
        unfold next
        rw [hpc]
      exact absurd (hnone.symm.trans hs) (by simp)
    | remove sig serial =>
      have hnext : s.next t frameOk =
          some ({ s with shared := update s.shared sig none }.goto t (s.thread t) (.call sig (some serial))) := by
        unfold next
        rw [hpc]
      cases hnext.symm.trans hs
      exact h.remove hpc
    | call sig serial =>
      have hnext : s.next t frameOk = some ({ s with invoked := s.invoked ++ [(t, sig, serial)] }.goto t
          ((s.thread t).callSignalHandler (s.action sig) frameOk sig).1 .user) := by
        unfold next
        rw [hpc]
      cases hnext.symm.trans hs
      exact h.call hpc
  | tkill sig =>
    obtain ⟨-, rfl⟩ := of_guard hs
    refine h.of_pcs rfl rfl rfl fun u => .inl ?_
    exact congrFun (update_eq_self t s.pc) u
  | setMask mask saved =>
    obtain ⟨-, rfl⟩ := of_guard hs
    exact h.idle rfl
  | sigaction sig action =>
    cases hs
    exact h.of_pcs rfl rfl rfl fun u => .inl rfl

omit h

omit [DecidableEq τ] in
theorem inv_init (thread : τ → ThreadSig) (action : Nat → SignalAction) : (init thread action).Inv := by
  refine ⟨?_, ?_, ?_, ?_, ?_, ?_, List.nodup_nil⟩
  · intro t sig serial ht
    cases ht
  · intro t u sig serial serial' ht
    cases ht
  · intro sig serial hs
    cases hs
  · intro sig sig' serial hs
    cases hs
  · intro t sig serial ht
    cases ht
  · intro serial hs
    cases hs

/-- In every run in which a thread chooses a shared signal only while no other thread is between its own choice of that
signal and the removal, no insertion into the shared set leads to two calls of `call_signal_handler`. -/
theorem shared_signal_once {thread : τ → ThreadSig} {action : Nat → SignalAction} {s : SharedSignals τ}
    (h : ReflTransGen OrderlyStep (init thread action) s) : s.consumed.Nodup :=
  (inv_of_reachable (inv_init thread action) (fun _ _ hinv hs => hinv.orderlyStep hs) h).nodup

instance [Fintype τ] (s : SharedSignals τ) (t : τ) (cmd : SharedCmd) : Decidable (s.Orderly t cmd) := by
  cases cmd <;> unfold Orderly <;> infer_instance

/-- A thread without signals that handles the one that is sent in user space. -/
def quiet : ThreadSig where
  pending _ := false
  blocked _ := false
  sigsuspendSavedMask := none
  termSignal := none
  frozen := false

def handled (_ : Nat) : SignalAction where
  handler := 0x1000
  flags := 0
  mask _ := false

/-- A signal is sent twice, and each time another thread handles it. -/
def inTurn (t u : τ) : List (τ × SharedCmd) :=
  [(t, .insertPending SIGALRM), (t, .handleSignals), (t, .next true), (u, .insertPending SIGALRM), (u, .handleSignals),
    (u, .next true), (t, .next true), (u, .next true)]

theorem shared_signal_once_in_turn :
    ∃ s : SharedSignals Bool, ReflTransGen OrderlyStep (init (fun _ => quiet) handled) s ∧
      s.consumed = [0, 1] ∧ s.consumed.Nodup := by
  obtain ⟨s, hs, hconsumed⟩ : ∃ s, runGuarded Orderly step (init (fun _ => quiet) handled) (inTurn true false) = some s ∧
      s.consumed = [0, 1] :=
    exists_of_any (by decide +kernel)
  have hrun : ReflTransGen OrderlyStep _ s := steps_of_runGuarded hs
  exact ⟨s, hrun, hconsumed, shared_signal_once hrun⟩

/-- The same signal, sent once, is read by both threads before either takes it out. -/
def atOnce (t u : τ) : List (τ × SharedCmd) :=
  [(t, .insertPending SIGALRM), (t, .handleSignals), (u, .handleSignals), (t, .next true), (u, .next true),
    (t, .next true), (u, .next true)]

/-- Both run the handler for the one signal. -/
theorem shared_signal_twice :
    ∃ s : SharedSignals Bool, ReflTransGen Step (init (fun _ => quiet) handled) s ∧ s.serials = 1 ∧
      s.invoked = [(true, SIGALRM, some 0), (false, SIGALRM, some 0)] :=
  exists_steps_of_any (atOnce true false) (by decide +kernel)

end SharedSignals

end ShellCore.Task
