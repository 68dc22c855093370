import ShellCore.Sched.Wakeup

/-!
# No CPU sleeps on work

A CPU arms its idle state under its gate, after it has looked at its queue. Whoever puts a task on that
queue passes the gate afterwards, and requests an interrupt if it finds the CPU armed. `GateInv` is the
invariant behind this protocol; only the steps of `mark_resched_and_kick` and of the idle loop touch
what it speaks of, and `Calm` covers all others.
-/

namespace ShellCore.Sched.Smp

open Relation

variable {γ τ : Type}

namespace Pc

/-- The gate that a CPU holds. -/
def gate (c : γ) : Pc γ τ → Option γ
  | kick .wait _ _ => none
  | kick _ target _ => some target
  | idle .armCheck | idle (.armStore _) | idle (.armLeave _) => some c
  | idle .exitStore | idle .exitAck | idle .exitClear | idle .exitLeave => some c
  | _ => none

/-- The CPU has published `IdleWfi`. -/
def armed : Pc γ τ → Bool
  | idle (.armLeave true) | idle .wfi | idle .exitWait | idle .exitStore => true
  | _ => false

/-- The CPU has found its queue empty under the gate, and may have published `IdleWfi`. -/
def arming : Pc γ τ → Bool
  | idle (.armStore true) => true
  | p => p.armed

/-- The CPU has left the armed state and is about to clear `ipi_pending`. -/
def acking : Pc γ τ → Bool
  | idle .exitAck | idle .exitClear => true
  | _ => false

/-- The CPU has put a task on the queue of `target` and not yet passed its gate. -/
def Owes (target : γ) : Pc γ τ → Prop
  | publish _ (some d) _ => d = target
  | kick stage d _ => d = target ∧ stage ≠ .leave
  | _ => False

/-- The CPU has found `target` armed. -/
def Found (target : γ) : Pc γ τ → Prop
  | kick .swap d _ | kick .send d _ => d = target
  | _ => False

/-- The CPU has set `ipi_pending` and is about to request the interrupt. -/
def Sends (target : γ) : Pc γ τ → Prop
  | kick .send d _ => d = target
  | _ => False

/-- The CPU holds no gate and is not idle. -/
def Plain : Pc γ τ → Prop
  | kick stage _ _ => stage = .wait
  | idle stage => stage = .prepare ∨ stage = .armWait
  | _ => True

/-- The CPU is busy and owes nobody a kick. -/
def Busy (p : Pc γ τ) : Prop := p.Plain ∧ ∀ d, ¬p.Owes d

variable {p : Pc γ τ} {c d : γ}

theorem Sends.found (h : p.Sends c) : p.Found c := by
  unfold Sends at h
  split at h
  · exact h
  · exact h.elim

theorem Found.gate (h : p.Found c) : p.gate d = some c := by
  unfold Found at h
  split at h
  · exact congrArg some h
  · exact congrArg some h
  · exact h.elim

theorem Plain.gate (h : p.Plain) : p.gate c = none := by
  unfold Pc.gate
  split <;> simp_all [Plain]

theorem Plain.armed (h : p.Plain) : p.armed = false := by
  unfold Pc.armed
  split <;> simp_all [Plain]

theorem Plain.arming (h : p.Plain) : p.arming = false := by
  unfold Pc.arming
  split
  · simp_all [Plain]
  · exact h.armed

theorem Plain.acking (h : p.Plain) : p.acking = false := by
  unfold Pc.acking
  split <;> simp_all [Plain]

theorem Plain.not_found (h : p.Plain) : ¬p.Found c := by
  intro hf
  have hg := hf.gate (d := c)
  cases h.gate.symm.trans hg

/-- A CPU that is about to arm, and has not yet, holds its own gate. -/
theorem arming_cases (h : p.arming = true) : p.armed = true ∨ p.gate c = some c := by
  unfold arming at h
  split at h
  · exact .inr rfl
  · exact .inl h

theorem arming_of_armed (h : p.armed = true) : p.arming = true := by
  unfold arming
  split
  · rfl
  · exact h

end Pc

variable {s₁ : Scheduler γ τ} {rq : Rqinner τ} {p : Pc γ τ} {k : Cont τ}

namespace Scheduler

structure GateInv (s : Scheduler γ τ) : Prop where
  length : ∀ c, (s.rq c).nrRunning = (s.rq c).tasks.length
  held : ∀ d c, (s.pc d).gate d = some c → s.gate c = some d
  armed : ∀ c, (s.view c).idleState = .idleWfi ↔ (s.pc c).armed = true
  pending : ∀ c, (s.view c).ipiPending = true → (s.pc c).armed = true ∨ (s.pc c).acking = true
  found : ∀ d c, (s.pc d).Found c → (s.pc c).armed = true
  sent : ∀ c, (s.pc c).armed = true → (s.view c).ipiPending = true → s.ipi c = true ∨ ∃ d, (s.pc d).Sends c
  covered : ∀ c, (s.pc c).arming = true → (s.rq c).tasks ≠ [] → s.ipi c = true ∨ ∃ d, (s.pc d).Owes c

variable {s s' : Scheduler γ τ} {a c d : γ}

/-- The step of CPU `a` leaves the protocol alone: `a` is busy before and after it, and what it puts on
a queue it still has to announce. -/
structure Calm (s s' : Scheduler γ τ) (a : γ) : Prop where
  old : (s.pc a).Plain
  new : (s'.pc a).Plain
  pc : ∀ d, d ≠ a → s'.pc d = s.pc d
  gate : s'.gate = s.gate
  idle : ∀ d, d ≠ a → (s'.view d).idleState = (s.view d).idleState
  own : (s'.view a).idleState = .idleWfi → (s.view a).idleState = .idleWfi
  pending : ∀ d, (s'.view d).ipiPending = (s.view d).ipiPending
  ipi : ∀ d, d ≠ a → s'.ipi d = s.ipi d
  owes : ∀ d, d ≠ a → (s.pc a).Owes d → (s'.pc a).Owes d
  rq : ∀ d, d ≠ a → (s'.rq d).tasks ≠ [] → (s.rq d).tasks ≠ [] ∨ (s'.pc a).Owes d
  length : ∀ d, (s.rq d).nrRunning = (s.rq d).tasks.length → (s'.rq d).nrRunning = (s'.rq d).tasks.length

section

variable [DecidableEq γ]

/-- If some CPU is at a point that satisfies `P`, then some CPU still is after a step of `a`. -/
theorem exists_pc {P : Pc γ τ → Prop} (hpc : ∀ d, d ≠ a → s'.pc d = s.pc d) (ha : P (s.pc a) → P (s'.pc a))
    (h : ∃ d, P (s.pc d)) : ∃ d, P (s'.pc d) := by
  obtain ⟨d, hd⟩ := h
  by_cases hda : d = a
  · exact ⟨a, ha (hda ▸ hd)⟩
  · exact ⟨d, (hpc d hda).symm ▸ hd⟩

variable (h : s.GateInv)

include h

theorem GateInv.calm (hs : Calm s s' a) : s'.GateInv := by
  have harmed : ∀ c, (s'.pc c).armed = true → c ≠ a ∧ (s.pc c).armed = true := by
    intro c hc
    by_cases hca : c = a
    · rw [hca, hs.new.armed] at hc
      cases hc
    · exact ⟨hca, (hs.pc c hca) ▸ hc⟩
  refine ⟨fun c => hs.length c (h.length c), fun d c hg => ?_, fun c => ?_, fun c hp => ?_, fun d c hf => ?_,
    fun c hc hp => ?_, fun c hc hq => ?_⟩
  · by_cases hda : d = a
    · rw [hda, hs.new.gate] at hg
      cases hg
    · rw [hs.gate]
      exact h.held d c ((hs.pc d hda) ▸ hg)
  · by_cases hca : c = a
    · rw [hca, hs.new.armed]
      refine iff_of_false (fun hw => ?_) Bool.false_ne_true
      have hold := (h.armed a).1 (hs.own hw)
      cases hs.old.armed.symm.trans hold
    · rw [hs.idle c hca, hs.pc c hca]
      exact h.armed c
  · rw [hs.pending] at hp
    by_cases hca : c = a
    · have hold := h.pending a (hca ▸ hp)
      rw [hs.old.armed, hs.old.acking] at hold
      exact hold.elim nofun nofun
    · rw [hs.pc c hca]
      exact h.pending c hp
  · have hd : d ≠ a := fun e => hs.new.not_found (e ▸ hf)
    have hold := h.found d c ((hs.pc d hd) ▸ hf)
    have hc : c ≠ a := by
      intro e
      rw [e, hs.old.armed] at hold
      cases hold
    rw [hs.pc c hc]
    exact hold
  · obtain ⟨hca, hold⟩ := harmed c hc
    rw [hs.pending] at hp
    rw [hs.ipi c hca]
    exact (h.sent c hold hp).imp_right (exists_pc hs.pc fun hsend => absurd hsend.found hs.old.not_found)
  · have hca : c ≠ a := by
      intro e
      rw [e, hs.new.arming] at hc
      cases hc
    rw [hs.ipi c hca]
    rcases hs.rq c hca hq with hold | howes
    · exact (h.covered c ((hs.pc c hca) ▸ hc) hold).imp_right (exists_pc hs.pc (hs.owes c hca))
    · exact .inr ⟨a, howes⟩

/-- A step of CPU `a` that passes the gate of some CPU, or goes on inside it, without a change to what is
published. -/
structure Passes (s s' : Scheduler γ τ) (a : γ) : Prop where
  pc : ∀ d, d ≠ a → s'.pc d = s.pc d
  rq : s'.rq = s.rq
  view : s'.view = s.view
  ipi : ∀ d, s.ipi d = true → s'.ipi d = true
  held : ∀ d c, (s'.pc d).gate d = some c → s'.gate c = some d
  armed : (s'.pc a).armed = (s.pc a).armed
  arming : (s'.pc a).arming = (s.pc a).arming
  acking : (s.pc a).acking = true → (s'.pc a).acking = true
  found : ∀ c, (s'.pc a).Found c → (s.pc c).armed = true
  sends : ∀ c, (s.pc a).Sends c → s'.ipi c = true
  owes : ∀ c, (s.pc c).arming = true → (s.pc a).Owes c → (s'.pc a).Owes c ∨ s'.ipi c = true

theorem GateInv.passes (hs : Passes s s' a) : s'.GateInv := by
  have harmed : ∀ c, (s'.pc c).armed = (s.pc c).armed := by
    intro c
    by_cases hca : c = a
    · rw [hca, hs.armed]
    · rw [hs.pc c hca]
  have harming : ∀ c, (s'.pc c).arming = (s.pc c).arming := by
    intro c
    by_cases hca : c = a
    · rw [hca, hs.arming]
    · rw [hs.pc c hca]
  refine ⟨fun c => hs.rq ▸ h.length c, hs.held, fun c => ?_, fun c hp => ?_, fun d c hf => ?_, fun c hc hp => ?_,
    fun c hc hq => ?_⟩
  · rw [hs.view, harmed]
    exact h.armed c
  · rw [hs.view] at hp
    refine (h.pending c hp).imp (fun hc => (harmed c).trans hc) fun hc => ?_
    by_cases hca : c = a
    · exact hca ▸ hs.acking (hca ▸ hc)
    · rw [hs.pc c hca]
      exact hc
  · rw [harmed]
    by_cases hda : d = a
    · exact hs.found c (hda ▸ hf)
    · exact h.found d c ((hs.pc d hda) ▸ hf)
  · rw [harmed] at hc
    rw [hs.view] at hp
    rcases h.sent c hc hp with hi | ⟨d, hd⟩
    · exact .inl (hs.ipi c hi)
    · by_cases hda : d = a
      · exact .inl (hs.sends c (hda ▸ hd))
      · exact .inr ⟨d, (hs.pc d hda).symm ▸ hd⟩
  · rw [harming] at hc
    rw [hs.rq] at hq
    rcases h.covered c hc hq with hi | ⟨d, hd⟩
    · exact .inl (hs.ipi c hi)
    · by_cases hda : d = a
      · exact (hs.owes c hc (hda ▸ hd)).symm.imp_right fun ho => ⟨a, ho⟩
      · exact .inr ⟨d, (hs.pc d hda).symm ▸ hd⟩

omit [DecidableEq γ] in
/-- The holder of a gate is the only CPU inside it. -/
theorem GateInv.alone (ha : (s.pc a).gate a = some c) (hd : (s.pc d).gate d = some c) : d = a :=
  Option.some.inj ((h.held d c hd).symm.trans (h.held a c ha))

/-- Taking a free gate, and leaving a gate. -/
theorem GateInv.held_take (hfree : s.gate c = none) (hp : p.gate a = some c) :
    ∀ d e, (((s.setGate c (some a)).goto a p).pc d).gate d = some e →
      ((s.setGate c (some a)).goto a p).gate e = some d := by
  intro d e hg
  by_cases hda : d = a
  · subst hda
    rw [goto_pc_self, hp] at hg
    cases hg
    simp
  · rw [goto_pc_of_ne _ _ _ hda] at hg
    have hold := h.held d e hg
    have hec : e ≠ c := by
      intro he
      rw [he, hfree] at hold
      cases hold
    simpa [hec] using hold

theorem GateInv.held_leave (hold : (s.pc a).gate a = some c) (hp : p.gate a = none) :
    ∀ d e, (((s.setGate c none).goto a p).pc d).gate d = some e → ((s.setGate c none).goto a p).gate e = some d := by
  intro d e hg
  by_cases hda : d = a
  · subst hda
    rw [goto_pc_self, hp] at hg
    cases hg
  · rw [goto_pc_of_ne _ _ _ hda] at hg
    have hec : e ≠ c := fun he => hda (h.alone hold (he ▸ hg))
    simpa [hec] using h.held d e hg

theorem GateInv.held_stay (hg : s₁.gate = s.gate) (hpc : s₁.pc = s.pc)
    (hp : p.gate a = (s.pc a).gate a) : ∀ d e, ((s₁.goto a p).pc d).gate d = some e → (s₁.goto a p).gate e = some d := by
  intro d e hge
  rw [goto_gate, hg]
  by_cases hda : d = a
  · subst hda
    rw [goto_pc_self, hp] at hge
    exact h.held d e hge
  · rw [goto_pc_of_ne _ _ _ hda, hpc] at hge
    exact h.held d e hge

omit h [DecidableEq γ] in
theorem pc_plain (k : Cont τ) : (k.pc : Pc γ τ).Plain := by
  cases k with
  | loop | task | run => trivial
  | idle => exact .inl rfl

/-- CPU `a` goes from `p` to `p'`, past a gate or inside one. -/
theorem GateInv.pass {p p' : Pc γ τ} (hpc : s.pc a = p) (hpc₁ : s₁.pc = s.pc)
    (hrq : s₁.rq = s.rq) (hview : s₁.view = s.view) (hipi : ∀ d, s.ipi d = true → s₁.ipi d = true)
    (hheld : ∀ d c, ((s₁.goto a p').pc d).gate d = some c → (s₁.goto a p').gate c = some d)
    (harmed : p'.armed = p.armed) (harming : p'.arming = p.arming) (hacking : p.acking = true → p'.acking = true)
    (hfound : ∀ c, p'.Found c → (s.pc c).armed = true) (hsends : ∀ c, p.Sends c → s₁.ipi c = true)
    (howes : ∀ c, (s.pc c).arming = true → p.Owes c → p'.Owes c ∨ s₁.ipi c = true) : GateInv (s₁.goto a p') := by
  subst hpc
  have hself := goto_pc_self (s := s₁) (c := a) p'
  exact h.passes (a := a) ⟨fun d hd => by rw [goto_pc_of_ne _ _ _ hd, hpc₁], hrq, hview, hipi, hheld, by rwa [hself],
    by rwa [hself], by rwa [hself], by rwa [hself], hsends, by rwa [hself]⟩

theorem GateInv.kick_check (hpc : s.pc a = .kick .check d k) :
    GateInv (s.goto a (.kick (if (s.view d).idleState = .idleWfi then .swap else .leave) d k)) := by
  have hgate : (s.pc a).gate a = some d := by rw [hpc]; rfl
  by_cases hw : (s.view d).idleState = .idleWfi
  · rw [if_pos hw]
    refine h.pass hpc rfl rfl rfl (fun _ => id) (h.held_stay rfl rfl hgate.symm) rfl rfl nofun ?_ nofun
      fun _ _ ho => .inl ⟨ho.1, nofun⟩
    rintro c rfl
    exact (h.armed d).1 hw
  · rw [if_neg hw]
    refine h.pass hpc rfl rfl rfl (fun _ => id) (h.held_stay rfl rfl hgate.symm) rfl rfl nofun nofun nofun ?_
    -- a CPU that is about to arm holds its gate, so it is armed or the gate is not ours
    rintro c hc ⟨rfl, -⟩
    rcases Pc.arming_cases (c := d) hc with harm | hg
    · exact absurd ((h.armed d).2 harm) hw
    · obtain rfl := h.alone hgate hg
      rw [hpc] at hc
      cases hc

attribute [simp] Pc.Plain Pc.Owes Pc.armed

theorem GateInv.kick_swap (hpc : s.pc a = .kick .swap d k) :
    GateInv ((s.setView d { s.view d with ipiPending := true }).goto a
      (.kick (if (s.view d).ipiPending then .leave else .send) d k)) := by
  have hgate : (s.pc a).gate a = some d := by rw [hpc]; rfl
  have hfound : (s.pc d).armed = true := h.found a d (by rw [hpc]; rfl)
  generalize hstage : (if (s.view d).ipiPending then KickStage.leave else .send) = stage
  -- nobody else is inside the gate, so what was already pending has been sent
  have hsure : stage = .leave → s.ipi d = true := by
    intro hl
    have hp : (s.view d).ipiPending = true := by
      by_contra hn
      rw [if_neg hn, hl] at hstage
      cases hstage
    refine (h.sent d hfound hp).resolve_right ?_
    rintro ⟨e, he⟩
    obtain rfl := h.alone hgate he.found.gate
    rw [hpc] at he
    exact he
  have hstage' : stage = .leave ∨ stage = .send := by
    rw [← hstage]
    split
    · exact .inl rfl
    · exact .inr rfl
  have harmed : ∀ (v : RqView) c, (((s.setView d v).goto a (.kick stage d k)).pc c).armed = (s.pc c).armed ∧
      (((s.setView d v).goto a (.kick stage d k)).pc c).arming = (s.pc c).arming := by
    intro v c
    by_cases hca : c = a
    · simp [hca, hpc, Pc.arming]
    · simp [hca]
  refine ⟨h.length, h.held_stay rfl rfl ?_, fun c => ?_, fun c hp => ?_, fun e c hf => ?_, fun c hc hp => ?_,
    fun c hc hq => ?_⟩
  · rcases hstage' with rfl | rfl <;> rw [hpc] <;> rfl
  · rw [(harmed _ c).1, ← h.armed c]
    by_cases hcd : c = d
    · simp [hcd]
    · simp [hcd]
  · by_cases hcd : c = d
    · rw [hcd, (harmed _ d).1]
      exact .inl hfound
    · have hca : (s.pc c).armed = true ∨ (s.pc c).acking = true := h.pending c (by simpa [hcd] using hp)
      rw [(harmed _ c).1]
      refine hca.imp_right fun hack => ?_
      have hne : c ≠ a := by
        rintro rfl
        rw [hpc] at hack
        cases hack
      simpa [hne] using hack
  · rw [(harmed _ c).1]
    by_cases hea : e = a
    · have hdc : d = c := by
        rcases hstage' with rfl | rfl
        · simp [hea, Pc.Found] at hf
        · simpa [hea, Pc.Found] using hf
      exact hdc ▸ hfound
    · exact h.found e c (by simpa [hea] using hf)
  · rw [(harmed _ c).1] at hc
    by_cases hcd : c = d
    · rcases hstage' with rfl | rfl
      · exact .inl (hcd ▸ hsure rfl)
      · exact .inr ⟨a, by simp [hcd, Pc.Sends]⟩
    · refine (h.sent c hc (by simpa [hcd] using hp)).imp_right (exists_pc (a := a) (fun e he => by simp [he]) ?_)
      simp [hpc, Pc.Sends]
  · rw [(harmed _ c).2] at hc
    rcases h.covered c hc hq with hi | ho
    · exact .inl hi
    · rcases hstage' with rfl | rfl
      · by_cases hcd : c = d
        · exact .inl (hcd ▸ hsure rfl)
        · refine .inr (exists_pc (a := a) (fun e he => by simp [he]) ?_ ho)
          simp [hpc, Ne.symm hcd]
      · refine .inr (exists_pc (a := a) (fun e he => by simp [he]) ?_ ho)
        simp [hpc]

theorem GateInv.kick {stage : KickStage} (hpc : s.pc a = .kick stage d k)
    (hk : s.kick a d k stage = some s') : s'.GateInv := by
  cases stage with
  | wait =>
    obtain ⟨hfree, rfl⟩ := of_guard hk
    exact h.pass hpc rfl rfl rfl (fun _ => id) (h.held_take hfree rfl) rfl rfl nofun nofun nofun fun _ _ ho => .inl ⟨ho.1, nofun⟩
  | check =>
    cases hk
    exact h.kick_check hpc
  | swap =>
    cases hk
    exact h.kick_swap hpc
  | send =>
    cases hk
    have hself := setIpi_ipi_self (s := s) (c := d) true
    refine h.pass hpc rfl rfl rfl (fun e he => ?_) (h.held_stay rfl rfl (by rw [hpc]; rfl)) rfl rfl nofun nofun
      (fun c hc => ?_) fun c _ ho => .inr ?_
    · by_cases hed : e = d
      · rw [hed, hself]
      · rwa [setIpi_ipi_of_ne _ _ _ hed]
    · exact (show d = c from hc) ▸ hself
    · exact ho.1 ▸ hself
  | leave =>
    cases hk
    have hgate : (s.pc a).gate a = some d := by rw [hpc]; rfl
    have hplain : (k.pc : Pc γ τ).Plain := pc_plain k
    exact h.pass hpc rfl rfl rfl (fun _ => id) (h.held_leave hgate hplain.gate) hplain.armed hplain.arming nofun
      (fun _ hf => absurd hf hplain.not_found) nofun fun _ _ ho => absurd rfl ho.2

/-- A step of the idle loop inside the CPU's own gate, where nobody else can have found it armed. -/
theorem GateInv.own_gate {st st' : IdleStage} (hpc : s.pc a = .idle st)
    (hgate : s₁.gate = s.gate) (hpc₁ : s₁.pc = s.pc) (hrq : s₁.rq = s.rq) (hview : ∀ d, d ≠ a → s₁.view d = s.view d)
    (hipi : ∀ d, d ≠ a → s₁.ipi d = s.ipi d) (hold : Pc.gate a (.idle st : Pc γ τ) = some a)
    (hnew : Pc.gate a (.idle st' : Pc γ τ) = some a)
    (harmed : (s₁.view a).idleState = .idleWfi ↔ (Pc.idle st' : Pc γ τ).armed = true)
    (hpending : (s₁.view a).ipiPending = true → (Pc.idle st' : Pc γ τ).acking = true)
    (hcovered : (Pc.idle st' : Pc γ τ).arming = true → (s.rq a).tasks ≠ [] → s₁.ipi a = true ∨ ∃ d, (s.pc d).Owes a) :
    GateInv (s₁.goto a (.idle st')) := by
  have hpc' : ∀ d, d ≠ a → (s₁.goto a (.idle st')).pc d = s.pc d := by
    intro d hd
    rw [goto_pc_of_ne _ _ _ hd, hpc₁]
  have hnone : ∀ c, ¬(s.pc a).Owes c ∧ ¬(s.pc a).Sends c ∧ ¬((s₁.goto a (.idle st')).pc a).Found c := by
    intro c
    rw [hpc, goto_pc_self]
    exact ⟨nofun, nofun, nofun⟩
  have hdead : (Pc.idle st' : Pc γ τ).armed = true → (Pc.idle st' : Pc γ τ).acking = false := by
    cases st' <;> simp [Pc.acking]
  refine ⟨fun c => ?_, h.held_stay hgate hpc₁ ?_, fun c => ?_, fun c hp => ?_, fun d c hf => ?_, fun c hc hp => ?_,
    fun c hc hq => ?_⟩
  · rw [goto_rq, hrq]
    exact h.length c
  · rw [hnew, hpc, hold]
  · by_cases hca : c = a
    · rw [hca, goto_pc_self]
      exact harmed
    · rw [hpc' c hca, goto_view, hview c hca]
      exact h.armed c
  · by_cases hca : c = a
    · rw [hca, goto_pc_self]
      exact .inr (hpending (hca ▸ hp))
    · rw [hpc' c hca]
      rw [goto_view, hview c hca] at hp
      exact h.pending c hp
  · have hda : d ≠ a := fun e => (hnone c).2.2 (e ▸ hf)
    rw [hpc' d hda] at hf
    have hca : c ≠ a := by
      rintro rfl
      exact hda (h.alone (by rw [hpc, hold]) hf.gate)
    rw [hpc' c hca]
    exact h.found d c hf
  · by_cases hca : c = a
    · rw [hca, goto_pc_self] at hc
      have hack := hpending (hca ▸ hp)
      rw [hdead hc] at hack
      cases hack
    · rw [hpc' c hca] at hc
      rw [goto_view, hview c hca] at hp
      rw [goto_ipi, hipi c hca]
      exact (h.sent c hc hp).imp_right (exists_pc hpc' fun hs => absurd hs (hnone c).2.1)
  · rw [goto_rq, hrq] at hq
    by_cases hca : c = a
    · rw [hca, goto_pc_self] at hc
      rw [hca]
      exact (hcovered hc (hca ▸ hq)).imp_right (exists_pc hpc' fun ho => absurd ho (hnone a).1)
    · rw [hpc' c hca] at hc
      rw [goto_ipi, hipi c hca]
      exact (h.covered c hc hq).imp_right (exists_pc hpc' fun ho => absurd ho (hnone c).1)

theorem GateInv.idle {stage : IdleStage} (hpc : s.pc a = .idle stage) (hi : s.idle a stage = some s') :
    s'.GateInv := by
  cases stage with
  | prepare =>
    cases hi
    refine h.calm (a := a) ⟨by simp [hpc], by simp, fun e he => by simp [he], rfl, fun e he => ?_, ?_,
      fun e => ?_, fun _ _ => rfl, by simp [hpc], fun e _ he => .inl he, fun _ => id⟩
    · simp [storeIdleState, he]
    · simp [storeIdleState]
    · by_cases he : e = a
      · simp [he, storeIdleState]
      · simp [he, storeIdleState]
  | armWait | exitWait =>
    obtain ⟨hfree, rfl⟩ := of_guard hi
    exact h.pass hpc rfl rfl rfl (fun _ => id) (h.held_take hfree rfl) rfl rfl nofun nofun nofun fun _ _ => False.elim
  | armCheck =>
    cases hi
    refine h.own_gate hpc rfl rfl rfl (fun _ _ => rfl) (fun _ _ => rfl) rfl rfl ?_ ?_ ?_
    · rw [h.armed a, hpc]
      rfl
    · intro hp
      have hold := h.pending a hp
      rw [hpc] at hold
      exact hold.elim nofun nofun
    · intro hc hq
      have hlen := h.length a
      have hzero : (s.rq a).nrRunning = 0 := by
        cases he : (s.rq a).nrRunning == 0
        · rw [he] at hc
          cases hc
        · exact beq_iff_eq.1 he
      exact absurd (List.length_eq_zero_iff.1 (hlen.symm.trans hzero)) hq
  | armStore empty =>
    cases hi
    refine h.own_gate hpc rfl rfl rfl (fun d hd => ?_) (fun _ _ => rfl) rfl rfl ?_ ?_ ?_
    · simp [storeIdleState, hd]
    · cases empty <;> simp [storeIdleState]
    · intro hp
      have hold := h.pending a (by simpa [storeIdleState] using hp)
      rw [hpc] at hold
      exact hold.elim nofun nofun
    · intro hc hq
      refine h.covered a ?_ hq
      rw [hpc]
      cases empty
      · cases hc
      · rfl
  | armLeave empty =>
    cases hi
    have hgate : (s.pc a).gate a = some a := by rw [hpc]; rfl
    cases empty with
    | true | false =>
      exact h.pass hpc rfl rfl rfl (fun _ => id) (h.held_leave hgate rfl) rfl rfl nofun nofun nofun fun _ _ => False.elim
  | wfi =>
    cases hi
    exact h.pass hpc rfl rfl rfl (fun _ => id) (h.held_stay rfl rfl (by rw [hpc]; rfl)) rfl rfl nofun nofun nofun
      fun _ _ => False.elim
  | exitStore =>
    cases hi
    refine h.own_gate hpc rfl rfl rfl (fun d hd => ?_) (fun _ _ => rfl) rfl rfl ?_ (fun _ => rfl) nofun
    · simp [storeIdleState, hd]
    · simp [storeIdleState]
  | exitAck =>
    cases hi
    refine h.own_gate hpc rfl rfl rfl (fun _ _ => rfl) (fun d hd => ?_) rfl rfl ?_ (fun _ => rfl) nofun
    · simp [hd]
    · rw [setIpi_view, h.armed a, hpc]
      rfl
  | exitClear =>
    cases hi
    refine h.own_gate hpc rfl rfl rfl (fun d hd => ?_) (fun _ _ => rfl) rfl rfl ?_ ?_ nofun
    · simp [hd]
    · have hold := h.armed a
      rw [hpc] at hold
      simpa using hold
    · simp
  | exitLeave =>
    cases hi
    have hgate : (s.pc a).gate a = some a := by rw [hpc]; rfl
    exact h.pass hpc rfl rfl rfl (fun _ => id) (h.held_leave hgate rfl) rfl rfl nofun nofun nofun fun _ _ => False.elim

/-- The two states differ at most in their tasks and queues. -/
structure SameGates (s₁ s : Scheduler γ τ) : Prop where
  pc : s₁.pc = s.pc
  gate : s₁.gate = s.gate
  view : s₁.view = s.view
  ipi : s₁.ipi = s.ipi

omit h in
theorem calm_goto (hs : SameGates s₁ s) (hold : (s.pc a).Plain) (hnew : p.Plain)
    (howes : ∀ d, d ≠ a → (s.pc a).Owes d → p.Owes d)
    (hrq : ∀ d, d ≠ a → (s₁.rq d).tasks ≠ [] → (s.rq d).tasks ≠ [] ∨ p.Owes d)
    (hlen : ∀ d, (s.rq d).nrRunning = (s.rq d).tasks.length → (s₁.rq d).nrRunning = (s₁.rq d).tasks.length) :
    Calm s (s₁.goto a p) a where
  old := hold
  new := by rwa [goto_pc_self]
  pc d hd := by rw [goto_pc_of_ne _ _ _ hd, hs.pc]
  gate := hs.gate
  idle d _ := by rw [goto_view, hs.view]
  own := by rw [goto_view, hs.view]; exact id
  pending d := by rw [goto_view, hs.view]
  ipi d _ := by rw [goto_ipi, hs.ipi]
  owes d hd := by
    rw [goto_pc_self]
    exact howes d hd
  rq d hd := by
    rw [goto_pc_self]
    exact hrq d hd
  length := hlen

/-- A busy CPU goes on, possibly with another record for some task. -/
theorem GateInv.goto {p q : Pc γ τ} (hpc : s.pc a = q) (hold : q.Busy) (hnew : p.Plain)
    (hs : SameGates s₁ s) (hrq : s₁.rq = s.rq) : GateInv (s₁.goto a p) := by
  subst hpc
  refine h.calm (calm_goto hs hold.1 hnew (fun d _ ho => absurd ho (hold.2 d)) (fun d _ hd => ?_) (fun d hd => ?_))
  · exact .inl (hrq ▸ hd)
  · rw [hrq]
    exact hd

omit h

theorem setRq_length (hq : (s.rq c).nrRunning = (s.rq c).tasks.length →
    rq.nrRunning = rq.tasks.length) : ∀ d, (s.rq d).nrRunning = (s.rq d).tasks.length →
      ((s.setRq c rq).rq d).nrRunning = ((s.setRq c rq).rq d).tasks.length := by
  intro d hd
  by_cases hdc : d = c
  · subst hdc
    simpa using hq hd
  · simpa [hdc] using hd

theorem setRq_nonempty {t : τ} (ht : t ∈ (s.rq c).tasks) :
    ∀ d, ((s.setRq c rq).rq d).tasks ≠ [] → (s.rq d).tasks ≠ [] := by
  intro d hd
  by_cases hdc : d = c
  · rw [hdc]
    exact List.ne_nil_of_mem ht
  · simpa [hdc] using hd

/-- A busy CPU takes a task off the queue of `c`, or moves it to the back. -/
theorem GateInv.goto_setRq (h : s.GateInv) {p q : Pc γ τ} {t : τ}
    (hpc : s.pc a = q) (hold : q.Busy) (hnew : p.Plain) (hs : SameGates s₁ s) (hrq : s₁.rq = (s.setRq c rq).rq)
    (ht : t ∈ (s.rq c).tasks)
    (hq : (s.rq c).nrRunning = (s.rq c).tasks.length → rq.nrRunning = rq.tasks.length) : GateInv (s₁.goto a p) := by
  subst hpc
  refine h.calm (calm_goto hs hold.1 hnew (fun d _ ho => absurd ho (hold.2 d)) (fun d _ hd => ?_) (fun d hd => ?_))
  · exact .inl (setRq_nonempty ht d (hrq ▸ hd))
  · rw [hrq]
    exact setRq_length hq d hd

theorem apply_idleState (op : ViewOp γ) : ((s.apply op).view d).idleState = (s.view d).idleState ∧
    ((s.apply op).view d).ipiPending = (s.view d).ipiPending := by
  cases op with
  | addCount e | addWeight e | subCount e | subWeight e | consume e =>
    by_cases hd : d = e
    · simp [apply, hd]
    · simp [apply, hd]

end

theorem insert_length {t : τ} (h : rq.nrRunning = rq.tasks.length) :
    (rq.insert t).nrRunning = (rq.insert t).tasks.length := by
  simp only [Rqinner.insert, List.length_append, List.length_singleton, h]

theorem caller_busy (h : caller p = some k) : p.Busy := by
  cases p <;> simp only [caller, reduceCtorEq] at h
  · exact ⟨trivial, fun _ => id⟩
  · exact ⟨trivial, fun _ => id⟩

theorem gateInv_init {home : γ} : (init home : Scheduler γ τ).GateInv :=
  ⟨fun _ => rfl, fun _ _ => nofun, fun _ => ⟨nofun, nofun⟩, fun _ => nofun, fun _ _ => nofun, fun _ => nofun,
    fun _ => nofun⟩

section

variable [DecidableEq γ] [DecidableEq τ] {w : τ → Nat} {t : τ}

omit [DecidableEq γ] in
theorem take_length (ht : t ∈ rq.tasks) (h : rq.nrRunning = rq.tasks.length) :
    (rq.take t).nrRunning = (rq.take t).tasks.length := by
  simp only [Rqinner.take, List.length_erase_of_mem ht, h]

theorem GateInv.move (h : s.GateInv) (hi : s.Inv) {cmd : Cmd γ τ} (hm : Move w s a cmd s') : s'.GateInv := by
  cases hm with
  | none hpc _ | schedule hpc _ | resume hpc | pool hpc | choose hpc | start hpc =>
    exact h.goto hpc ⟨trivial, fun _ => id⟩ trivial ⟨rfl, rfl, rfl, rfl⟩ rfl
  | giveUp hpc => exact h.goto hpc ⟨trivial, fun _ => id⟩ (.inl rfl) ⟨rfl, rfl, rfl, rfl⟩ rfl
  | pop hpc ht =>
    exact h.goto_setRq hpc ⟨trivial, fun _ => id⟩ trivial ⟨rfl, rfl, rfl, rfl⟩ rfl ht (take_length ht)
  | fetch hpc =>
    rw [hi.fetchTask_eq hpc]
    exact h.goto hpc ⟨trivial, fun _ => id⟩ trivial ⟨rfl, rfl, rfl, rfl⟩ rfl
  | @steal t source canMove hpc _ ht =>
    rw [hi.stealTask_eq ht]
    cases canMove with
    | true =>
      exact h.goto_setRq hpc ⟨trivial, fun _ => id⟩ trivial ⟨rfl, rfl, rfl, rfl⟩ rfl ht (take_length ht)
    | false =>
      exact h.goto_setRq hpc ⟨trivial, fun _ => id⟩ (.inl rfl) ⟨rfl, rfl, rfl, rfl⟩ rfl ht fun hl =>
        insert_length (take_length ht hl)
  | dispatch hpc =>
    refine h.calm (a := a) ⟨by simp [hpc], by simp, fun e he => by simp [he], rfl, fun e he => ?_, ?_,
      fun e => ?_, fun _ _ => rfl, by simp [hpc], fun e _ he => .inl he, fun _ => id⟩
    · simp [storeIdleState, he]
    · simp [storeIdleState]
    · by_cases he : e = a <;> simp [he, storeIdleState]
  | own hpc _ =>
    rw [← goto_self (s := s.setTask _ _) (c := a) hpc]
    exact h.goto hpc ⟨trivial, fun _ => id⟩ trivial ⟨rfl, rfl, rfl, rfl⟩ rfl
  | interrupt hpc =>
    exact h.calm (a := a) ⟨by simp [hpc], by simp [hpc], fun _ _ => rfl, rfl, fun _ _ => rfl, id,
      fun _ => rfl, fun e he => by simp [he], fun _ _ => id, fun e _ he => .inl he, fun _ => id⟩
  | commit hpc =>
    obtain ⟨-, -, ⟨-, heq⟩ | ⟨-, -, p, hp, heq⟩ | ⟨-, -, heq⟩ | ⟨-, heq⟩⟩ := hi.commit_cases (w := w) hpc
    · rw [heq]
      exact h.goto hpc ⟨trivial, fun _ => id⟩ trivial ⟨rfl, rfl, rfl, rfl⟩ rfl
    · rw [heq]
      refine h.goto hpc ⟨trivial, fun _ => id⟩ ?_ ⟨rfl, rfl, rfl, rfl⟩ rfl
      rcases hp with rfl | rfl <;> trivial
    all_goals
      rw [heq]
      exact h.goto hpc ⟨trivial, fun _ => id⟩ trivial ⟨rfl, rfl, rfl, rfl⟩ rfl
  | @reserve t kind k target hpc =>
    refine h.calm (a := a) ⟨by simp [hpc], by simp, fun e he => by simp [he], rfl, fun e he => ?_, ?_,
      fun e => ?_, fun _ _ => rfl, by simp [hpc], fun e _ he => .inl he, fun _ => id⟩
    · by_cases het : e = target <;> simp [het]
    · by_cases hat : a = target <;> simp [hat]
    · by_cases het : e = target <;> simp [het]
  | place hpc =>
    rw [hi.place_eq hpc]
    exact h.goto hpc ⟨trivial, fun _ => id⟩ trivial ⟨rfl, rfl, rfl, rfl⟩ rfl
  | @push t kind k target reserved hpc =>
    obtain ⟨-, -, hkind, -⟩ := hi.enqueue hpc
    rw [hi.push_eq hpc]
    refine h.calm (calm_goto ⟨rfl, rfl, rfl, rfl⟩ ?_ ?_ ?_ (fun d hda hd => ?_) (setRq_length insert_length))
    · simp [hpc]
    · simp
    · simp [hpc]
    · by_cases hdt : d = target
      · -- only a task that ran here is enqueued without a kick, and it is enqueued here
        subst hdt
        right
        cases kind with
        | newRunnable | resumed => rfl
        | pool =>
          obtain ⟨hd, -⟩ : d = a ∧ reserved = false := by simpa [Pc.KindOk] using hkind
          exact absurd hd hda
      · left
        simpa [hdt] using hd
  | @publish op ops target k hpc =>
    refine h.calm (a := a) ⟨by simp [hpc], by simp, fun e he => by simp [he], by simp, fun e _ => ?_, ?_,
      fun e => ?_, fun _ _ => by simp, ?_, fun e _ he => .inl (by simpa using he), fun e he => by simpa using he⟩
    · rw [goto_view, (apply_idleState _).1]
    · rw [goto_view, (apply_idleState _).1]
      exact id
    · rw [goto_view, (apply_idleState _).2]
    · intro d _ ho
      rw [goto_pc_self]
      rw [hpc] at ho
      cases target <;> exact ho
  | @resumeCaller target k hpc ht =>
    refine h.calm (calm_goto ⟨rfl, rfl, rfl, rfl⟩ ?_ (pc_plain k) (fun d hd ho => ?_) (fun _ _ => .inl) fun _ => id)
    · simp [hpc]
    · -- the CPU that was to be kicked is this one
      rw [hpc] at ho
      cases target with
      | none => exact ho.elim
      | some e => exact absurd ((show e = d from ho).symm.trans (ht e rfl)) hd
  | startKick hpc _ =>
    refine h.calm (calm_goto ⟨rfl, rfl, rfl, rfl⟩ ?_ ?_ ?_ (fun _ _ => .inl) fun _ => id)
    all_goals simp [hpc]
  | kick hpc hk => exact h.kick hpc hk
  | idle hpc hk => exact h.idle hpc hk
  | take hk _ => exact h.goto rfl (caller_busy hk) trivial ⟨rfl, rfl, rfl, rfl⟩ rfl
  | notify hk _ =>
    exact h.calm (a := a) ⟨(caller_busy hk).1, (caller_busy hk).1, fun _ _ => rfl, rfl, fun _ _ => rfl, id, fun _ => rfl,
      fun _ _ => rfl, fun _ _ => id, fun e _ he => .inl he, fun _ => id⟩
  | stay => exact h

theorem GateInv.remove (h : s.GateInv) (hm : Removal w s a s') : s'.GateInv := by
  obtain @⟨t, source, k, hk, ht⟩ := hm
  exact h.goto_setRq rfl (caller_busy hk) trivial ⟨rfl, rfl, rfl, rfl⟩ rfl ht (take_length ht)

/-- The invariants hold in every state that the scheduler reaches. -/
theorem gateInv_of_steps {home : γ} (h : ReflTransGen (Step w) (init home) s) : s.Inv ∧ s.GateInv := by
  refine inv_of_reachable (I := fun s => s.Inv ∧ s.GateInv) ⟨inv_init, gateInv_init⟩ ?_ h
  rintro s s' ⟨hi, hg⟩ ⟨c, cmd, hstep⟩
  rcases step_move hstep with hm | ⟨-, hm⟩
  · exact ⟨(hi.move hm).inv, hg.move hi hm⟩
  · exact ⟨hi.remove hm, hg.remove hm⟩

/-- A CPU that has armed its idle state and has work either has an interrupt outstanding, or somebody
who put work on its queue has not passed its gate yet. `ipi_pending` is set without an interrupt only
while its sender is about to request one. -/
theorem no_sleep_on_work {home : γ} (h : ReflTransGen (Step w) (init home) s) (c : γ)
    (hc : (s.view c).idleState = .idleWfi) :
    ((s.rq c).tasks ≠ [] → s.ipi c = true ∨ ∃ d, (s.pc d).Owes c) ∧
      ((s.view c).ipiPending = true → s.ipi c = true ∨ ∃ d, (s.pc d).Sends c) := by
  obtain ⟨-, hg⟩ := gateInv_of_steps h
  have harmed := (hg.armed c).1 hc
  exact ⟨hg.covered c (Pc.arming_of_armed harmed), hg.sent c harmed⟩

/-- CPU `d` goes to sleep, and CPU `c` puts a task on its queue. -/
def asleep (c d : γ) (t : τ) : List (γ × Cmd γ τ) :=
  List.replicate 7 (d, .next) ++ [(c, .spawn t), (c, .choose d false), (c, .next), (c, .next)]

theorem no_sleep_on_work_asleep : ∃ s : Scheduler (Fin 2) (Fin 1), (s.view 1).idleState = .idleWfi ∧
    (s.rq 1).tasks = [0] ∧ (s.ipi 1 = true ∨ ∃ d, (s.pc d).Owes 1) := by
  obtain ⟨s, hsteps, hidle, htasks⟩ : ∃ s : Scheduler (Fin 2) (Fin 1), ReflTransGen (Step fun _ => 1024) (init 0) s ∧
      (s.view 1).idleState = .idleWfi ∧ (s.rq 1).tasks = [0] := exists_steps_of_any (asleep 0 1 0) (by decide +kernel)
  exact ⟨s, hidle, htasks, (no_sleep_on_work hsteps 1 hidle).1 (by rw [htasks]; exact List.cons_ne_nil _ _)⟩

end

end Scheduler

end ShellCore.Sched.Smp
