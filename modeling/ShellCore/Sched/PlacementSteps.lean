import ShellCore.Sched.Placement

/-!
# The steps of the scheduler keep every task in its place

Where tasks are in their places, the tests for zombies and for `on_rq` in the enqueue and dequeue paths
never fire; the `_eq` lemmas say what is left of each function. Then every step keeps the invariant,
and a task that was woken does not block before it calls a block function again.
-/

namespace ShellCore.Sched.Smp

open Scheduler

variable {reserved : Bool}

namespace Scheduler

variable {γ τ : Type} {s s' : Scheduler γ τ} {c d : γ} {t u : τ} {k : Cont τ} {kind : Kind γ}

/-- What is known of an enqueue in progress. -/
theorem Inv.enqueue (h : s.Inv) {stage : EnqueueStage γ} (hpc : s.pc c = .enqueue stage t kind k) :
    (s.task t).onRq = false ∧ (s.task t).state = .ready ∧ Pc.KindOk c stage kind ∧ k.stolen = none ∧
      k.current ≠ some t ∧ s.Alone c t := by
  have hh : (s.pc c).holds = some t := by rw [hpc]; rfl
  have hok : Pc.HeldOk c (s.task t) (.enqueue stage t kind k) := by
    simpa [Fits, hpc] using (h.task t).fits (.held c) hh
  refine ⟨hok.1, hok.2.1, hok.2.2.1, hok.2.2.2, fun e => ?_, (h.task t).alone_of_held hh⟩
  have hr : (s.pc c).runs = some t := by rw [hpc]; exact e
  simpa using (h.task t).unique (.running c) (.held c) hr hh

/-- `wake_up_task` and the like are called from the scheduler loop or by the current task. -/
theorem caller_spec (h : caller (s.pc c) = some k) :
    (s.pc c).runs = k.current ∧ (s.pc c).holds = none ∧ k.stolen = none ∧
      ∀ u x, k.current = some u → (s.pc c).RunOk c x → Pc.RunOk c x (.task u : Pc γ τ) := by
  cases hp : s.pc c <;> rw [hp] at h <;> simp only [caller, Option.some.injEq, reduceCtorEq] at h <;> subst h
  · exact ⟨rfl, rfl, rfl, nofun⟩
  · exact ⟨rfl, rfl, rfl, fun _ _ _ => id⟩

section Moves

variable [DecidableEq γ] [DecidableEq τ] {w : τ → Nat} {x : Task γ} {p : Pc γ τ} (h : s.Inv)

include h

attribute [simp] Pc.runs Pc.RunOk

theorem Inv.pop (hpc : s.pc c = .loop) (ht : t ∈ (s.rq c).tasks) :
    Kept s ((s.setRq c ((s.rq c).take t)).goto c (.fetched t)) := by
  obtain ⟨halone, hnodup⟩ := h.alone_take (c := c) ht
  have hready := ((h.task t).fits (.queued c) ht).1
  rw [← setTask_self (s := s.setRq c ((s.rq c).take t)) (t := t)]
  refine h.to_running hnodup halone ((others_take ?_).trans (others_goto_only ?_ ?_ ?_ ?_)) rfl nofun hready
  all_goals simp [hpc, Pc.holds]

theorem Inv.fetchTask_eq (hpc : s.pc c = .fetched t) : s.fetchTask w c t =
    (s.setTask t { s.task t with onRq := false, cpu := c, state := .running }).goto c (.dispatch t) := by
  have hr : (s.pc c).runs = some t := by rw [hpc]; rfl
  have hready : (s.task t).state = .ready := by simpa [Fits, hpc] using (h.task t).fits (.running c) hr
  unfold fetchTask
  rw [if_neg (by simp [hready])]

theorem Inv.fetchTask (hpc : s.pc c = .fetched t) : Kept s (s.fetchTask w c t) := by
  have hr : (s.pc c).runs = some t := by rw [hpc]; rfl
  rw [h.fetchTask_eq hpc]
  refine h.to_running h.nodup ((h.task t).alone_of_running hr) (others_goto_only ?_ ?_ ?_ ?_) rfl nofun ⟨.inr rfl, rfl⟩
  all_goals simp [hpc, Pc.holds]

theorem Inv.start (hpc : s.pc c = .start t) :
    Kept s ((s.setTask t { s.task t with cpu := c, onRq := false, state := .running }).goto c (.task t)) := by
  have hr : (s.pc c).runs = some t := by rw [hpc]; rfl
  refine h.to_running h.nodup ((h.task t).alone_of_running hr) (others_goto_only ?_ ?_ ?_ ?_) rfl nofun
    ⟨rfl, rfl, nofun, nofun⟩
  all_goals simp [hpc, Pc.holds]

theorem Inv.stealTask_eq {canMove : Bool} (ht : t ∈ (s.rq d).tasks) : s.stealTask w c d t canMove = if canMove then
      ((s.setRq d ((s.rq d).take t)).setTask t { s.task t with onRq := false, cpu := c }).goto c
        (.publish (removeRunnable d (w t) ++ addRunnable c (w t)) (some c) (.run t))
    else ((s.setRq d (((s.rq d).take t).insert t)).setTask t { s.task t with onRq := true }).goto c (.idle .prepare) := by
  have hready := ((h.task t).fits (.queued d) ht).1
  unfold stealTask
  rw [if_neg (by simp [hready])]

theorem Inv.stealTask {canMove : Bool} (hpc : s.pc c = .scan) (ht : t ∈ (s.rq d).tasks) :
    Kept s (s.stealTask w c d t canMove) := by
  obtain ⟨halone, hnodup⟩ := h.alone_take (c := c) ht
  obtain ⟨hready, honrq⟩ := (h.task t).fits (.queued d) ht
  rw [h.stealTask_eq ht]
  cases canMove with
  | true =>
    refine h.to_held hnodup halone ((others_take ?_).trans (others_goto_only ?_ ?_ ?_ ?_)) nofun rfl ⟨rfl, hready⟩
    all_goals simp [hpc, Pc.holds, Cont.current, Cont.stolen]
  | false =>
    -- the task goes to the back of the same queue, under the same lock
    have hback : (((s.rq d).take t).insert t).tasks.Perm (s.rq d).tasks :=
      (List.perm_append_singleton t _).trans (List.perm_cons_erase ht).symm
    refine h.of_quiet (c := c) ⟨fun u => ?_, fun e => ?_, fun e he => ?_, ?_, ?_, ?_, ?_⟩
    · by_cases hu : u = t
      · subst hu
        simpa using ⟨rfl, honrq.symm, rfl⟩
      · simpa [hu] using .rfl
    · by_cases he : e = d
      · subst he
        simpa using hback
      · simp [he]
    · simp [he]
    all_goals simp [hpc, Pc.holds]

theorem Inv.own {cmd : Cmd γ τ} (hpc : s.pc c = .task t) (hx : Own (s.task t) cmd x) : Kept s (s.setTask t x) := by
  have hr : (s.pc c).runs = some t := by rw [hpc]; rfl
  obtain ⟨hcpu, honrq, -⟩ : Pc.RunOk c (s.task t) (.task t : Pc γ τ) := by
    simpa [Fits, hpc] using (h.task t).fits (.running c) hr
  have hok : Pc.RunOk c x (.task t : Pc γ τ) := by
    cases hx <;> exact ⟨hcpu, honrq, by simp, by simp⟩
  rw [← goto_self (s := s.setTask t x) (c := c) hpc]
  refine h.to_running h.nodup ((h.task t).alone_of_running hr) (others_goto_only ?_ ?_ ?_ ?_) rfl (by simp [Pc.holds]) hok
  all_goals simp [hpc, Pc.holds]

theorem Inv.schedule (hpc : s.pc c = .task t) (hs : (s.task t).state ≠ .running) :
    Kept s (s.goto c (.switched t)) := by
  have hr : (s.pc c).runs = some t := by rw [hpc]; rfl
  obtain ⟨hcpu, honrq, hb, hn⟩ : Pc.RunOk c (s.task t) (.task t : Pc γ τ) := by
    simpa [Fits, hpc] using (h.task t).fits (.running c) hr
  have hstate : (s.task t).state = .ready ∨ (s.task t).state = .blockSaving ∨ (s.task t).state = .zombie := by
    cases hst : (s.task t).state <;> simp_all
  have ho : Others s ((s.setTask t (s.task t)).goto c (.switched t)) c t := by
    refine others_goto_only ?_ ?_ ?_ ?_
    all_goals simp [hpc, Pc.holds]
  have hkept := h.to_running h.nodup ((h.task t).alone_of_running hr) ho rfl (by simp [Pc.holds]) ⟨hcpu, honrq, hstate⟩
  rwa [setTask_self] at hkept

/-- The ends of a switch: the task goes back to the pool, or its wake-up has come in time, or it is
blocked, or it has exited. -/
theorem Inv.commit_cases (hpc : s.pc c = .switched t) : (s.task t).cpu = c ∧ (s.task t).onRq = false ∧
    ((s.task t).state = .ready ∧ s.commit w c t = s.goto c (.pooling t) ∨
      (s.task t).state = .blockSaving ∧ (s.task t).wakePending = true ∧ (∃ p, (p = .resuming t ∨ p = .pooling t) ∧
        s.commit w c t = (s.setTask t { s.task t with
          state := .ready, wakePending := false, wakeSourceCpu := none }).goto c p) ∨
      (s.task t).state = .blockSaving ∧ (s.task t).wakePending = false ∧
        s.commit w c t = (s.setTask t { s.task t with state := .blocked, wakeSourceCpu := none }).goto c
          (.publish (removeRunnable c (w t)) none .loop) ∨
      (s.task t).state = .zombie ∧ s.commit w c t = s.goto c (.publish (removeRunnable c (w t)) none .loop)) := by
  have hr : (s.pc c).runs = some t := by rw [hpc]; rfl
  obtain ⟨hcpu, honrq, hstate⟩ : Pc.RunOk c (s.task t) (.switched t : Pc γ τ) := by
    simpa [Fits, hpc] using (h.task t).fits (.running c) hr
  refine ⟨hcpu, honrq, ?_⟩
  rcases hstate with hs | hs | hs
  · refine .inl ⟨hs, ?_⟩
    simp only [commit, hs]
  · cases hw : (s.task t).wakePending with
    | true =>
      refine .inr (.inl ⟨hs, rfl, if (s.task t).wakeSourceCpu.isSome then .resuming t else .pooling t, ?_, ?_⟩)
      · split
        · exact .inl rfl
        · exact .inr rfl
      · simp only [commit, hs, hw, if_true]
    | false =>
      refine .inr (.inr (.inl ⟨hs, rfl, ?_⟩))
      simp only [commit, hs, hw, Bool.false_eq_true, if_false, hcpu]
  · refine .inr (.inr (.inr ⟨hs, ?_⟩))
    simp only [commit, hs, hcpu]

theorem Inv.commit (hpc : s.pc c = .switched t) : Kept s (s.commit w c t) := by
  have hr : (s.pc c).runs = some t := by rw [hpc]; rfl
  have halone := (h.task t).alone_of_running hr
  obtain ⟨hcpu, honrq, ⟨hs, heq⟩ | ⟨hs, -, p, hp, heq⟩ | ⟨hs, -, heq⟩ | ⟨hs, heq⟩⟩ := h.commit_cases (w := w) hpc
  · have ho : Others s ((s.setTask t (s.task t)).goto c (.pooling t)) c t := by
      refine others_goto_only ?_ ?_ ?_ ?_
      all_goals simp [hpc, Pc.holds]
    have hkept := h.to_held h.nodup halone ho nofun rfl ⟨hcpu, honrq, hs⟩
    rwa [setTask_self, ← heq] at hkept
  · rw [heq]
    rcases hp with rfl | rfl
    all_goals
      refine h.to_held h.nodup halone (others_goto_only ?_ ?_ ?_ ?_) nofun rfl ⟨hcpu, honrq, rfl⟩
      all_goals simp [hpc, Pc.holds]
  · rw [heq]
    refine h.to_nowhere h.nodup halone (others_goto_only ?_ ?_ ?_ ?_) nofun nofun (.inl rfl) honrq
    all_goals simp [hpc, Pc.holds, Cont.current, Cont.stolen]
  · have ho : Others s ((s.setTask t (s.task t)).goto c (.publish (removeRunnable c (w t)) none .loop)) c t := by
      refine others_goto_only ?_ ?_ ?_ ?_
      all_goals simp [hpc, Pc.holds, Cont.current, Cont.stolen]
    have hkept := h.to_nowhere h.nodup halone ho nofun nofun (.inr hs) honrq
    rwa [setTask_self, ← heq] at hkept

theorem Inv.place_eq (hpc : s.pc c = .enqueue (.place d reserved) t kind k) : s.place c d reserved t kind k =
      (s.setTask t { s.task t with cpu := d, state := .ready }).goto c (.enqueue (.push d reserved) t kind k) := by
  obtain ⟨-, hready, -⟩ := h.enqueue hpc
  unfold place
  rw [if_neg (by simp [hready])]

theorem Inv.place (hpc : s.pc c = .enqueue (.place d reserved) t kind k) :
    Kept s (s.place c d reserved t kind k) := by
  obtain ⟨honrq, hready, hkind, hk, hcur, halone⟩ := h.enqueue hpc
  rw [h.place_eq hpc]
  refine h.to_held h.nodup halone (others_goto ?_ ?_ ?_ ?_) hcur rfl ⟨honrq, rfl, ?_, hk⟩
  · simp [hpc]
  · simp [hpc]
  · simp +contextual [hpc, Pc.holds, eq_comm]
  · simp +contextual [Pc.holds, eq_comm]
  · cases kind with
    | newRunnable => trivial
    | resumed => exact hkind
    | pool => simpa [Pc.KindOk] using hkind

theorem Inv.push_eq (hpc : s.pc c = .enqueue (.push d reserved) t kind k) : s.push w c d reserved t kind k =
      ((s.setTask t { s.task t with onRq := true }).setRq d ((s.rq d).insert t)).goto c
        (.publish (published d reserved (w t) kind) (kicked d kind) k) := by
  obtain ⟨honrq, hready, -⟩ := h.enqueue hpc
  unfold push
  rw [if_neg (by simp [honrq]), if_neg (by simp [hready])]

theorem Inv.push (hpc : s.pc c = .enqueue (.push d reserved) t kind k) : Kept s (s.push w c d reserved t kind k) := by
  obtain ⟨honrq, hready, -, hk, hcur, halone⟩ := h.enqueue hpc
  rw [h.push_eq hpc]
  have hold : ∀ u, u ≠ t → (s.pc c).holds ≠ some u := by
    simp +contextual [hpc, Pc.holds, eq_comm]
  refine h.of_others (c := c) (t := t) ?_ (fun e => ?_) (taskOk_queued (c := d) (fun e => ?_) (fun e => ?_) (fun e => ?_) ?_ ?_)
  · have hrq : Others s (s.setRq d ((s.rq d).insert t)) c t := by
      refine others_setRq ?_ hold
      simp +contextual [Rqinner.insert]
    refine hrq.trans (others_goto ?_ ?_ ?_ ?_)
    · simp [hpc]
    · simp [hpc]
    · exact hold
    · simp [Pc.holds, hk]
  · by_cases he : e = d
    · subst he
      simpa [Rqinner.insert] using List.nodup_append.2 ⟨h.nodup e, List.nodup_singleton t,
        fun a ha b hb hab => halone.rq e (List.mem_singleton.1 hb ▸ hab ▸ ha)⟩
    · simpa [he] using h.nodup e
  · by_cases he : e = c
    · subst he
      simpa using hcur
    · simpa [he] using halone.runs e he
  · by_cases he : e = c
    · subst he
      simp [Pc.holds, hk]
    · simpa [he] using halone.holds e he
  · by_cases he : e = d
    · subst he
      simp [Rqinner.insert]
    · simpa [he] using halone.rq e
  · simpa using hready
  · simp

/-- A task that was nowhere is taken by a caller, to be put on a queue. -/
theorem Inv.takes (hk : caller (s.pc c) = some k) (hs : (s.task t).state = .blocked ∨ (s.task t).state = .unInit) :
    Kept s ((s.setTask t { s.task t with state := .ready }).goto c (.enqueue .select t .newRunnable k)) := by
  obtain ⟨hnone, halone⟩ := (h.task t).alone_of_state (c := c) hs
  have honrq : (s.task t).onRq = false := hs.elim ((h.task t).fits .blocked) (h.task t).fresh
  obtain ⟨hr, hh, hstolen, hok⟩ := caller_spec hk
  have hcur : k.current ≠ some t := hr ▸ (hnone c).1
  refine h.to_held h.nodup halone (others_goto ?_ ?_ ?_ ?_) hcur rfl ⟨honrq, rfl, trivial, hstolen⟩
  · intro u _
    rw [hr]
    rfl
  · exact fun u _ hu => hok u _ hu
  · simp [hh]
  · simp +contextual [Pc.holds, eq_comm]

theorem Inv.notify (c : γ) (hx : x.SameAs (s.task t)) : Kept s (s.setTask t x) := by
  refine h.of_quiet (c := c) ⟨fun u => ?_, fun _ => .refl _, fun _ _ => rfl, rfl, rfl, fun _ _ => id, fun _ _ => id⟩
  by_cases hu : u = t
  · subst hu
    simpa using hx
  · simpa [hu] using .rfl

/-- The end of a call: a stolen task is now about to run, and for everything else nothing changes. -/
theorem Inv.resumeCaller (hr : (s.pc c).runs = k.current) (hh : (s.pc c).holds = k.stolen)
    (hrun : ∀ u, k.current = some u → (s.pc c).RunOk c (s.task u) → Pc.RunOk c (s.task u) (.task u : Pc γ τ)) :
    Kept s (s.goto c k.pc) := by
  cases k with
  | loop | idle => exact h.of_quiet (quiet_goto rfl rfl rfl hr.symm hh.symm nofun nofun)
  | task r => exact h.of_quiet (quiet_goto rfl rfl rfl hr.symm hh.symm (fun _ => hrun _) nofun)
  | run t =>
    have hok := (h.task t).fits (.held c) hh
    have hdispatch : Pc.RunOk c (s.task t) (.dispatch t : Pc γ τ) := ⟨.inl hok.ready, hok.onRq⟩
    have ho : Others s ((s.setTask t (s.task t)).goto c (.dispatch t)) c t := by
      refine others_goto_only (fun u hu => ?_) (fun u hu => (Option.some.inj hu).symm) (fun u hu => ?_) nofun
      · exact nomatch hr.symm.trans hu
      · exact (Option.some.inj (hh.symm.trans hu)).symm
    have hkept := h.to_running h.nodup ((h.task t).alone_of_held hh) ho rfl nofun hdispatch
    rwa [setTask_self] at hkept

theorem Inv.kick {stage : KickStage} (hpc : s.pc c = .kick stage d k)
    (hk : s.kick c d k stage = some s') : Kept s s' := by
  obtain ⟨s₁, p, rfl, ⟨gate, ipi, view, rfl, -⟩, rfl | ⟨stage', rfl⟩⟩ := kick_signals hk
  · have hback : Kept s (s.goto c k.pc) := by
      refine h.resumeCaller ?_ ?_ ?_
      all_goals simp [hpc, Pc.holds]
    refine hback.trans (hback.inv.of_quiet (c := c) ?_)
    exact ⟨fun _ => .rfl, fun _ => .refl _, fun _ _ => rfl, rfl, rfl, fun _ _ => id, fun _ _ => id⟩
  · refine h.of_quiet (quiet_goto rfl rfl rfl ?_ ?_ ?_ ?_)
    all_goals simp [hpc, Pc.holds, Pc.HeldOk]

omit [DecidableEq τ] in
theorem Inv.idle {stage : IdleStage} (hpc : s.pc c = .idle stage) (hi : s.idle c stage = some s') : Kept s s' := by
  obtain ⟨s₁, p, rfl, ⟨gate, ipi, view, rfl, -⟩, rfl | ⟨stage', rfl⟩⟩ := idle_signals hi
  all_goals
    refine h.of_quiet (quiet_goto rfl rfl rfl ?_ ?_ nofun nofun)
    all_goals rw [hpc]; rfl

theorem Inv.remove (hm : Removal w s c s') : s'.Inv := by
  obtain @⟨t, d, k, hk, ht⟩ := hm
  obtain ⟨halone, hnodup⟩ := h.alone_take (c := c) ht
  obtain ⟨hnone, -⟩ := (h.task t).of_queued ht
  obtain ⟨hr, hh, hstolen, hok⟩ := caller_spec hk
  have hcur : k.current ≠ some t := hr ▸ (hnone c).1
  refine h.inv_of_others ((others_take ?_).trans (others_goto ?_ ?_ ?_ ?_)) hnodup
    (taskOk_absent (fun e => ?_) (fun e => ?_) halone.rq ?_)
  · simp [hh]
  · intro u _
    rw [setRq_pc, hr]
    rfl
  · exact fun u _ hu => hok u _ hu
  · simp [hh]
  · simp [Pc.holds, hstolen]
  · by_cases he : e = c
    · rw [he, goto_pc_self]
      exact hcur
    · rw [goto_pc_of_ne _ _ _ he]
      exact (hnone e).1
  · by_cases he : e = c
    · subst he
      simp [Pc.holds, hstolen]
    · rw [goto_pc_of_ne _ _ _ he]
      exact (hnone e).2
  · simp

theorem Inv.move {cmd : Cmd γ τ} (hm : Move w s c cmd s') : Kept s s' := by
  cases hm with
  | none hpc _ | giveUp hpc => exact h.of_quiet (quiet_goto rfl rfl rfl (by rw [hpc]; rfl) (by rw [hpc]; rfl) nofun nofun)
  | pop hpc ht => exact h.pop hpc ht
  | fetch hpc => exact h.fetchTask hpc
  | steal hpc _ ht => exact h.stealTask hpc ht
  | dispatch hpc =>
    refine h.of_quiet (quiet_goto rfl rfl rfl ?_ ?_ ?_ ?_)
    all_goals simp [hpc, Pc.holds]
  | start hpc => exact h.start hpc
  | own hpc hx => exact h.own hpc hx
  | schedule hpc hs => exact h.schedule hpc hs
  | interrupt =>
    exact h.of_quiet (c := c) ⟨fun _ => .rfl, fun _ => .refl _, fun _ _ => rfl, rfl, rfl, fun _ _ => id, fun _ _ => id⟩
  | commit hpc => exact h.commit hpc
  | resume hpc | pool hpc =>
    refine h.of_quiet (quiet_goto rfl rfl rfl ?_ ?_ ?_ ?_)
    all_goals simp +contextual [hpc, Pc.runs, Pc.holds, Pc.HeldOk, Pc.KindOk, Cont.current, Cont.stolen]
  | @choose t kind k target hpc | @reserve t kind k target hpc =>
    refine h.of_quiet (quiet_goto rfl rfl rfl ?_ ?_ ?_ ?_)
    all_goals cases kind <;> simp +contextual [hpc, Pc.runs, Pc.holds, Pc.RunOk, Pc.HeldOk, Pc.KindOk]
  | place hpc => exact h.place hpc
  | push hpc => exact h.push hpc
  | publish hpc =>
    refine h.of_quiet (quiet_goto (by simp) (by simp) (by simp) ?_ ?_ ?_ ?_)
    all_goals simp [hpc, Pc.holds, Pc.HeldOk]
  | resumeCaller hpc _ =>
    refine h.resumeCaller ?_ ?_ ?_
    all_goals simp [hpc, Pc.holds]
  | startKick hpc _ =>
    refine h.of_quiet (quiet_goto rfl rfl rfl ?_ ?_ ?_ ?_)
    all_goals simp [hpc, Pc.holds, Pc.HeldOk]
  | kick hpc hk => exact h.kick hpc hk
  | idle hpc hi => exact h.idle hpc hi
  | take hk ht => exact h.takes hk ht
  | notify => exact h.notify c ⟨rfl, rfl, rfl⟩
  | stay => exact ⟨h, fun _ => id⟩

end Moves

end Scheduler

end ShellCore.Sched.Smp
