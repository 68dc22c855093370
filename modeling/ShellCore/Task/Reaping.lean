import ShellCore.Task.ProcessKin

/-!
# A child is reaped when all of its threads have exited

`sys_wait4` and `sys_waitid` look at the leader of a process, and `remove_process` then removes every thread of it. If a
leader exits last, there is none left. `sys_waitid` does not hold on to the child while it does so, so the number of the
child must not be given to another task in between.
-/

namespace ShellCore.Task

open Function Relation List Family

namespace ProcPc

variable {τ : Type}

/-- The number that `remove_process` was called with, or the numbers of its snapshot that it is still going to remove. -/
def targets : ProcPc τ → List Nat
  | removeSnapshot n _ => [n]
  | removeTable rest tids n _ => rest ++ tids ++ [n]
  | removeQueues rest _ => rest
  | _ => []

theorem exited_of_existing {p : ProcPc τ} (hexisting : p.existing = true) (hpresent : p.present ≠ true) : p.exited = true := by
  cases p <;> first | rfl | (cases hexisting; done) | exact absurd rfl hpresent

theorem present_of_targets {p : ProcPc τ} {n : Nat} (h : n ∈ p.targets) : p.present = true := by
  cases p <;> first | rfl | cases h

end ProcPc

namespace Processes

variable {τ : Type} [DecidableEq τ]

/-- A leader becomes a zombie after its threads. -/
def ThreadsFirst (s : Processes τ) (t : τ) : Prop :=
  s.pc t = .exitZombie → s.family.leader t = t →
    ∀ u ∈ s.family.tasks, s.family.leader u = t → u ≠ t → s.family.zombie u = true

/-- A leader becomes a zombie after its threads. The number of a new task is neither the one that a `waitid` has given to
`remove_process` nor another one of its snapshot, until these are removed. -/
def LeaderLast (s : Processes τ) (t : τ) : ProcCmd τ ⊕ SchedCmd → Prop
  | .inl (.next _) => s.ThreadsFirst t
  | .inl (.build _ n) => ∀ u ∈ s.family.tasks, (s.pc u).held = none → n ∉ (s.pc u).targets
  | _ => True

def LeaderLastStep (s s' : Processes τ) : Prop := ∃ t cmd, s.LeaderLast t cmd ∧ s.step t cmd = some s'

/-- The threads of a process have exited when its leader has. -/
def LeadersLast (x : Family τ) : Prop := ∀ u ∈ x.tasks, x.zombie (x.leader u) = true → x.zombie u = true

/-- All tasks with the number are zombies. -/
def Clear (x : Family τ) (n : Nat) : Prop := ∀ u ∈ x.tasks, x.tid u = n ∨ x.tgid u = n → x.zombie u = true

structure Settled (s : Processes τ) : Prop where
  kin : s.family.Kin s.pc
  last : LeadersLast s.family
  reaped : ∀ c ∈ s.family.reaped, s.family.zombie c = true
  targets : ∀ t, ∀ n ∈ (s.pc t).targets, Clear s.family n ∧ ∀ c, (s.pc t).held = some c → n = s.family.tid c
  victims : s.victims = []

variable {s s' : Processes τ} {t c : τ} {p : ProcPc τ} {cmd : ProcCmd τ ⊕ SchedCmd} {n : Nat}

omit [DecidableEq τ] in
theorem LeadersLast.keep {x y : Family τ} (h : LeadersLast x) (htasks : ∀ u ∈ y.tasks, u ∈ x.tasks)
    (hleader : y.leader = x.leader) (hzombie : y.zombie = x.zombie) : LeadersLast y := by
  intro u hu
  rw [hzombie, hleader]
  exact h u (htasks u hu)

/-- A new thread belongs to a process that is alive. -/
theorem LeadersLast.build {thread : Bool} {parent : Option τ} (h : LeadersLast s.family) (hkin : s.family.Kin s.pc)
    (hpc : s.pc t = .cloneBuild thread parent) (hc : s.pc c = .unborn) :
    LeadersLast (s.family.build t thread parent c n) := by
  have ht : t ∈ s.family.tasks := hkin.present t (by rw [hpc]; rfl)
  have hzombie : ∀ {u}, u ≠ c → (s.family.build t thread parent c n).zombie u = s.family.zombie u :=
    fun hu => update_of_ne hu ..
  have hleadc : (s.family.build t thread parent c n).leader c = if thread then s.family.leader t else c :=
    update_self ..
  intro u hu hz
  rcases mem_cons.1 hu with rfl | hu
  · rw [hleadc] at hz
    cases thread with
    | true =>
      have hlive : s.family.zombie t = false := by rw [hkin.zombie, hpc]; rfl
      rw [if_pos rfl, hzombie (hkin.ne_of_unborn hc (.inr ⟨t, ht, rfl⟩))] at hz
      rw [h t ht hz] at hlive
      cases hlive
    | false => exact hz
  · have huc := hkin.ne_of_unborn hc (.inl hu)
    rw [show (s.family.build t thread parent c n).leader u = s.family.leader u from update_of_ne huc ..,
      hzombie (hkin.ne_of_unborn hc (.inr ⟨u, hu, rfl⟩))] at hz
    exact (hzombie huc).trans (h u hu hz)

theorem LeadersLast.zombify (h : LeadersLast s.family) (hkin : s.family.Kin s.pc) (hpc : s.pc t = .exitZombie)
    (hs : s.ThreadsFirst t) : LeadersLast (s.family.zombify t) := by
  intro u hu hz
  by_cases hut : u = t
  · subst hut
    exact update_self ..
  · refine (update_of_ne hut ..).trans ?_
    by_cases hlt : s.family.leader u = t
    · have hlead : s.family.leader t = t := by
        have := (hkin.leader u (ProcPc.ne_unborn_of_existing (hkin.existing u hu))).1
        rwa [hlt] at this
      exact hs hpc hlead u hu hlt hut
    · exact h u hu ((update_of_ne hlt ..).symm.trans hz)

theorem LeadersLast.step (h : LeadersLast s.family) (hkin : s.family.Kin s.pc)
    (hs : ∀ ok, cmd = .inl (.next ok) → s.ThreadsFirst t) (hm : s.Move t cmd s') : LeadersLast s'.family := by
  cases hm with
  | build _ hpc hc _ => exact h.build hkin hpc hc
  | zombify hcmd hpc _ | panic hcmd hpc _ => exact h.zombify hkin hpc (hs _ hcmd)
  | dequeue _ => exact (s.dequeue_family _).1.symm ▸ h
  | discard _ | drop _ => exact h.keep (fun _ hu => mem_of_mem_filter hu) rfl rfl
  | _ => exact h.keep (fun _ => id) rfl rfl

section

omit [DecidableEq τ]

/-- No thread of a process is left if its leader is a zombie. -/
theorem Settled.clear (h : s.Settled) (hc : c ∈ s.family.tasks) (hz : s.family.zombie c = true) :
    Clear s.family (s.family.tid c) := by
  intro u hu hnum
  rcases hnum with hnum | hnum
  · exact h.kin.names u c (.inl hu) (.inl hc) hnum ▸ hz
  · have heq : s.family.leader u = c := h.kin.names _ c (.inr ⟨u, hu, rfl⟩) (.inl hc) hnum
    exact h.last u hu (heq ▸ hz)

theorem Settled.not_listed (h : s.Settled) (hn : Clear s.family n) {u : τ} (hu : u ∈ s.family.tid2tcb) :
    s.family.tid u ≠ n ∧ s.family.tgid u ≠ n := by
  obtain ⟨hmem, hleft⟩ := h.kin.listed u hu
  have hz : s.family.zombie u ≠ true := by
    rw [h.kin.zombie]
    intro hexited
    rw [ProcPc.left_of_exited hexited] at hleft
    cases hleft
  exact ⟨fun heq => hz (hn u hmem (.inl heq)), fun heq => hz (hn u hmem (.inr heq))⟩

/-- A step that makes no task and no zombie. -/
theorem Settled.keep (h : s.Settled) (hkin : s'.family.Kin s'.pc)
    (htasks : ∀ u ∈ s'.family.tasks, u ∈ s.family.tasks) (htid : s'.family.tid = s.family.tid)
    (hleader : s'.family.leader = s.family.leader) (hzombie : s'.family.zombie = s.family.zombie)
    (hreaped : ∀ c ∈ s'.family.reaped, s.family.zombie c = true)
    (htargets : ∀ u, ∀ n ∈ (s'.pc u).targets, Clear s.family n ∧ ∀ c, (s'.pc u).held = some c → n = s.family.tid c)
    (hvictims : s'.victims = []) : s'.Settled where
  kin := hkin
  last := h.last.keep htasks hleader hzombie
  reaped c hc := by
    rw [hzombie]
    exact hreaped c hc
  targets u n hn := by
    rw [htid]
    refine ⟨fun v hv hnum => ?_, (htargets u n hn).2⟩
    rw [hzombie]
    refine (htargets u n hn).1 v (htasks v hv) ?_
    rwa [tgid, htid, hleader] at hnum
  victims := hvictims

end

variable (h : s.Settled)

include h

/-- A move of task `t` that changes no more of the family than children, parents and the table. -/
theorem Settled.goto (hkin : s'.family.Kin s'.pc)
    (htasks : s'.family.tasks = s.family.tasks) (htid : s'.family.tid = s.family.tid)
    (hleader : s'.family.leader = s.family.leader) (hzombie : s'.family.zombie = s.family.zombie)
    (hreaped : s'.family.reaped = s.family.reaped) (hpc : s'.pc = update s.pc t p)
    (htargets : ∀ n ∈ p.targets, Clear s.family n ∧ ∀ c, p.held = some c → n = s.family.tid c)
    (hvictims : s'.victims = s.victims) : s'.Settled := by
  refine h.keep hkin (fun u hu => htasks ▸ hu) htid hleader hzombie (fun c hc => h.reaped c (hreaped ▸ hc)) ?_
    (hvictims.trans h.victims)
  rw [hpc]
  exact fun u => forall_update u htargets h.targets

theorem Settled.go (hg : s.Goes t cmd p) : (s.goto t p).Settled := by
  refine h.goto (h.kin.goto (hg.frame h.kin) hg.exited) rfl rfl rfl rfl rfl rfl ?_ rfl
  intro n hn
  have hold := h.targets t
  cases hg with
  | @wait4Remove c hpc =>
    obtain rfl : n = s.family.tgid c := mem_singleton.1 hn
    obtain ⟨hmem, hz, hlead⟩ := h.kin.held t c (by rw [hpc]; rfl)
    have htgid : s.family.tgid c = s.family.tid c := congrArg s.family.tid hlead
    refine ⟨htgid ▸ h.clear hmem hz, fun c' hc' => ?_⟩
    cases hc'
    exact htgid
  | @removeTable m c hpc tids htids =>
    rw [hpc] at hold
    have hclear := hold m (mem_singleton_self m)
    -- nobody in the table belongs to the process
    have hnil : tids = [] := by
      rw [htids, filter_eq_nil_iff.2, map_nil]
      intro u hu
      simpa using (h.not_listed hclear.1 hu).2
    subst hnil
    obtain rfl : n = m := mem_singleton.1 hn
    exact hclear
  | @removeQueues tids m c hpc =>
    rw [hpc] at hold
    exact hold n hn
  | _ => cases hn

/-- A new task: its number is in use nowhere, and its process is alive. -/
theorem Settled.build {thread : Bool} {parent : Option τ} (hpc : s.pc t = .cloneBuild thread parent)
    (hc : s.pc c = .unborn) (hn : s.family.free n = true)
    (hother : ∀ u ∈ s.family.tasks, (s.pc u).held = none → n ∉ (s.pc u).targets) :
    Settled (((s.setFamily (s.family.build t thread parent c n)).setRun c .ready).goto c .built |>.goto t
      (.cloneWrite thread c)) := by
  have ht : t ∈ s.family.tasks := h.kin.present t (by rw [hpc]; rfl)
  have hne : ∀ {u}, s.family.Named u → u ≠ c := fun hu => h.kin.ne_of_unborn hc hu
  have hold : ∀ {u}, u ∈ s.family.tasks → s.family.Named u ∧ s.family.Named (s.family.leader u) :=
    fun hu => ⟨.inl hu, .inr ⟨_, hu, rfl⟩⟩
  have htz : s.family.zombie t = false := by rw [h.kin.zombie, hpc]; rfl
  have hplace : ∀ u, ∀ m ∈ (update (update s.pc c .built) t (.cloneWrite thread c) u).targets,
      m ∈ (s.pc u).targets ∧ update (update s.pc c .built) t (.cloneWrite thread c) u = s.pc u :=
    fun u => forall_update u nofun
      (fun u => forall_update u nofun fun _ _ hm => ⟨hm, rfl⟩)
  refine ⟨kin_build h.kin hpc hc hn, h.last.build h.kin hpc hc, fun c' hc' => ?_, fun u m hm => ?_, h.victims⟩
  · have hcc : c' ≠ c := by
      rintro rfl
      have hz := h.reaped c' hc'
      rw [h.kin.zombie, hc] at hz
      cases hz
    exact (zombie_build hcc).trans (h.reaped c' hc')
  · obtain ⟨hmem, hsame⟩ := hplace u m hm
    rw [show (((((s.setFamily (s.family.build t thread parent c n)).setRun c .ready).goto c .built).goto t
      (.cloneWrite thread c)).pc u) = s.pc u from hsame]
    obtain ⟨hclear, hheld⟩ := h.targets u m hmem
    have hmn : m ≠ n := by
      rintro rfl
      cases hh : (s.pc u).held with
      | none => exact hother u (h.kin.present u (ProcPc.present_of_targets hmem)) hh hmem
      | some c' => exact tid_ne_of_free hn (.inl (h.kin.held u c' hh).1) (hheld c' hh).symm
    refine ⟨fun v hv hnum => ?_, fun c' hc' => ?_⟩
    · rcases mem_cons.1 hv with rfl | hv
      · -- the new task has another number, and its process lives
        rcases hnum with hnum | hnum
        · exact absurd (hnum.symm.trans tid_build_self) hmn
        · replace hnum : (s.family.build t thread parent v n).tid ((s.family.build t thread parent v n).leader v) = m := hnum
          rw [leader_build_self] at hnum
          cases thread with
          | true =>
            rw [if_pos rfl, tid_build (hne (hold ht).2)] at hnum
            rw [hclear t ht (.inr hnum)] at htz
            cases htz
          | false => exact absurd (hnum.symm.trans tid_build_self) hmn
      · refine (zombie_build (hne (hold hv).1)).trans (hclear v hv ?_)
        rcases hnum with hnum | hnum
        · exact .inl ((tid_build (hne (hold hv).1)).symm.trans hnum)
        · replace hnum : (s.family.build t thread parent c n).tid ((s.family.build t thread parent c n).leader v) = m := hnum
          rw [leader_build (hne (hold hv).1), tid_build (hne (hold hv).2)] at hnum
          exact .inr hnum
    · exact (hheld c' hc').trans (tid_build (hne (.inl (h.kin.held u c' hc').1))).symm

theorem Settled.zombify {q : ProcPc τ} (hkin : (s.family.zombify t).Kin (update s.pc t q))
    (hq : q.targets = []) (hlast : LeadersLast (s.family.zombify t)) :
    Settled ((s.setFamily (s.family.zombify t)).goto t q) := by
  have hmono : ∀ u, s.family.zombie u = true → (s.family.zombify t).zombie u = true :=
    fun u => forall_update (motive := fun u (b : Bool) => s.family.zombie u = true → b = true) u (fun _ => rfl) fun _ => id
  have hclear : ∀ {n}, Clear s.family n → Clear (s.family.zombify t) n := fun hn u hu hnum => hmono u (hn u hu hnum)
  refine ⟨hkin, hlast, fun c hc => hmono c (h.reaped c hc), ?_, h.victims⟩
  refine fun u => forall_update (motive := fun _ (q : ProcPc τ) => ∀ n ∈ q.targets, Clear (s.family.zombify t) n ∧
    ∀ c, q.held = some c → n = s.family.tid c) u ?_ fun u n hn => ?_
  · rw [hq]
    exact nofun
  · exact ⟨hclear (h.targets u n hn).1, (h.targets u n hn).2⟩

omit h [DecidableEq τ] in
/-- `remove_process` finds nobody alive. -/
theorem alive_eq_nil (hn : Clear s.family n) {l : List τ}
    (hl : ∀ u ∈ l, u ∈ s.family.tasks ∧ s.family.tid u = n) : s.alive l = [] := by
  refine filter_eq_nil_iff.2 fun u hu => ?_
  simp [hn u (hl u hu).1 (.inl (hl u hu).2)]

theorem Settled.removeTid {m : Nat} {rest tids : List Nat} {held : Option τ}
    (hpc : s.pc t = .removeTable (m :: rest) tids n held)
    (hkin : ((s.removeTid m).goto t (.removeTable rest tids n held)).family.Kin
      ((s.removeTid m).goto t (.removeTable rest tids n held)).pc) :
    ((s.removeTid m).goto t (.removeTable rest tids n held)).Settled := by
  have hold := h.targets t
  rw [hpc] at hold
  refine h.goto hkin rfl rfl rfl rfl rfl rfl (fun k hk => hold k (mem_cons_of_mem _ hk)) ?_
  have hnone : s.alive (s.family.tid2tcb.filter fun u => s.family.tid u = m) = [] := by
    refine alive_eq_nil (hold m mem_cons_self).1 fun u hu => ?_
    obtain ⟨hmem, hnum⟩ := mem_filter.1 hu
    exact ⟨(h.kin.listed u hmem).1, of_decide_eq_true hnum⟩
  show s.victims ++ _ = s.victims
  rw [hnone, append_nil]

theorem Settled.dequeue {m : Nat} {rest : List Nat} {held : Option τ}
    (hpc : s.pc t = .removeQueues (m :: rest) held) : ((s.dequeue m).goto t (.removeQueues rest held)).Settled := by
  have hold := h.targets t
  rw [hpc] at hold
  have hkin : s.family.Kin (update s.pc t (.removeQueues rest held)) := h.kin.move hpc rfl rfl rfl
  have htargets : ∀ k ∈ (ProcPc.removeQueues rest held : ProcPc τ).targets, Clear s.family k ∧
      ∀ c, (ProcPc.removeQueues rest held).held = some c → k = s.family.tid c :=
    fun k hk => hold k (mem_cons_of_mem _ hk)
  unfold Processes.dequeue
  split
  · rename_i u hu
    have hnum := find?_some hu
    rw [Bool.and_eq_true] at hnum
    have hnone : s.alive [u] = [] := by
      refine alive_eq_nil (hold m mem_cons_self).1 fun v hv => ?_
      obtain rfl := mem_singleton.1 hv
      exact ⟨mem_of_find?_eq_some hu, of_decide_eq_true hnum.1⟩
    refine h.goto hkin rfl rfl rfl rfl rfl rfl htargets ?_
    show s.victims ++ s.alive [u] = s.victims
    rw [hnone, append_nil]
  · exact h.goto hkin rfl rfl rfl rfl rfl rfl htargets rfl

/-- A zombie is taken off a children list. -/
theorem Settled.reap {q : ProcPc τ} (hkin : (s.family.reap t c).Kin (update s.pc t q)) (hz : s.family.zombie c = true)
    (hq : ∀ n ∈ q.targets, Clear s.family n ∧ ∀ c, q.held = some c → n = s.family.tid c) :
    ((s.setFamily (s.family.reap t c)).goto t q).Settled := by
  refine h.keep hkin (fun _ => id) rfl rfl rfl (fun c' hc' => ?_) ?_ h.victims
  · rcases mem_append.1 hc' with hc' | hc'
    · exact h.reaped c' hc'
    · exact mem_singleton.1 hc' ▸ hz
  · exact fun u => forall_update (motive := fun _ (q : ProcPc τ) => ∀ n ∈ q.targets, Clear s.family n ∧
      ∀ c, q.held = some c → n = s.family.tid c) u hq h.targets

omit h [DecidableEq τ] in
/-- What `waitid` finds by its number is the child that it had found before. -/
theorem eq_of_waitidRemove {c' : τ} (h : s.family.Kin s.pc) (hpc : s.pc t = .waitidRemove c)
    (hc : (s.family.children t).find? (fun c' => s.family.tgid c' = s.family.tgid c) = some c') : c' = c := by
  have hmem := (h.found t c (by rw [hpc]; rfl)).1
  obtain ⟨-, htask, hlead, -⟩ := h.child t c hmem
  obtain ⟨-, htask', hlead', -⟩ := h.child t c' (mem_of_find?_eq_some hc)
  have hnum : s.family.tgid c' = s.family.tgid c := by simpa using find?_some hc
  rw [tgid, tgid, hlead, hlead'] at hnum
  exact h.names c' c (.inl htask') (.inl htask) hnum

theorem Settled.step (hs : s.LeaderLast t cmd) (hm : s.Move t cmd s') : s'.Settled := by
  have hkin := kin_step h.kin hm
  have hnone : ∀ {n : Nat} {q : ProcPc τ}, q.targets = [] → n ∈ q.targets →
      Clear s.family n ∧ ∀ c, q.held = some c → n = s.family.tid c := by
    intro n q hq hn
    rw [hq] at hn
    cases hn
  -- two tasks move on at once, and neither removes anything
  have hpair : ∀ {c : τ} {q q' : ProcPc τ}, q.targets = [] → q'.targets = [] →
      ∀ u, ∀ n ∈ (update (update s.pc c q) t q' u).targets,
        Clear s.family n ∧ ∀ c', (update (update s.pc c q) t q' u).held = some c' → n = s.family.tid c' :=
    fun hq hq' => fun u => forall_update u (fun _ => hnone hq')
      (fun u => forall_update u (fun _ => hnone hq) h.targets)
  cases hm with
  | go hg => exact h.go hg
  | build hcmd hpc hc hn =>
    subst hcmd
    exact h.build hpc hc hn hs
  | discard hpc =>
    exact h.keep hkin (fun _ hu => mem_of_mem_filter hu) rfl rfl rfl h.reaped (hpair rfl rfl) h.victims
  | link hpc | insert hpc | lock hpc _ | unlock hpc | sleep hpc | leave hpc | drain hpc _ | wake hpc | adopt hpc
  | extend _ hpc => exact h.goto hkin rfl rfl rfl rfl rfl rfl (fun _ => hnone rfl) rfl
  | start hpc => exact h.keep hkin (fun _ => id) rfl rfl rfl h.reaped (hpair rfl rfl) h.victims
  | reap hpc hc => exact h.reap hkin (mem_of_findZombie hc).2 fun _ => hnone rfl
  | @reapId c c' hpc hc =>
    obtain rfl := eq_of_waitidRemove h.kin hpc hc
    obtain ⟨hmem, hz⟩ := h.kin.found t c' (by rw [hpc]; rfl)
    obtain ⟨-, htask, hlead, -⟩ := h.kin.child t c' hmem
    refine h.reap hkin hz fun n hn => ⟨?_, nofun⟩
    obtain rfl := mem_singleton.1 hn
    rw [tgid, hlead]
    exact h.clear htask hz
  | removeTid hpc => exact h.removeTid hpc hkin
  | dequeue hpc => exact h.dequeue hpc
  | zombify hcmd hpc hother | panic hcmd hpc _ =>
    subst hcmd
    exact h.zombify hkin rfl (h.last.zombify h.kin hpc hs)
  | take _ hpc =>
    refine h.goto hkin rfl rfl rfl rfl rfl rfl (fun _ => hnone ?_) rfl
    rcases s.family.taken_cases t with ⟨q, -, heq⟩ | ⟨-, heq⟩ <;> rw [heq] <;> rfl
  | sched _ => exact h.keep hkin (fun _ => id) rfl rfl rfl h.reaped h.targets h.victims
  | drop hd => exact h.keep hkin (fun _ hu => mem_of_mem_filter hu) rfl rfl rfl h.reaped h.targets h.victims

omit h

theorem settled_boot (initTask : τ) (pgid : τ → Nat) : (boot initTask pgid).Settled := by
  refine ⟨kin_boot initTask pgid, ?_, ?_, fun t n hn => ?_, rfl⟩
  · intro u _ hz
    exact hz
  · intro c hc
    cases hc
  · have htargets : ((boot initTask pgid).pc t).targets = [] := by
      show ProcPc.targets (if t = initTask then .user else .unborn) = []
      split <;> rfl
    rw [htargets] at hn
    cases hn

/-- In every run in which a leader becomes a zombie after its threads, and in which no new task gets a number that the
`remove_process` of a `sys_waitid` has yet to remove, a process is reaped when all of its threads are zombies, and `remove_process` takes no
task that is alive off the table or off a run queue. -/
theorem reaped_after_threads {initTask : τ} {pgid : τ → Nat} {s : Processes τ}
    (h : ReflTransGen LeaderLastStep (boot initTask pgid) s) :
    (∀ c ∈ s.family.reaped, ∀ u, (s.pc u).existing = true → s.family.leader u = c → s.family.zombie u = true) ∧
      s.victims = [] := by
  have hinv : s.Settled := by
    refine inv_of_reachable (settled_boot initTask pgid) (fun s s' hs hstep => ?_) h
    obtain ⟨t, cmd, hlast, hstep⟩ := hstep
    exact hs.step hlast (move_of_step hstep)
  refine ⟨fun c hc u hu hlead => ?_, hinv.victims⟩
  by_cases hmem : u ∈ s.family.tasks
  · exact hinv.last u hmem (hlead ▸ hinv.reaped c hc)
  · -- the task has been dropped, at its end
    rw [hinv.kin.zombie]
    have hpresent : (s.pc u).present ≠ true := fun hp => hmem (hinv.kin.present u hp)
    exact ProcPc.exited_of_existing hu hpresent

instance (s : Processes τ) (t : τ) : Decidable (s.ThreadsFirst t) := by
  unfold ThreadsFirst
  infer_instance

instance (s : Processes τ) (t : τ) : (cmd : ProcCmd τ ⊕ SchedCmd) → Decidable (s.LeaderLast t cmd)
  | .inl (.next _) => inferInstanceAs (Decidable (s.ThreadsFirst t))
  | .inl (.build ..) => inferInstanceAs (Decidable (∀ _ ∈ _, _ → _ ∉ _))
  | .inl (.clone _) | .inl .fail | .inl (.wait4 ..) | .inl (.waitid ..) | .inl .exit | .inl .preempt | .inr _ => instDecidableTrue

/-- The first process forks `p`, which clones a thread `t`; `t` exits, then `p`, and the first process waits. -/
def threadFirst (i p t : τ) : List (τ × (ProcCmd τ ⊕ SchedCmd)) :=
  fork i p 2 ++ cloneThread p t 3 ++ [(t, .inl .exit)] ++ nexts t 3 ++ [(p, .inl .exit)] ++ nexts p 7 ++
    [(i, .inl (.wait4 (-1) false))] ++ nexts i 6

theorem reaped_after_threads_first :
    ∃ s : Processes Nat, ReflTransGen LeaderLastStep (boot 0 fun _ => 1) s ∧ s.family.reaped = [1] ∧
      s.family.leader 2 = 1 ∧ (∀ c ∈ s.family.reaped, ∀ u, (s.pc u).existing = true → s.family.leader u = c →
        s.family.zombie u = true) ∧ s.victims = [] := by
  obtain ⟨s, hs, hreaped, hlead⟩ : ∃ s, runGuarded LeaderLast step (boot 0 fun _ => 1) (threadFirst 0 1 2) = some s ∧
      s.family.reaped = [1] ∧ s.family.leader 2 = 1 :=
    exists_of_any (by decide +kernel)
  have hrun : ReflTransGen LeaderLastStep _ s := steps_of_runGuarded hs
  exact ⟨s, hrun, hreaped, hlead, reaped_after_threads hrun⟩

/-- The leader exits while its thread is ready to run. -/
def leaderFirst (i p t : τ) : List (τ × (ProcCmd τ ⊕ SchedCmd)) :=
  fork i p 2 ++ cloneThread p t 3 ++ [(t, .inl .preempt), (t, .inr .enqueue)] ++ [(p, .inl .exit)] ++ nexts p 3 ++
    [(i, .inl (.wait4 (-1) false))] ++ nexts i 8

/-- The process is reaped and its ready thread is lost. -/
theorem reaped_before_thread :
    ∃ s : Processes Nat, ReflTransGen Step (boot 0 fun _ => 1) s ∧
      s.family.reaped = [1] ∧ s.family.leader 2 = 1 ∧ s.pc 2 = .user ∧ s.family.zombie 2 = false ∧ s.victims = [2, 2] ∧
      2 ∉ s.family.tid2tcb ∧ s.run 2 = .lost :=
  exists_steps_of_any (leaderFirst 0 1 2) (by decide +kernel)

end Processes

end ShellCore.Task
