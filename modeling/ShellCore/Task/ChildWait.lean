import ShellCore.Task.ProcessTree
import ShellCore.Task.Reaping

/-!
# A wait hears of every exit

A task goes to sleep in `sys_wait4` or `sys_waitid` under the lock of `wait_chldexit`, after it has looked at its children
once more, and a process that exits empties that queue after it has become a zombie. So the sleeper is woken up, if the
process is in its list by then and does exit as the last of its threads. `INITTASK` gets the children of others later than
that, and nobody is woken up then.
-/

namespace ShellCore.Task

open Function Relation List Family

variable {call : WaitCall}

namespace ProcPc

variable {τ : Type}

/-- The task has the lock of its wait queue. -/
def locks : ProcPc τ → Bool
  | waitCheck _ | waitPush _ => true
  | _ => false

/-- It is about to sleep. -/
def pushes : ProcPc τ → Option WaitCall
  | waitPush call => some call
  | _ => none

def sleeps : ProcPc τ → Option WaitCall
  | asleep call => some call
  | _ => none

/-- Those that an exit has taken out of a wait queue and not yet woken up. -/
def toWake : ProcPc τ → List τ
  | exitWake rest _ => rest
  | _ => []

/-- An exit that has still to empty the wait queue of `p`. -/
def tells (p : τ) : ProcPc τ → Prop
  | exitCheck | exitTake => True
  | exitNotify q _ => q = p
  | _ => False

/-- The task neither sleeps in a wait nor is about to. -/
def silent : ProcPc τ → Bool
  | waitPush _ | asleep _ => false
  | _ => true

/-- Somebody may be woken up by it. -/
def speaks : ProcPc τ → Bool
  | exitCheck | exitTake | exitNotify .. | exitWake .. => true
  | _ => false

attribute [simp] toWake tells

theorem locks_of_pushes {p : ProcPc τ} (h : p.pushes = some call) : p.locks = true := by
  cases p <;> first | rfl | cases h

theorem present_of_toWake {p : ProcPc τ} {u : τ} (h : u ∈ p.toWake) : p.present = true := by
  cases p <;> first | rfl | cases h

theorem silent_iff {p : ProcPc τ} (h : p.silent = true) : p.pushes = none ∧ p.sleeps = none := by
  cases p <;> first | exact ⟨rfl, rfl⟩ | cases h

theorem not_tells {p : ProcPc τ} (h : p.speaks = false) : p.toWake = [] ∧ ∀ u, ¬p.tells u := by
  cases p <;> first | exact ⟨rfl, fun _ => id⟩ | cases h

end ProcPc

namespace Processes

variable {τ : Type} [DecidableEq τ] (s : Processes τ)

/-- A leader becomes a zombie after its threads, and there is no zombie among the orphans that `INITTASK` gets. -/
def Audible (t : τ) : ProcCmd τ ⊕ SchedCmd → Prop
  | .inl (.next _) => s.ThreadsFirst t ∧
      (s.pc t = .exitExtend (s.pc t).orphans → ∀ c ∈ (s.pc t).orphans, s.family.zombie c = false)
  | _ => True

def AudibleStep (s s' : Processes τ) : Prop := ∃ t cmd, s.Audible t cmd ∧ s.step t cmd = some s'

/-- A zombie that a wait of task `t` is about. -/
structure Due (x : Family τ) (t : τ) (call : WaitCall) (c : τ) : Prop where
  child : c ∈ x.children t
  zombie : x.zombie c = true
  matched : x.matchesFilter t call.filter c = true

/-- The lock of a wait queue belongs to who is in the section that it protects. -/
def Locked : Prop := ∀ t, (s.pc t).locks = true → s.queueLock (s.family.leader t) = some t

/-- The process is in a children list, or in the hands of an exit. -/
def Kept (c : τ) : Prop := (∃ q, c ∈ s.family.children q) ∨ ∃ w, c ∈ (s.pc w).orphans

structure Heard (s : Processes τ) : Prop where
  push : ∀ t call, (s.pc t).pushes = some call → ∀ c, Due s.family t call c → (s.pc c).tells t
  queue : ∀ t call, (s.pc t).sleeps = some call → (s.run t).waits = true →
    t ∈ s.waitChldexit (s.family.leader t) ∨ ∃ w, t ∈ (s.pc w).toWake
  due : ∀ t call, (s.pc t).sleeps = some call → (s.run t).waits = true → ∀ c, Due s.family t call c →
    (∃ w, t ∈ (s.pc w).toWake) ∨ (s.pc c).tells t

variable {s s' : Processes τ} {t c : τ} {p : ProcPc τ} {cmd : ProcCmd τ ⊕ SchedCmd}

/-! ## The first process is nobody's child -/

theorem kept_of_update (h : s'.Kept c) (hpc : s'.pc = update s.pc t p)
    (hchildren : ∀ q, ∀ c ∈ s'.family.children q, s.Kept c ∨ s.pc c = .built)
    (horphans : ∀ c ∈ p.orphans, s.Kept c ∨ s.pc c = .built) : s.Kept c ∨ s.pc c = .built := by
  rcases h with ⟨q, hq⟩ | ⟨w, hw⟩
  · exact hchildren q c hq
  · rcases update_cases (congrFun hpc w).symm with ⟨-, heq⟩ | ⟨-, heq⟩
    · exact horphans c (heq ▸ hw)
    · exact .inl (.inr ⟨w, heq.symm ▸ hw⟩)

theorem Kept.of_sublist (h : s'.Kept c) (hpc : s'.pc = update s.pc t p)
    (hchildren : ∀ q, (s'.family.children q).Sublist (s.family.children q)) (horphans : p.orphans.Sublist (s.pc t).orphans) :
    s.Kept c := by
  rcases h with ⟨q, hq⟩ | ⟨w, hw⟩
  · exact .inl ⟨q, (hchildren q).subset hq⟩
  · rcases update_cases (congrFun hpc w).symm with ⟨-, heq⟩ | ⟨-, heq⟩
    · exact .inr ⟨t, horphans.subset (heq ▸ hw)⟩
    · exact .inr ⟨w, heq.symm ▸ hw⟩

variable (hkin : s.family.Kin s.pc)

include hkin

/-- Only a process that has just been cloned comes into a list. -/
theorem kept_of_move (hm : s.Move t cmd s') (h : s'.Kept c) : s.Kept c ∨ s.pc c = .built := by
  have hsame : ∀ q, (s.family.children q).Sublist (s.family.children q) := fun _ => .refl _
  have hextend : ∀ {p os}, (∀ c ∈ os, s.Kept c ∨ s.pc c = .built) → ∀ u, ∀ c ∈ (s.family.extendChildren p os).children u,
      s.Kept c ∨ s.pc c = .built := by
    intro p os hos u
    refine forall_update (motive := fun _ (l : List τ) => ∀ c ∈ l, s.Kept c ∨ s.pc c = .built) u (fun c hc => ?_)
      fun q c hc => .inl (.inl ⟨q, hc⟩)
    exact (mem_append.1 hc).elim (fun hold => .inl (.inl ⟨p, hold⟩)) (hos c)
  cases hm with
  | go hg => exact .inl (h.of_sublist rfl hsame (hg.same.2.1 ▸ .refl _))
  | @build thread parent child n _ hpc hc _ =>
    have hchild := Kept.of_sublist
      (s := ((s.setFamily (s.family.build t thread parent child n)).setRun child .ready).goto child .built)
      h rfl (fun _ => .refl _) (nil_sublist _)
    exact .inl (hchild.of_sublist rfl (sublist_update (nil_sublist _)) (nil_sublist _))
  | @discard thread child hpc =>
    have hchild := Kept.of_sublist (s := (s.setFamily (s.family.drop child)).goto child .discarded) h rfl
      (fun _ => .refl _) (nil_sublist _)
    exact .inl (hchild.of_sublist rfl (sublist_update (nil_sublist _)) (nil_sublist _))
  | @start child hpc =>
    have hchild := Kept.of_sublist (s := (s.setRun child .queued).goto child .user) h rfl (fun _ => .refl _) (nil_sublist _)
    exact .inl (hchild.of_sublist rfl hsame (nil_sublist _))
  | link hpc =>
    refine kept_of_update h rfl (hextend fun c hc => .inr ?_) nofun
    exact hkin.clonee t c (by rw [hpc, mem_singleton.1 hc]; rfl)
  | reap _ _ | reapId _ _ => exact .inl (h.of_sublist rfl (sublist_update erase_sublist) (nil_sublist _))
  | @dequeue m rest held hpc =>
    obtain ⟨hfamily, hpcs⟩ := s.dequeue_family m
    refine .inl (h.of_sublist (t := t) (p := .removeQueues rest held) ?_ (fun q => ?_) (nil_sublist _))
    · show update (s.dequeue m).pc t _ = _
      rw [hpcs]
    · show ((s.dequeue m).family.children q).Sublist _
      rw [hfamily]
  | take _ _ =>
    refine kept_of_update h rfl (fun q c hc => .inl (.inl ⟨q, ?_⟩)) fun c hc => .inl (.inl ⟨t, ?_⟩)
    · exact (sublist_update (nil_sublist _) q).subset hc
    · rcases s.family.taken_cases t with ⟨q, -, heq⟩ | ⟨-, heq⟩ <;> rw [heq] at hc <;> exact hc
  | drain hpc _ | wake hpc | adopt hpc => exact .inl (h.of_sublist rfl hsame (by rw [hpc]; exact .refl _))
  | extend _ hpc => exact kept_of_update h rfl (hextend fun c hc => .inl (.inr ⟨t, by rw [hpc]; exact hc⟩)) nofun
  | sched _ => exact .inl h
  | drop _ => exact .inl (h.of_sublist (update_eq_self t s.pc).symm (sublist_update (nil_sublist _)) (.refl _))
  | _ => exact .inl (h.of_sublist rfl hsame (nil_sublist _))

omit hkin

theorem Move.initTask (hm : s.Move t cmd s') : s'.family.initTask = s.family.initTask := by
  cases hm with
  | dequeue _ => exact congrArg initTask (s.dequeue_family _).1
  | _ => rfl

theorem waits_update {r : Run} (hr : r.waits = true → (s.run t).waits = true) (u : τ) :
    (update s.run t r u).waits = true → (s.run u).waits = true :=
  forall_update (motive := fun u (r : Run) => r.waits = true → (s.run u).waits = true) u hr fun _ => id

theorem dequeue_frame (s : Processes τ) (n : Nat) : (s.dequeue n).queueLock = s.queueLock ∧
    (s.dequeue n).waitChldexit = s.waitChldexit ∧ ∀ u, ((s.dequeue n).run u).waits = true → (s.run u).waits = true := by
  unfold dequeue
  split
  · exact ⟨rfl, rfl, waits_update (by simp [Run.waits])⟩
  · exact ⟨rfl, rfl, fun _ => id⟩

/-! ## The lock of the wait queue -/

theorem Locked.keep (h : s.Locked) (hpc : s'.pc = update s.pc t p) (hlock : s'.queueLock = s.queueLock)
    (hleader : ∀ u, s'.pc u ≠ .built → s'.family.leader u = s.family.leader u)
    (hp : p.locks = true → (s.pc t).locks = true) : s'.Locked := by
  intro u hu
  have hbuilt : s'.pc u ≠ .built := by
    intro heq
    rw [heq] at hu
    cases hu
  rw [hlock, hleader u hbuilt]
  refine h u ?_
  rcases update_cases (congrFun hpc u).symm with ⟨rfl, heq⟩ | ⟨-, heq⟩
  · exact hp (heq ▸ hu)
  · exact heq.symm ▸ hu

theorem Locked.move (h : s.Locked) (hpc : s'.pc = update s.pc t p) (hlock : s'.queueLock = s.queueLock)
    (hleader : s'.family.leader = s.family.leader) (hp : p.locks = true → (s.pc t).locks = true) : s'.Locked :=
  h.keep hpc hlock (fun u _ => congrFun hleader u) hp

theorem Locked.acquire (h : s.Locked) (hpc : s'.pc = update s.pc t p)
    (hfree : s.queueLock (s.family.leader t) = none)
    (hlock : s'.queueLock = update s.queueLock (s.family.leader t) (some t))
    (hleader : s'.family.leader = s.family.leader) : s'.Locked := by
  intro u hu
  rw [hlock, hleader]
  rcases update_cases (congrFun hpc u).symm with ⟨rfl, -⟩ | ⟨-, heq⟩
  · exact update_self ..
  · have hold := h u (heq.symm ▸ hu)
    have hne : s.family.leader u ≠ s.family.leader t := by
      intro hsame
      rw [hsame, hfree] at hold
      cases hold
    exact (update_of_ne hne ..).trans hold

theorem Locked.release (h : s.Locked) (hpc : s'.pc = update s.pc t p) (ht : (s.pc t).locks = true)
    (hp : p.locks = false) (hlock : s'.queueLock = update s.queueLock (s.family.leader t) none)
    (hleader : s'.family.leader = s.family.leader) : s'.Locked := by
  intro u hu
  rw [hlock, hleader]
  rcases update_cases (congrFun hpc u).symm with ⟨-, heq⟩ | ⟨hut, heq⟩
  · rw [heq, hp] at hu
    cases hu
  · have hold := h u (heq.symm ▸ hu)
    have hne : s.family.leader u ≠ s.family.leader t := by
      intro hsame
      rw [hsame, h t ht] at hold
      exact hut (Option.some.inj hold).symm
    exact (update_of_ne hne ..).trans hold

omit [DecidableEq τ] in
theorem Goes.locks (hg : s.Goes t cmd p) (hp : p.locks = true) : (s.pc t).locks = true := by
  cases hg with
  | waitPush hpc _ => rw [hpc]; rfl
  | _ => cases hp

theorem Locked.step (h : s.Locked) (hm : s.Move t cmd s') : s'.Locked := by
  cases hm with
  | go hg => exact h.move rfl rfl rfl hg.locks
  | @build thread parent child n _ hpc hc _ =>
    have hchild : Locked
        (((s.setFamily (s.family.build t thread parent child n)).setRun child .ready).goto child .built) := by
      refine h.keep rfl rfl (fun u hu => ?_) nofun
      have huc : u ≠ child := by
        rintro rfl
        exact hu (update_self ..)
      exact update_of_ne huc ..
    exact hchild.move rfl rfl rfl nofun
  | @discard thread child hpc =>
    have hchild : Locked ((s.setFamily (s.family.drop child)).goto child .discarded) :=
      h.move rfl rfl rfl nofun
    exact hchild.move rfl rfl rfl nofun
  | @start child hpc =>
    have hchild : Locked ((s.setRun child .queued).goto child .user) := h.move rfl rfl rfl nofun
    exact hchild.move rfl rfl rfl nofun
  | lock _ hfree => exact h.acquire rfl hfree rfl rfl
  | unlock hpc | sleep hpc => exact h.release rfl (by rw [hpc]; rfl) rfl rfl rfl
  | @dequeue m rest held hpc =>
    obtain ⟨hfamily, hpcs⟩ := s.dequeue_family m
    refine h.move (t := t) (p := .removeQueues rest held) ?_ (s.dequeue_frame m).1 (congrArg leader hfamily)
      nofun
    exact congrArg (fun f => update f t (.removeQueues rest held)) hpcs
  | take _ _ =>
    refine h.move rfl rfl rfl fun hp => ?_
    rcases s.family.taken_cases t with ⟨q, -, heq⟩ | ⟨-, heq⟩ <;> rw [heq] at hp <;> cases hp
  | sched _ | drop _ => exact h
  | _ => exact h.move rfl rfl rfl nofun

/-! ## What a sleeper is about to hear -/

variable (h : s.Heard) (hpc : s'.pc = update s.pc t p)

include h hpc

/-- A move of task `t`: who is taken out of a queue is in its hands, who is no longer in its hands is awake, and whom it does
not tell of its exit any longer it has found in the queue. -/
theorem Heard.keep
    (hqueue : ∀ u ∈ s.waitChldexit (s.family.leader u), u ∈ s'.waitChldexit (s.family.leader u) ∨ u ∈ p.toWake)
    (hrun : ∀ u, u ≠ t → (s'.run u).waits = true → (s.run u).waits = true)
    (hleader : ∀ u, s'.pc u ≠ .built → s'.family.leader u = s.family.leader u)
    (hdue : ∀ u call c, s'.pc u ≠ .built → Due s'.family u call c → Due s.family u call c ∨ ∀ q, (s'.pc c).tells q)
    (hpush : ∀ call, p.pushes = some call → (s.pc t).pushes = some call ∨ ∀ c, ¬Due s.family t call c)
    (hsleeps : ∀ call, p.sleeps = some call → (s'.run t).waits = true →
      ((s.pc t).sleeps = some call ∧ (s.run t).waits = true) ∨
        (s.pc t).pushes = some call ∧ t ∈ s'.waitChldexit (s.family.leader t))
    (hwake : ∀ u ∈ (s.pc t).toWake, (s'.run u).waits = true → u ∈ p.toWake)
    (htells : ∀ u, t ∈ s.family.children u → s.family.zombie t = true → (s.pc t).tells u →
      p.tells u ∨ (s.pc u).pushes = none ∧ s'.waitChldexit (s.family.leader u) = []) : s'.Heard := by
  have hcase : ∀ u, (u = t ∧ s'.pc u = p) ∨ (u ≠ t ∧ s.pc u = s'.pc u) := fun u => update_cases (congrFun hpc u).symm
  have hself : s'.pc t = p := by rw [hpc, update_self]
  have hbuilt : ∀ {u call}, (s'.pc u).pushes = some call ∨ (s'.pc u).sleeps = some call → s'.pc u ≠ .built := by
    intro u call hu heq
    rw [heq] at hu
    rcases hu with hu | hu <;> cases hu
  have hwakes : ∀ {u}, (s'.run u).waits = true → (∃ w, u ∈ (s.pc w).toWake) → ∃ w, u ∈ (s'.pc w).toWake := by
    rintro u hwaits ⟨w, hw⟩
    refine ⟨w, ?_⟩
    rcases hcase w with ⟨rfl, heq⟩ | ⟨-, heq⟩
    · exact heq.symm ▸ hwake u hw hwaits
    · exact heq ▸ hw
  have htold : ∀ {u call c}, Due s.family u call c → (s.pc c).tells u →
      (s'.pc c).tells u ∨ (s.pc u).pushes = none ∧ s'.waitChldexit (s.family.leader u) = [] := by
    intro u call c hc htell
    rcases hcase c with ⟨rfl, heq⟩ | ⟨-, heq⟩
    · exact heq.symm ▸ htells u hc.child hc.zombie htell
    · exact .inl (heq ▸ htell)
  -- who sleeps has slept before, or was about to
  have hslept : ∀ {u call}, (s'.pc u).sleeps = some call → (s'.run u).waits = true →
      ((s.pc u).sleeps = some call ∧ (s.run u).waits = true) ∨
        (s.pc u).pushes = some call ∧ u ∈ s'.waitChldexit (s.family.leader u) := by
    intro u call hu hwaits
    rcases hcase u with ⟨rfl, heq⟩ | ⟨hut, heq⟩
    · exact hsleeps call (heq ▸ hu) hwaits
    · exact .inl ⟨heq.symm ▸ hu, hrun u hut hwaits⟩
  have hqueued : ∀ {u call}, (s'.pc u).sleeps = some call → (s'.run u).waits = true →
      u ∈ s'.waitChldexit (s.family.leader u) ∨ ∃ w, u ∈ (s'.pc w).toWake := by
    intro u call hu hwaits
    rcases hslept hu hwaits with ⟨hold, hwold⟩ | ⟨-, hnew⟩
    · rcases h.queue u call hold hwold with hmem | hw
      · exact (hqueue u hmem).imp_right fun hw => ⟨t, hself.symm ▸ hw⟩
      · exact .inr (hwakes hwaits hw)
    · exact .inl hnew
  refine ⟨fun u call hu c hc => ?_, fun u call hu hwaits => ?_, fun u call hu hwaits c hc => ?_⟩
  · rcases hdue u call c (hbuilt (.inl hu)) hc with hold | hall
    · have hpushed : (s.pc u).pushes = some call ∨ ∀ c, ¬Due s.family u call c := by
        rcases hcase u with ⟨rfl, heq⟩ | ⟨-, heq⟩
        · exact hpush call (heq ▸ hu)
        · exact .inl (heq.symm ▸ hu)
      have hu := hpushed.resolve_right fun hnone => hnone c hold
      refine (htold hold (h.push u call hu c hold)).resolve_right fun hnone => ?_
      rw [hu] at hnone
      cases hnone.1
    · exact hall u
  · rw [hleader u (hbuilt (.inr hu))]
    exact hqueued hu hwaits
  · rcases hdue u call c (hbuilt (.inr hu)) hc with hold | hall
    · rcases hslept hu hwaits with ⟨hslept, hwold⟩ | ⟨hpushes, -⟩
      · rcases h.due u call hslept hwold c hold with hw | htell
        · exact .inl (hwakes hwaits hw)
        · rcases htold hold htell with htell | ⟨-, hnil⟩
          · exact .inr htell
          · refine .inl ((hqueued hu hwaits).resolve_left ?_)
            rw [hnil]
            exact nofun
      · refine .inr ((htold hold (h.push u call hpushes c hold)).resolve_right fun hnone => ?_)
        rw [hpushes] at hnone
        cases hnone.1
    · exact .inr (hall u)

/-- Who is called how. -/
def callings (x : Family τ) : (τ → Nat) × (τ → τ) × (τ → Nat) := (x.tid, x.leader, x.pgid)

/-- The zombies in the lists of `y` are such in `x`. -/
def NoNewZombie (y x : Family τ) : Prop :=
  ∀ u, ∀ c ∈ y.children u, y.zombie c = true → c ∈ x.children u ∧ x.zombie c = true

omit hpc h [DecidableEq τ] in
theorem NoNewZombie.refl (x : Family τ) : NoNewZombie x x := fun _ _ hc hz => ⟨hc, hz⟩

omit hpc h in
theorem NoNewZombie.append {x : Family τ} {os : List τ} (hos : ∀ c ∈ os, x.zombie c = false) :
    NoNewZombie (x.extendChildren t os) x := by
  refine fun u c hc hz => ⟨?_, hz⟩
  refine forall_update (motive := fun u (l : List τ) => ∀ c ∈ l, x.zombie c = true → c ∈ x.children u) u
    (fun c hc hz => (mem_append.1 hc).resolve_right fun hnew => ?_) (fun _ _ hc _ => hc) c hc hz
  rw [hos c hnew] at hz
  cases hz

omit hpc h [DecidableEq τ] in
theorem Due.of_callings {x y : Family τ} {u : τ} (hnames : callings y = callings x)
    (hchildren : NoNewZombie y x) (h : Due y u call c) : Due x u call c := by
  simp only [callings, Prod.mk.injEq] at hnames
  obtain ⟨htid, hleader, hpgid⟩ := hnames
  obtain ⟨hchild, hzombie⟩ := hchildren u c h.child h.zombie
  refine ⟨hchild, hzombie, ?_⟩
  have hm := h.matched
  unfold matchesFilter tgid at hm ⊢
  rwa [htid, hleader, hpgid] at hm

variable (hqueue : s'.waitChldexit = s.waitChldexit) (hrun : ∀ u, (s'.run u).waits = true → (s.run u).waits = true)
  (hnames : callings s'.family = callings s.family) (hchildren : NoNewZombie s'.family s.family)

include hqueue hrun hnames hchildren

/-- A move that makes no zombie and puts none into a list. -/
theorem Heard.move
    (hpush : ∀ call, p.pushes = some call → (s.pc t).pushes = some call ∨ ∀ c, ¬Due s.family t call c)
    (hsleeps : ∀ call, p.sleeps = some call → (s.pc t).sleeps = some call)
    (hwake : ∀ u ∈ (s.pc t).toWake, u ∈ p.toWake)
    (htells : ∀ u, t ∈ s.family.children u → s.family.zombie t = true → (s.pc t).tells u → p.tells u) : s'.Heard := by
  exact h.keep hpc (fun u hu => .inl (hqueue ▸ hu)) (fun u _ => hrun u)
    (fun u _ => congrFun (congrArg (fun n => n.2.1) hnames) u) (fun u call c _ hc => .inl (hc.of_callings hnames hchildren))
    hpush (fun call hc hwaits => .inl ⟨hsleeps call hc, hrun t hwaits⟩) (fun u hu _ => hwake u hu)
    fun u hc hz htell => .inl (htells u hc hz htell)

/-- A move of a task that nobody hears of, and that hears of nothing itself. -/
theorem Heard.quiet (hp : p.silent = true) (hold : (s.pc t).speaks = false) : s'.Heard := by
  obtain ⟨hpushes, hsleeps⟩ := ProcPc.silent_iff hp
  obtain ⟨hwake, htells⟩ := ProcPc.not_tells hold
  refine h.move hpc hqueue hrun hnames hchildren (fun call hc => ?_) (fun call hc => ?_) (fun u hu => ?_)
    fun u _ _ htell => absurd htell (htells u)
  · cases hpushes.symm.trans hc
  · cases hsleeps.symm.trans hc
  · rw [hwake] at hu
    cases hu

include hkin

omit hpc hqueue hrun hnames hchildren

omit h [DecidableEq τ] in
/-- A process whose leader exits has no other thread in the table. -/
theorem lastThread_of_leader (hlast : LeadersLast s.family) (hmem : c ∈ s.family.tasks)
    (hlead : s.family.leader c = c) (hz : s.family.zombie c = true) : s.family.lastThread c = true := by
  unfold lastThread
  rw [Bool.not_eq_true', any_eq_false]
  intro u hu hgroup
  rw [Bool.and_eq_true, decide_eq_true_eq, decide_eq_true_eq] at hgroup
  obtain ⟨htask, hleft⟩ := hkin.listed u hu
  have hsame : s.family.leader u = c := by
    refine hkin.names _ c (.inr ⟨u, htask, rfl⟩) (.inl hmem) ?_
    have := hgroup.1
    rwa [tgid, tgid, hlead] at this
  have huz := hlast u htask (hsame.symm ▸ hz)
  rw [hkin.zombie] at huz
  rw [ProcPc.left_of_exited huz] at hleft
  cases hleft

theorem Heard.go (hlast : LeadersLast s.family) (hg : s.Goes t cmd p) : (s.goto t p).Heard := by
  have hmove := h.move (show (s.goto t p).pc = update s.pc t p from rfl) rfl (fun _ => id) rfl (.refl _)
  cases hg with
  | @waitPush call hpc hblock =>
    -- the condition has just been looked at
    refine hmove (fun call' hc => .inr fun c hdue => ?_) nofun (by simp [hpc])
      (by simp [hpc])
    obtain rfl : call = call' := Option.some.inj hc
    rw [shouldBlock, Bool.and_eq_true, Option.isNone_iff_eq_none, findZombie, find?_eq_none] at hblock
    exact hblock.2 c hdue.child (by rw [hdue.matched, hdue.zombie]; rfl)
  | last hpc hl =>
    exact hmove nofun nofun (by simp [hpc])
      fun _ _ _ _ => trivial
  | notLast hcmd hpc hl =>
    refine hmove nofun nofun (by simp [hpc])
      fun u hc hz _ => ?_
    obtain ⟨-, htask, hlead, -⟩ := hkin.child u t hc
    rw [lastThread_of_leader hkin hlast htask hlead hz] at hl
    cases hl
  | woken hpc =>
    exact hmove nofun nofun (by simp [hpc])
      (by simp [hpc])
  | waitFound hpc _ | removeTable hpc _ => exact h.quiet rfl rfl (fun _ => id) rfl (.refl _) rfl (by rw [hpc]; rfl)
  | _ =>
    rename_i hpc
    exact h.quiet rfl rfl (fun _ => id) rfl (.refl _) rfl (by rw [hpc]; rfl)

omit hkin in
/-- The new zombie has everything still before it. -/
theorem Heard.zombify (hpc : s.pc t = .exitZombie) :
    Heard ((s.setFamily (s.family.zombify t)).goto t .exitCheck) := by
  refine h.keep rfl (fun _ => .inl) (fun _ _ => id) (fun _ _ => rfl) (fun u call c _ hc => ?_) nofun
    nofun (by simp [hpc]) (by simp [hpc])
  by_cases hct : c = t
  · subst hct
    refine .inr fun q => ?_
    show ProcPc.tells q (update s.pc c .exitCheck c)
    rw [update_self]
    trivial
  · exact .inl ⟨hc.child, (update_of_ne hct ..).symm.trans hc.zombie, hc.matched⟩

/-- A process in a children list finds the task whose list it is. -/
theorem Heard.take (hpc : s.pc t = .exitTake) : (s.take t).Heard := by
  have htaken : (s.family.taken t).silent = true := by
    rcases s.family.taken_cases t with ⟨q, -, heq⟩ | ⟨-, heq⟩ <;> rw [heq] <;> rfl
  obtain ⟨hpushes, hsleeps⟩ := ProcPc.silent_iff htaken
  refine h.move rfl rfl (fun _ => id) rfl (fun u c hc hz => ⟨?_, hz⟩) (fun call hc => ?_) (fun call hc => ?_)
    (by simp [hpc]) fun u hc _ _ => ?_
  · exact (sublist_update (nil_sublist _) u).subset hc
  · cases hpushes.symm.trans hc
  · cases hsleeps.symm.trans hc
  · obtain ⟨htask, -, -, hparent⟩ := hkin.child u t hc
    rw [taken, upgrade, hparent, Option.filter_some, if_pos (by simpa using htask)]
    exact rfl

omit hkin

theorem Heard.sleep (hpc : s.pc t = .waitPush call) :
    Heard ((((s.setRun t (.saving false)).setQueue (s.family.leader t)
      (s.waitChldexit (s.family.leader t) ++ [t])).setLock (s.family.leader t) none).goto t (.asleep call)) := by
  have hqueue : ∀ g, ∀ u ∈ s.waitChldexit g, u ∈ update s.waitChldexit (s.family.leader t)
      (s.waitChldexit (s.family.leader t) ++ [t]) g :=
    fun u => forall_update u (fun _ => mem_append_left _) fun _ _ => id
  refine h.keep rfl (fun u hu => .inl (hqueue _ u hu)) (fun u hut hwaits => ?_) (fun _ _ => rfl) (fun _ _ _ _ hc => .inl hc)
    nofun (fun call' hc _ => .inr ⟨?_, ?_⟩) (by simp [hpc])
    (by simp [hpc])
  · exact update_of_ne hut (Run.saving false) s.run ▸ hwaits
  · rw [hpc]
    exact hc
  · show t ∈ update s.waitChldexit (s.family.leader t) (s.waitChldexit (s.family.leader t) ++ [t]) (s.family.leader t)
    rw [update_self]
    exact mem_append_right _ (mem_singleton_self t)

/-- All sleepers of the queue are in the hands of the task that exits. -/
theorem Heard.drain {q : τ} {os : List τ} (hlocked : s.Locked) (hpc : s.pc t = .exitNotify q os)
    (hfree : s.queueLock (s.family.leader q) = none) :
    Heard ((s.setQueue (s.family.leader q) []).goto t (.exitWake (s.waitChldexit (s.family.leader q)) os)) := by
  refine h.keep (p := .exitWake (s.waitChldexit (s.family.leader q)) os) rfl (fun u hu => ?_) (fun _ _ => id)
    (fun _ _ => rfl) (fun _ _ _ _ hc => .inl hc) nofun nofun
    (by simp [hpc]) fun u _ _ htell => .inr ⟨?_, ?_⟩
  · by_cases hg : s.family.leader u = s.family.leader q
    · exact .inr (hg ▸ hu)
    · refine .inl ?_
      show u ∈ update s.waitChldexit (s.family.leader q) [] (s.family.leader u)
      rwa [update_of_ne hg]
  · -- who is about to sleep has the lock
    rw [hpc] at htell
    obtain rfl : q = u := htell
    refine Option.eq_none_iff_forall_ne_some.2 fun call hu => ?_
    rw [hlocked q (ProcPc.locks_of_pushes hu)] at hfree
    cases hfree
  · rw [hpc] at htell
    obtain rfl : q = u := htell
    exact update_self ..

theorem Heard.wake {v : τ} {rest os : List τ} (hpc : s.pc t = .exitWake (v :: rest) os) :
    Heard ((s.setRun v (s.run v).wake).goto t (.exitWake rest os)) := by
  have hother : ∀ u, (update s.run v (s.run v).wake u).waits = true → u ≠ v ∧ (s.run u).waits = true := by
    intro u hu
    rcases update_cases (f := s.run) (t := v) (v := (s.run v).wake) (x := u) rfl with ⟨-, heq⟩ | ⟨hne, heq⟩
    · rw [heq, Run.waits_wake] at hu
      cases hu
    · exact ⟨hne, heq ▸ hu⟩
  refine h.keep rfl (fun _ => .inl) (fun u _ hu => (hother u hu).2) (fun _ _ => rfl) (fun _ _ _ _ hc => .inl hc)
    nofun nofun (fun u hu hwaits => ?_) (by simp [hpc])
  rw [hpc] at hu
  exact (mem_cons.1 hu).resolve_left (hother u hwaits).1

include hkin

theorem Heard.build {thread : Bool} {parent : Option τ} {n : Nat}
    (hpc : s.pc t = .cloneBuild thread parent) (hc : s.pc c = .unborn) :
    Heard (((s.setFamily (s.family.build t thread parent c n)).setRun c .ready).goto c .built |>.goto t
      (.cloneWrite thread c)) := by
  obtain ⟨-, hlists, -⟩ := hkin.nowhere_of_unborn hc
  have htc : t ≠ c := by
    rintro rfl
    cases hpc.symm.trans hc
  have hnew : ∀ {u : τ} {p : ProcPc τ}, p ≠ .built → update s.pc c .built u = p → u ≠ c := by
    rintro u p hp rfl rfl
    exact hp (update_self ..)
  have hchild : Heard (((s.setFamily (s.family.build t thread parent c n)).setRun c .ready).goto c .built) := by
    refine h.keep rfl (fun _ => .inl) (fun u huc hwaits => ?_) (fun u hu => ?_) (fun u call c' hu hdue => .inl ?_)
      nofun nofun (by simp [hc])
      (by simp [hc])
    · exact update_of_ne huc Run.ready s.run ▸ hwaits
    · exact update_of_ne (hnew hu rfl) ..
    · have hmem : c' ∈ s.family.children u :=
        update_of_ne (hnew hu rfl) [] s.family.children ▸ hdue.child
      obtain ⟨-, -, hlead, -⟩ := hkin.child u c' hmem
      have hcc : c' ≠ c := by
        rintro rfl
        exact hlists u hmem
      refine ⟨hmem, update_of_ne hcc false s.family.zombie ▸ hdue.zombie, ?_⟩
      have hlead' : (s.family.build t thread parent c n).leader c' = c' := (update_of_ne hcc ..).trans hlead
      have htid : (s.family.build t thread parent c n).tid c' = s.family.tid c' := update_of_ne hcc ..
      have hm : (s.family.build t thread parent c n).matchesFilter u call.filter c' = true := hdue.matched
      unfold matchesFilter tgid at hm ⊢
      rw [hlead', htid] at hm
      rwa [hlead]
  refine hchild.quiet rfl rfl (fun _ => id) rfl (.refl _) rfl ?_
  show (update s.pc c .built t).speaks = false
  rw [update_of_ne htc, hpc]
  rfl

/-- The new process is alive. -/
theorem Heard.link (hpc : s.pc t = .cloneLink c) :
    Heard ((s.setFamily (s.family.extendChildren t [c])).goto t (.cloneInsert c)) := by
  refine h.quiet rfl rfl (fun _ => id) rfl (.append fun c' hc' => ?_) rfl (by rw [hpc]; rfl)
  rw [mem_singleton.1 hc', hkin.zombie, hkin.clonee t c (by rw [hpc]; rfl)]
  rfl

omit hkin in
/-- The orphans are alive. -/
theorem Heard.extend {os : List τ} (hpc : s.pc t = .exitExtend os) (halive : ∀ c ∈ os, s.family.zombie c = false) :
    Heard ((s.setFamily (s.family.extendChildren s.family.initTask os)).goto t .gone) :=
  h.quiet rfl rfl (fun _ => id) rfl (.append halive) rfl (by rw [hpc]; rfl)

/-- A task of the first process exits, which nobody waits for. -/
theorem Heard.panic (hroot : ¬s.Kept s.family.initTask) (hpc : s.pc t = .exitZombie)
    (hinit : s.family.leader t = s.family.initTask) : Heard ((s.setFamily (s.family.zombify t)).goto t .panicked) := by
  refine h.quiet rfl rfl (fun _ => id) rfl (fun u c hc hz => ⟨hc, ?_⟩) rfl (by rw [hpc]; rfl)
  have hct : c ≠ t := by
    rintro rfl
    obtain ⟨-, -, hlead, -⟩ := hkin.child u c hc
    exact hroot (.inl ⟨u, hinit ▸ hlead.symm ▸ hc⟩)
  exact (update_of_ne hct ..).symm.trans hz

theorem Heard.step (hlast : LeadersLast s.family) (hlocked : s.Locked)
    (hroot : ¬s.Kept s.family.initTask) (hs : s.Audible t cmd) (hm : s.Move t cmd s') : s'.Heard := by
  have hfewer : ∀ {v : τ} {l : List τ}, l.Sublist (s.family.children v) → ∀ u, ∀ c ∈ update s.family.children v l u,
      s.family.zombie c = true → c ∈ s.family.children u ∧ s.family.zombie c = true :=
    fun hl u c hc hz => ⟨(sublist_update hl u).subset hc, hz⟩
  cases hm with
  | go hg => exact h.go hkin hlast hg
  | build _ hpc hc _ => exact h.build hkin hpc hc
  | @discard thread child hpc =>
    have hclonee : (s.pc t).clonee = some child := by rw [hpc]; rfl
    have hchild : Heard ((s.setFamily (s.family.drop child)).goto child .discarded) :=
      h.quiet rfl rfl (fun _ => id) rfl (hfewer (nil_sublist _)) rfl (by rw [hkin.clonee t child hclonee]; rfl)
    refine hchild.quiet rfl rfl (fun _ => id) rfl (.refl _) rfl ?_
    show (update s.pc child .discarded t).speaks = false
    rw [update_of_ne (hkin.ne_clonee hclonee).symm, hpc]
    rfl
  | link hpc => exact h.link hkin hpc
  | insert hpc | lock hpc _ | unlock hpc | removeTid hpc | leave hpc | adopt hpc =>
    exact h.quiet rfl rfl (fun _ => id) rfl (.refl _) rfl (by rw [hpc]; rfl)
  | @start child hpc =>
    have hclonee : (s.pc t).clonee = some child := by rw [hpc]; rfl
    have hchild : Heard ((s.setRun child .queued).goto child .user) :=
      h.quiet rfl rfl (waits_update (by simp [Run.waits])) rfl (.refl _) rfl (by rw [hkin.clonee t child hclonee]; rfl)
    refine hchild.quiet rfl rfl (fun _ => id) rfl (.refl _) rfl ?_
    show (update s.pc child .user t).speaks = false
    rw [update_of_ne (hkin.ne_clonee hclonee).symm, hpc]
    rfl
  | reap hpc _ | reapId hpc _ => exact h.quiet rfl rfl (fun _ => id) rfl (hfewer erase_sublist) rfl (by rw [hpc]; rfl)
  | sleep hpc => exact h.sleep hpc
  | @dequeue m rest held hpc =>
    obtain ⟨hfamily, hpcs⟩ := s.dequeue_family m
    obtain ⟨-, hqueue, hrun⟩ := s.dequeue_frame m
    refine h.quiet (t := t) (p := .removeQueues rest held) ?_ hqueue hrun (congrArg callings hfamily) ?_ rfl (by rw [hpc]; rfl)
    · exact congrArg (fun f => update f t (.removeQueues rest held)) hpcs
    · show NoNewZombie (s.dequeue m).family _
      rw [hfamily]
      exact .refl _
  | zombify _ hpc _ => exact h.zombify hpc
  | panic _ hpc hinit => exact h.panic hkin hroot hpc hinit
  | take _ hpc => exact h.take hkin hpc
  | drain hpc hfree => exact h.drain hlocked hpc hfree
  | wake hpc => exact h.wake hpc
  | extend hcmd hpc =>
    subst hcmd
    refine h.extend hpc fun c hc => ?_
    have horphans := hs.2
    rw [hpc] at horphans
    exact horphans rfl c hc
  | @sched r hr =>
    exact h.move (update_eq_self t s.pc).symm rfl (waits_update hr) rfl (.refl _) (fun _ => .inl) (fun _ => id) (fun _ => id)
      fun _ _ _ => id
  | drop _ =>
    exact h.move (update_eq_self t s.pc).symm rfl (fun _ => id) rfl (hfewer (nil_sublist _)) (fun _ => .inl)
      (fun _ => id) (fun _ => id) fun _ _ _ => id

structure Attentive (s : Processes τ) : Prop where
  kin : s.family.Kin s.pc
  last : LeadersLast s.family
  locked : s.Locked
  root : ¬s.Kept s.family.initTask
  heard : s.Heard

omit h hkin

theorem Attentive.step (h : s.Attentive) (hs : s.Audible t cmd) (hm : s.Move t cmd s') : s'.Attentive where
  kin := kin_step h.kin hm
  last := by
    refine h.last.step h.kin (fun ok hcmd => ?_) hm
    subst hcmd
    exact hs.1
  locked := h.locked.step hm
  root hkept := by
    rw [hm.initTask] at hkept
    exact (kept_of_move h.kin hm hkept).elim h.root h.kin.init.2.2
  heard := h.heard.step h.kin h.last h.locked h.root hs hm

theorem attentive_boot (initTask : τ) (pgid : τ → Nat) : (boot initTask pgid).Attentive := by
  have hpc : ∀ t, ((boot initTask pgid).pc t).locks = false ∧ ((boot initTask pgid).pc t).orphans = [] ∧
      ((boot initTask pgid).pc t).pushes = none ∧ ((boot initTask pgid).pc t).sleeps = none := by
    intro t
    dsimp only [boot]
    split <;> exact ⟨rfl, rfl, rfl, rfl⟩
  refine ⟨kin_boot initTask pgid, fun _ _ hz => hz, fun t ht => ?_, ?_, fun t call ht => ?_, fun t call ht => ?_,
    fun t call ht => ?_⟩
  · cases (hpc t).1.symm.trans ht
  · rintro (⟨q, hq⟩ | ⟨w, hw⟩)
    · cases hq
    · rw [(hpc w).2.1] at hw
      cases hw
  · cases (hpc t).2.2.1.symm.trans ht
  · cases (hpc t).2.2.2.symm.trans ht
  · cases (hpc t).2.2.2.symm.trans ht

/-- In every run in which a leader becomes a zombie after its threads, and in which `INITTASK` gets no zombie, a task that
sleeps in a wait and has not been woken up, while a process that it waits for is a zombie, is about to be woken up: an exit has
taken it out of the queue, or it is in the queue and the process itself has still to empty it. -/
theorem child_exit_heard {initTask : τ} {pgid : τ → Nat} {s : Processes τ}
    (h : ReflTransGen AudibleStep (boot initTask pgid) s) {t c : τ} {call : WaitCall}
    (hpc : s.pc t = .asleep call) (hwaits : (s.run t).waits = true) (hc : c ∈ s.family.children t)
    (hz : s.family.zombie c = true) (hmatch : s.family.matchesFilter t call.filter c = true) :
    (∃ w, t ∈ (s.pc w).toWake) ∨
      t ∈ s.waitChldexit (s.family.leader t) ∧ s.family.parent c = some t ∧
        (s.pc c = .exitCheck ∧ s.family.lastThread c = true ∨ s.pc c = .exitTake ∨ ∃ os, s.pc c = .exitNotify t os) := by
  have hinv : s.Attentive := by
    refine inv_of_reachable (attentive_boot initTask pgid) (fun s s' hs hstep => ?_) h
    obtain ⟨t, cmd, haudible, hstep⟩ := hstep
    exact hs.step haudible (move_of_step hstep)
  have hsleeps : (s.pc t).sleeps = some call := by rw [hpc]; rfl
  obtain ⟨-, htask, hlead, hparent⟩ := hinv.kin.child t c hc
  rcases hinv.heard.queue t call hsleeps hwaits with hqueue | hw
  · refine (hinv.heard.due t call hsleeps hwaits c ⟨hc, hz, hmatch⟩).imp_right fun htell => ⟨hqueue, hparent, ?_⟩
    cases hp : s.pc c with
    | exitCheck => exact .inl ⟨rfl, lastThread_of_leader hinv.kin hinv.last htask hlead hz⟩
    | exitTake => exact .inr (.inl rfl)
    | exitNotify q os =>
      rw [hp] at htell
      obtain rfl : q = t := htell
      exact .inr (.inr ⟨os, rfl⟩)
    | _ =>
      rw [hp] at htell
      exact htell.elim
  · exact .inl hw

instance (s : Processes τ) (t : τ) : (cmd : ProcCmd τ ⊕ SchedCmd) → Decidable (s.Audible t cmd)
  | .inl (.next _) => inferInstanceAs (Decidable (_ ∧ _))
  | .inl (.clone _) | .inl (.build ..) | .inl .fail | .inl (.wait4 ..) | .inl (.waitid ..) | .inl .exit | .inl .preempt
  | .inr _ => instDecidableTrue

/-- The first process forks `p` and waits for it; `p` exits, and has become a zombie. -/
def heardRun (i p : τ) : List (τ × (ProcCmd τ ⊕ SchedCmd)) :=
  fork i p 2 ++ [(i, .inl (.wait4 (-1) false))] ++ nexts i 4 ++ [(p, .inl .exit)] ++ nexts p 2

theorem child_exit_heard_once :
    ∃ s : Processes Nat, ReflTransGen AudibleStep (boot 0 fun _ => 1) s ∧
      s.pc 0 = .asleep ⟨false, .any, false, false⟩ ∧ (s.run 0).waits = true ∧ 1 ∈ s.family.children 0 ∧
      s.family.zombie 1 = true ∧ s.family.matchesFilter 0 .any 1 = true ∧ 0 ∈ s.waitChldexit (s.family.leader 0) := by
  obtain ⟨s, hs, hpc, hwaits, hc, hz, hmatch, hall⟩ : ∃ s, runGuarded Audible step (boot 0 fun _ => 1) (heardRun 0 1) = some s ∧
      s.pc 0 = .asleep ⟨false, .any, false, false⟩ ∧ (s.run 0).waits = true ∧ 1 ∈ s.family.children 0 ∧
      s.family.zombie 1 = true ∧ s.family.matchesFilter 0 .any 1 = true ∧ ∀ w ∈ s.family.tasks, 0 ∉ (s.pc w).toWake :=
    exists_of_any (by decide +kernel)
  have hrun : ReflTransGen AudibleStep _ s := steps_of_runGuarded hs
  refine ⟨s, hrun, hpc, hwaits, hc, hz, hmatch, ?_⟩
  rcases child_exit_heard hrun hpc hwaits hc hz hmatch with ⟨w, hw⟩ | ⟨hqueue, -⟩
  · have hkin := kin_of_reachable (steps_of_guarded hrun)
    exact absurd hw (hall w (hkin.present w (ProcPc.present_of_toWake hw)))
  · exact hqueue

/-- The first process forks `p` and `d`, and `p` forks `c`. When `c` has exited, `p` exits; before it hands on the zombie, the
first process reaps `p` and waits for the next. -/
def missedRun (i p d c : τ) : List (τ × (ProcCmd τ ⊕ SchedCmd)) :=
  fork i p 2 ++ fork i d 3 ++ fork p c 4 ++ [(c, .inl .exit)] ++ nexts c 7 ++ [(p, .inl .exit)] ++ nexts p 6 ++
    [(i, .inl (.wait4 (-1) false))] ++ nexts i 6 ++ [(i, .inl (.wait4 (-1) false))] ++ nexts i 4 ++ nexts p 3

/-- The first process sleeps, with a zombie in its list that has come to the end of its exit; nobody is about to wake it up. -/
theorem child_exit_missed :
    ∃ s : Processes Nat, ReflTransGen Step (boot 0 fun _ => 1) s ∧
      s.pc 0 = .asleep ⟨false, .any, false, false⟩ ∧ (s.run 0).waits = true ∧ 2 ∈ s.family.children 0 ∧
      s.family.zombie 2 = true ∧ s.family.matchesFilter 0 .any 2 = true ∧ s.pc 2 = .gone ∧ ∀ w, 0 ∉ (s.pc w).toWake := by
  obtain ⟨s, hs, hpc, hwaits, hc, hz, hmatch, hgone, hall⟩ :
      ∃ s, ReflTransGen Step (boot 0 fun _ => 1) s ∧
      s.pc 0 = .asleep ⟨false, .any, false, false⟩ ∧ (s.run 0).waits = true ∧ 2 ∈ s.family.children 0 ∧
      s.family.zombie 2 = true ∧ s.family.matchesFilter 0 .any 2 = true ∧ s.pc 2 = .gone ∧
      ∀ w ∈ s.family.tasks, 0 ∉ (s.pc w).toWake :=
    exists_steps_of_any (missedRun 0 1 3 2) (by decide +kernel)
  refine ⟨s, hs, hpc, hwaits, hc, hz, hmatch, hgone, fun w hw => ?_⟩
  have hkin := kin_of_reachable hs
  exact hall w (hkin.present w (ProcPc.present_of_toWake hw)) hw

end Processes

end ShellCore.Task
