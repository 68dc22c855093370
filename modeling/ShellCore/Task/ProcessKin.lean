import ShellCore.Task.Processes

/-!
# Numbers, threads and children

What holds in every run: a number belongs to one task, the table has no zombies, every task has one leader, and a process is
in the children list of the task that its parent pointer names, in one place.
-/

namespace ShellCore.Task

open Function List

namespace ProcPc

variable {τ : Type} {p : ProcPc τ} {c : τ}

/-- The task has been cloned, and not in vain. -/
def existing : ProcPc τ → Bool
  | unborn | discarded => false
  | _ => true

/-- Nobody has dropped the task. -/
def present : ProcPc τ → Bool
  | unborn | discarded | gone => false
  | _ => true

/-- `recycle_on_exit` is done. -/
def exited : ProcPc τ → Bool
  | exitCheck | exitTake | exitNotify .. | exitWake .. | exitAdopt .. | exitExtend _ | gone | panicked => true
  | _ => false

/-- The task is no longer in the table. -/
def left : ProcPc τ → Bool
  | exitZombie => true
  | p => p.exited

/-- The child of a clone that is under way. -/
def clonee : ProcPc τ → Option τ
  | cloneWrite _ c | cloneLink c | cloneInsert c | cloneEnqueue c => some c
  | _ => none

/-- It is in no list and not in the table. -/
def fresh : ProcPc τ → Option τ
  | cloneWrite _ c | cloneLink c => some c
  | _ => none

/-- A process that is cloned and not yet in the children list. -/
def unlinked : ProcPc τ → Option τ
  | cloneWrite false c | cloneLink c => some c
  | _ => none

/-- The zombie that `waitid` has found. -/
def found : ProcPc τ → Option τ
  | waitidWrite _ c | waitidRemove c => some c
  | _ => none

/-- The zombie that `wait4` has taken. -/
def held : ProcPc τ → Option τ
  | wait4Write c => some c
  | removeSnapshot _ c | removeTable _ _ _ c | removeQueues _ c => c
  | _ => none

/-- The children that an exit has taken and not yet given away. -/
def orphans : ProcPc τ → List τ
  | exitNotify _ os | exitWake _ os | exitAdopt _ os | exitExtend os => os
  | _ => []

/-- Those of them that do not know it yet. -/
def toAdopt : ProcPc τ → List τ
  | exitNotify _ os | exitWake _ os => os
  | exitAdopt rest _ => rest
  | _ => []

/-- The task has exited and the kernel goes on. -/
def past : ProcPc τ → Bool
  | panicked => false
  | p => p.exited

/-- All that a task has with it. -/
def content (p : ProcPc τ) :
    (Bool × Bool × Bool × Bool) × (Option τ × Option τ × Option τ) × (Option τ × Option τ) × List τ × List τ :=
  ((p.past, p.present, p.left, p.exited), (p.clonee, p.fresh, p.unlinked), (p.found, p.held), p.orphans, p.toAdopt)

/-- The task is there, and is not about to make another. -/
def plain : ProcPc τ → Bool
  | unborn | built | discarded | cloneBuild .. => false
  | _ => true

attribute [simp] existing present exited left clonee fresh unlinked found held orphans toAdopt past

theorem holds_of_clonee (h : p.clonee = some c) : c ∈ p.holds := by
  cases p <;> cases h <;> exact mem_singleton_self _

theorem clonee_of_fresh (h : p.fresh = some c) : p.clonee = some c := by
  cases p <;> first | exact h | cases h

theorem fresh_of_unlinked (h : p.unlinked = some c) : p.fresh = some c := by
  cases p with
  | cloneWrite thread c' =>
    cases thread with
    | true => cases h
    | false => exact h
  | cloneLink c' => exact h
  | _ => cases h

theorem holds_of_held (h : p.held = some c) : c ∈ p.holds := by
  cases p <;> first | (cases h; done) | (cases h; simp [holds])

theorem holds_of_orphans (h : c ∈ p.orphans) : c ∈ p.holds := by
  cases p <;> first | (cases h; done) | exact h | exact mem_cons_of_mem _ h

theorem present_of_holds (h : c ∈ p.holds) : p.present = true := by
  cases p <;> first | rfl | cases h

theorem present_of_clonee (h : p.clonee = some c) : p.present = true := by
  cases p <;> first | rfl | cases h

theorem present_of_orphans (h : c ∈ p.orphans) : p.present = true := by
  cases p <;> first | rfl | cases h

theorem ne_unborn_of_existing (h : p.existing = true) : p ≠ .unborn := by
  rintro rfl
  cases h

theorem left_of_exited (h : p.exited = true) : p.left = true := by
  cases p <;> first | rfl | cases h

end ProcPc

open ProcPc

namespace Family

variable {τ : Type} [DecidableEq τ]

/-- The number of the task is in use. -/
def Named (x : Family τ) (a : τ) : Prop := a ∈ x.tasks ∨ ∃ u ∈ x.tasks, x.leader u = a

structure Kin (x : Family τ) (pc : τ → ProcPc τ) : Prop where
  init : x.initTask ∈ x.tasks ∧ x.leader x.initTask = x.initTask ∧ pc x.initTask ≠ .built
  past : ∀ u, (pc u).past = true → x.leader u ≠ x.initTask
  existing : ∀ u ∈ x.tasks, (pc u).existing = true
  present : ∀ u, (pc u).present = true → u ∈ x.tasks
  leader : ∀ u, pc u ≠ .unborn → x.leader (x.leader u) = x.leader u ∧ pc (x.leader u) ≠ .unborn
  names : ∀ a b, x.Named a → x.Named b → x.tid a = x.tid b → a = b
  listed : ∀ u ∈ x.tid2tcb, u ∈ x.tasks ∧ (pc u).left = false
  zombie : ∀ u, x.zombie u = (pc u).exited
  child : ∀ p c, c ∈ x.children p → p ∈ x.tasks ∧ c ∈ x.tasks ∧ x.leader c = c ∧ x.parent c = some p
  nodup : ∀ p, (x.children p).Nodup
  cloning : ∀ t parent, pc t = .cloneBuild false parent → parent = some t
  clonee : ∀ t c, (pc t).clonee = some c → pc c = .built
  cloneOnce : ∀ t u c, (pc t).clonee = some c → (pc u).clonee = some c → t = u
  fresh : ∀ t c, (pc t).fresh = some c → c ∉ x.tid2tcb ∧ (∀ p, c ∉ x.children p) ∧ ∀ u, c ∉ (pc u).orphans
  unlinked : ∀ t c, (pc t).unlinked = some c → x.leader c = c ∧ x.parent c = some t
  found : ∀ t c, (pc t).found = some c → c ∈ x.children t ∧ x.zombie c = true
  held : ∀ t c, (pc t).held = some c → c ∈ x.tasks ∧ x.zombie c = true ∧ x.leader c = c
  orphan : ∀ t, ∀ c ∈ (pc t).orphans, c ∈ x.tasks ∧ x.leader c = c ∧ (∀ p, c ∉ x.children p) ∧
    (c ∉ (pc t).toAdopt → x.parent c = some x.initTask)
  orphanOnce : ∀ t u c, c ∈ (pc t).orphans → c ∈ (pc u).orphans → t = u
  orphanNodup : ∀ t, (pc t).orphans.Nodup
  toAdopt : ∀ t, ∀ c ∈ (pc t).toAdopt, c ∈ (pc t).orphans

variable {x : Family τ} {pc : τ → ProcPc τ} {t c : τ} {p : ProcPc τ}

/-- A process that is nowhere. -/
structure Loose (x : Family τ) (pc : τ → ProcPc τ) (c : τ) : Prop where
  task : c ∈ x.tasks ∧ x.leader c = c
  child : ∀ p, c ∉ x.children p
  orphan : ∀ u, c ∉ (pc u).orphans
  fresh : ∀ u, (pc u).fresh ≠ some c

/-- A task that goes to `p` has with it what it had before, or less, or what is at hand. -/
structure Frame (x : Family τ) (pc : τ → ProcPc τ) (t : τ) (p : ProcPc τ) : Prop where
  existing : p.existing = true ∧ (pc t).existing = true
  built : (pc t = .built → ∀ u, (pc u).clonee ≠ some t) ∧ p ≠ .built
  past : p.past = true → (pc t).past = true ∨ x.leader t ≠ x.initTask
  present : p.present = true → (pc t).present = true
  left : t ∈ x.tid2tcb → p.left = false
  cloning : ∀ parent, p = .cloneBuild false parent → parent = some t
  clonee : ∀ c, p.clonee = some c → (pc t).clonee = some c ∨ pc c = .built ∧ c ≠ t ∧ ∀ u, (pc u).clonee ≠ some c
  fresh : ∀ c, p.fresh = some c → (pc t).fresh = some c ∨
    c ∉ x.tid2tcb ∧ (∀ p, c ∉ x.children p) ∧ (∀ u, c ∉ (pc u).orphans) ∧ p.orphans = []
  unlinked : ∀ c, p.unlinked = some c → (pc t).unlinked = some c ∨ x.leader c = c ∧ x.parent c = some t
  found : ∀ c, p.found = some c → (pc t).found = some c ∨ c ∈ x.children t ∧ x.zombie c = true
  held : ∀ c, p.held = some c → (pc t).held = some c ∨ c ∈ x.tasks ∧ x.zombie c = true ∧ x.leader c = c
  orphans : ∀ c ∈ p.orphans, c ∈ (pc t).orphans ∨ c ∈ p.toAdopt ∧ x.Loose pc c
  nodup : p.orphans.Nodup
  adopted : ∀ c ∈ p.orphans, c ∉ p.toAdopt → c ∉ (pc t).toAdopt ∨ x.parent c = some x.initTask
  toAdopt : ∀ c ∈ p.toAdopt, c ∈ p.orphans

/-- A task goes on, and possibly becomes a zombie. -/
theorem Kin.advance (h : x.Kin pc) (hf : Frame x pc t p) {z : τ → Bool}
    (hz : ∀ u, z u = (update pc t p u).exited) (hmono : ∀ u, x.zombie u = true → z u = true) :
    Kin { x with zombie := z } (update pc t p) := by
  have hclonee : ∀ u c, (update pc t p u).clonee = some c → (pc u).clonee = some c ∨
      u = t ∧ pc c = .built ∧ c ≠ t ∧ ∀ u, (pc u).clonee ≠ some c :=
    fun u => forall_update u (fun c hc => (hf.clonee c hc).imp_right fun hnew => ⟨rfl, hnew⟩) fun _ _ => .inl
  have horphans : ∀ u c, c ∈ (update pc t p u).orphans → c ∈ (pc u).orphans ∨
      u = t ∧ c ∈ p.toAdopt ∧ x.Loose pc c :=
    fun u => forall_update u (fun c hc => (hf.orphans c hc).imp_right fun hloose => ⟨rfl, hloose⟩) fun _ _ => .inl
  have hunborn : ∀ u, update pc t p u ≠ .unborn ↔ pc u ≠ .unborn :=
    fun u => forall_update u
      (iff_of_true (ne_unborn_of_existing hf.existing.1) (ne_unborn_of_existing hf.existing.2))
      fun _ => Iff.rfl
  have hfresh : ∀ u c, (update pc t p u).fresh = some c → (pc u).fresh = some c ∨
      c ∉ x.tid2tcb ∧ (∀ p, c ∉ x.children p) ∧ (∀ u, c ∉ (pc u).orphans) ∧ p.orphans = [] :=
    fun u => forall_update u hf.fresh fun _ _ => .inl
  constructor
  · refine ⟨h.init.1, h.init.2.1, ?_⟩
    exact forall_update (motive := fun u (q : ProcPc τ) => u = x.initTask → q ≠ .built) _ (fun _ => hf.built.2)
      (fun u hu => hu ▸ h.init.2.2) rfl
  · exact fun u => forall_update u (fun hp => (hf.past hp).elim (h.past t) id) h.past
  · exact fun u => forall_update u (fun _ => hf.existing.1) h.existing
  · exact fun u => forall_update u (fun hp => h.present t (hf.present hp)) h.present
  · intro u hu
    obtain ⟨hlead, hborn⟩ := h.leader u ((hunborn u).1 hu)
    exact ⟨hlead, (hunborn _).2 hborn⟩
  · exact h.names
  · intro u hu
    refine ⟨(h.listed u hu).1, ?_⟩
    revert hu
    exact forall_update u hf.left fun u hu => (h.listed u hu).2
  · exact hz
  · exact h.child
  · exact h.nodup
  · exact fun u => forall_update u hf.cloning
      h.cloning
  · intro u c hu
    rcases hclonee u c hu with hold | ⟨-, hbuilt, hct, -⟩
    · have hct : c ≠ t := by
        rintro rfl
        exact hf.built.1 (h.clonee u c hold) u hold
      rw [update_of_ne hct]
      exact h.clonee u c hold
    · rwa [update_of_ne hct]
  · intro u v c hu hv
    rcases hclonee u c hu with hold | ⟨rfl, -, -, hnone⟩ <;> rcases hclonee v c hv with hold' | ⟨rfl, -, -, hnone'⟩
    · exact h.cloneOnce u v c hold hold'
    · exact absurd hold (hnone' u)
    · exact absurd hold' (hnone v)
    · rfl
  · intro u c hu
    rcases hfresh u c hu with hold | ⟨htable, hlists, horph, hnil⟩
    · obtain ⟨htable, hlists, horph⟩ := h.fresh u c hold
      refine ⟨htable, hlists, fun v hv => ?_⟩
      rcases horphans v c hv with hv | ⟨-, -, hloose⟩
      · exact horph v hv
      · exact hloose.fresh u hold
    · refine ⟨htable, hlists, fun v hv => ?_⟩
      rcases horphans v c hv with hv | ⟨-, hadopt, -⟩
      · exact horph v hv
      · have hmem := hf.toAdopt c hadopt
        rw [hnil] at hmem
        cases hmem
  · exact fun u => forall_update u (fun c hc => (hf.unlinked c hc).elim (h.unlinked t c) id) h.unlinked
  · intro u c hc
    obtain ⟨hmem, hzombie⟩ := forall_update (motive := fun u (q : ProcPc τ) => ∀ c, q.found = some c → c ∈ x.children u ∧
      x.zombie c = true) u (fun c hc => (hf.found c hc).elim (h.found t c) id) h.found c hc
    exact ⟨hmem, hmono c hzombie⟩
  · intro u c hc
    obtain ⟨hmem, hzombie, hlead⟩ := forall_update (motive := fun _ (q : ProcPc τ) => ∀ c, q.held = some c → c ∈ x.tasks ∧
      x.zombie c = true ∧ x.leader c = c) u (fun c hc => (hf.held c hc).elim (h.held t c) id) h.held c hc
    exact ⟨hmem, hmono c hzombie, hlead⟩
  · intro u c hc
    rcases horphans u c hc with hold | ⟨rfl, hadopt, hloose⟩
    · obtain ⟨hmem, hlead, hapart, hadopt⟩ := h.orphan u c hold
      refine ⟨hmem, hlead, hapart, fun hnot => ?_⟩
      have hcase := forall_update (motive := fun u (q : ProcPc τ) => c ∈ q.orphans → c ∉ q.toAdopt →
        c ∉ (pc u).toAdopt ∨ x.parent c = some x.initTask) u (hf.adopted c) (fun _ _ => .inl) hc hnot
      exact hcase.elim hadopt id
    · refine ⟨hloose.task.1, hloose.task.2, hloose.child, fun hnot => absurd hadopt ?_⟩
      rwa [update_self] at hnot
  · intro u v c hu hv
    rcases horphans u c hu with hold | ⟨rfl, -, hloose⟩ <;> rcases horphans v c hv with hold' | ⟨rfl, -, hloose'⟩
    · exact h.orphanOnce u v c hold hold'
    · exact absurd hold (hloose'.orphan u)
    · exact absurd hold' (hloose.orphan v)
    · rfl
  · exact fun u => forall_update u hf.nodup h.orphanNodup
  · exact fun u => forall_update u hf.toAdopt h.toAdopt

theorem Kin.goto (h : x.Kin pc) (hf : Frame x pc t p) (hexited : p.exited = (pc t).exited) :
    x.Kin (update pc t p) :=
  h.advance hf (fun u => forall_update u ((h.zombie t).trans hexited.symm) h.zombie)
    fun _ => id

/-- A task goes on and keeps what it has. -/
theorem Kin.move (h : x.Kin pc) {old : ProcPc τ} (hpc : pc t = old) (hold : old.plain = true) (hp : p.plain = true)
    (hcontent : p.content = old.content) : x.Kin (update pc t p) := by
  subst hpc
  simp only [content, Prod.mk.injEq] at hcontent
  obtain ⟨⟨hpast, hpresent, hleft, hexited⟩, ⟨hclonee, hfresh, hunlinked⟩, ⟨hfound, hheld⟩, horphans, htoAdopt⟩ := hcontent
  have hplain : ∀ {q : ProcPc τ}, q.plain = true → q.existing = true ∧ q ≠ .built ∧ ∀ b parent, q ≠ .cloneBuild b parent := by
    intro q hq
    cases q <;> first | (cases hq; done) | exact ⟨rfl, by simp, by simp⟩
  refine h.goto ⟨⟨(hplain hp).1, (hplain hold).1⟩, ⟨fun hb => absurd hb (hplain hold).2.1, (hplain hp).2.1⟩,
    fun hq => .inl (hpast ▸ hq), fun hq => hpresent ▸ hq, fun ht => hleft.trans (h.listed t ht).2,
    fun parent heq => absurd heq ((hplain hp).2.2 false parent), fun c hc => .inl (hclonee ▸ hc),
    fun c hc => .inl (hfresh ▸ hc), fun c hc => .inl (hunlinked ▸ hc), fun c hc => .inl (hfound ▸ hc),
    fun c hc => .inl (hheld ▸ hc), fun c hc => .inl (horphans ▸ hc), ?_, fun c _ hc => .inl (htoAdopt ▸ hc), fun c hc => ?_⟩
    hexited
  · rw [horphans]
    exact h.orphanNodup t
  · rw [horphans]
    rw [htoAdopt] at hc
    exact h.toAdopt t c hc

/-- A task that has not exited comes back to user mode and has nothing with it. -/
theorem Kin.toUser (h : x.Kin pc) (hpresent : (pc t).present = true) (hexited : (pc t).exited = false)
    (hbuilt : pc t = .built → ∀ u, (pc u).clonee ≠ some t) : x.Kin (update pc t .user) := by
  have hexisting := h.existing t (h.present t hpresent)
  refine h.goto ?_ hexited.symm
  constructor
  case existing => exact ⟨rfl, hexisting⟩
  case built => exact ⟨hbuilt, by simp⟩
  case present => exact fun _ => hpresent
  all_goals simp

section

omit [DecidableEq τ]

theorem Kin.not_listed (h : x.Kin pc) (ht : (pc t).left = true) : t ∉ x.tid2tcb := by
  intro hmem
  rw [(h.listed t hmem).2] at ht
  cases ht

/-! ## The changes of the family -/

theorem mem_of_findZombie {f : WaitFilter} (h : x.findZombie t f = some c) : c ∈ x.children t ∧ x.zombie c = true := by
  refine ⟨mem_of_find?_eq_some h, ?_⟩
  have hfound := find?_some h
  rw [Bool.and_eq_true] at hfound
  exact hfound.2

/-- Fewer tasks are in the table. -/
theorem Kin.sublist_table (h : x.Kin pc) {l : List τ} (hl : ∀ u ∈ l, u ∈ x.tid2tcb) : Kin { x with tid2tcb := l } pc :=
  { h with
    listed := fun u hu => h.listed u (hl u hu)
    fresh := fun t c hc => ⟨fun hmem => (h.fresh t c hc).1 (hl c hmem), (h.fresh t c hc).2⟩ }

theorem Kin.removeFromTid2task (h : x.Kin pc) (n : Nat) : (x.removeFromTid2task n).Kin pc :=
  h.sublist_table fun _ hu => mem_of_mem_filter hu

/-- The child of a clone enters the table. -/
theorem Kin.insert (h : x.Kin pc) (hc : pc c = .built) (hfresh : ∀ t, (pc t).fresh ≠ some c) :
    Kin { x with tid2tcb := x.tid2tcb ++ [c] } pc :=
  { h with
    listed := by
      intro u hu
      rcases mem_append.1 hu with hu | hu
      · exact h.listed u hu
      · obtain rfl := mem_singleton.1 hu
        exact ⟨h.present u (by rw [hc]; rfl), by rw [hc]; rfl⟩
    fresh := by
      intro t c' hc'
      refine ⟨fun hmem => ?_, (h.fresh t c' hc').2⟩
      rcases mem_append.1 hmem with hmem | hmem
      · exact (h.fresh t c' hc').1 hmem
      · obtain rfl := mem_singleton.1 hmem
        exact hfresh t hc' }

/-- Children lists get shorter. -/
theorem Kin.sublist_children (h : x.Kin pc) {l : τ → List τ} {r : List τ} (hl : ∀ p, (l p).Sublist (x.children p))
    (hfound : ∀ t c, (pc t).found = some c → c ∈ l t) : Kin { x with children := l, reaped := r } pc :=
  { h with
    child := fun p c hc => h.child p c ((hl p).subset hc)
    nodup := fun p => (h.nodup p).sublist (hl p)
    fresh := fun t c hc => ⟨(h.fresh t c hc).1, fun p hp => (h.fresh t c hc).2.1 p ((hl p).subset hp), (h.fresh t c hc).2.2⟩
    found := fun t c hc => ⟨hfound t c hc, (h.found t c hc).2⟩
    orphan := fun t c hc =>
      ⟨(h.orphan t c hc).1, (h.orphan t c hc).2.1, fun p hp => (h.orphan t c hc).2.2.1 p ((hl p).subset hp),
        (h.orphan t c hc).2.2.2⟩ }

end

theorem sublist_update {f : τ → List τ} {l : List τ} (hl : l.Sublist (f t)) (p : τ) :
    (update f t l p).Sublist (f p) :=
  forall_update p hl fun _ => .refl _

theorem Kin.reap (h : x.Kin pc) (hfound : (pc t).found = none) : (x.reap t c).Kin pc := by
  refine h.sublist_children (sublist_update erase_sublist) fun u c' hc' => ?_
  have hut : u ≠ t := by
    rintro rfl
    cases hfound.symm.trans hc'
  rw [show (x.setChildren t ((x.children t).erase c)).children u = x.children u from update_of_ne hut _ _]
  exact (h.found u c' hc').1

/-- `recycle_on_exit`: the task is a zombie from now on. -/
theorem Kin.zombify (h : x.Kin pc) (hf : Frame x pc t p) (hexited : p.exited = true) :
    (x.zombify t).Kin (update pc t p) := by
  refine h.advance hf (fun u => ?_) fun u hu => ?_
  · by_cases hut : u = t
    · subst hut
      rw [update_self, update_self, hexited]
    · rw [update_of_ne hut, update_of_ne hut]
      exact h.zombie u
  · revert hu
    exact forall_update u (fun _ => rfl) fun _ => id

@[simp] theorem children_setChildren_self (l : List τ) : (x.setChildren t l).children t = l := update_self ..

theorem children_setChildren_of_ne (l : List τ) (h : c ≠ t) : (x.setChildren t l).children c = x.children c :=
  update_of_ne h ..

theorem taken_cases (x : Family τ) (t : τ) :
    (∃ p, x.upgrade (x.parent t) = some p ∧ x.taken t = .exitNotify p (x.children t)) ∨
      x.upgrade (x.parent t) = none ∧ x.taken t = .exitAdopt (x.children t) (x.children t) := by
  unfold taken
  cases x.upgrade (x.parent t) with
  | some p => exact .inl ⟨p, rfl, rfl⟩
  | none => exact .inr ⟨rfl, rfl⟩

/-- A task that exits takes its children with it. -/
theorem Kin.take (h : x.Kin pc) (hpc : pc t = .exitTake) :
    (x.setChildren t []).Kin (update pc t (x.taken t)) := by
  have hnil : (x.setChildren t []).Kin pc := by
    refine h.sublist_children (sublist_update (nil_sublist _)) fun u c hc => ?_
    have hut : u ≠ t := by
      rintro rfl
      rw [hpc] at hc
      cases hc
    exact (update_of_ne hut [] x.children).symm ▸ (h.found u c hc).1
  have hloose : ∀ c ∈ x.children t, (x.setChildren t []).Loose pc c := by
    intro c hc
    obtain ⟨-, hmem, hlead, hparent⟩ := h.child t c hc
    refine ⟨⟨hmem, hlead⟩, fun q hq => ?_, fun u hu => (h.orphan u c hu).2.2.1 t hc, fun u hu => (h.fresh u c hu).2.1 t hc⟩
    by_cases hqt : q = t
    · subst hqt
      rw [children_setChildren_self] at hq
      cases hq
    · rw [children_setChildren_of_ne _ hqt] at hq
      exact hqt (Option.some.inj ((h.child q c hq).2.2.2.symm.trans hparent))
  have htable : t ∉ (x.setChildren t []).tid2tcb := h.not_listed (by rw [hpc]; rfl)
  refine hnil.goto ?_ ?_
  · rcases x.taken_cases t with ⟨q, -, heq⟩ | ⟨-, heq⟩
    all_goals
      rw [heq]
      constructor <;> simp [hpc, htable, h.nodup]
      exact fun c hc => ⟨hc, hloose c hc⟩
  · rw [hpc]
    rcases x.taken_cases t with ⟨q, -, heq⟩ | ⟨-, heq⟩ <;> rw [heq] <;> rfl

/-- An orphan is told of its new parent. -/
theorem Kin.adopt (h : x.Kin pc) (hc : c ∈ (pc t).orphans) : (x.adopt c).Kin pc := by
  have hparent : ∀ c', c' ≠ c → (x.adopt c).parent c' = x.parent c' := fun c' hne => update_of_ne hne ..
  exact { h with
    child := by
      intro q c' hc'
      have hne : c' ≠ c := by
        rintro rfl
        exact (h.orphan t c' hc).2.2.1 q hc'
      rw [hparent c' hne]
      exact h.child q c' hc'
    unlinked := by
      intro u c' hc'
      have hne : c' ≠ c := by
        rintro rfl
        exact (h.fresh u c' (fresh_of_unlinked hc')).2.2 t hc
      rw [hparent c' hne]
      exact h.unlinked u c' hc'
    orphan := by
      intro u c' hc'
      obtain ⟨hmem, hlead, hapart, hadopt⟩ := h.orphan u c' hc'
      refine ⟨hmem, hlead, hapart, fun hnot => ?_⟩
      by_cases hne : c' = c
      · subst hne
        exact update_self ..
      · rw [hparent c' hne]
        exact hadopt hnot }

theorem mem_children_append {q : τ} {os : List τ} (hc : c ∈ x.children q) : c ∈ (x.extendChildren t os).children q :=
  forall_update (motive := fun q (l : List τ) => c ∈ x.children q → c ∈ l) q (mem_append_left _) (fun _ => id) hc

/-- Processes that are nowhere come into a children list. -/
theorem Kin.append (h : x.Kin pc) (ht : t ∈ x.tasks) {os : List τ} (hos : ∀ c ∈ os, x.Loose pc c ∧ x.parent c = some t)
    (hnodup : os.Nodup) : (x.extendChildren t os).Kin pc := by
  have hcase : ∀ q c, c ∈ (x.extendChildren t os).children q → c ∈ x.children q ∨ q = t ∧ c ∈ os :=
    fun q => forall_update (motive := fun q (l : List τ) => ∀ c ∈ l, c ∈ x.children q ∨ q = t ∧ c ∈ os) q
      (fun c hc => (mem_append.1 hc).imp_right fun hc => ⟨rfl, hc⟩) fun _ _ => .inl
  exact { h with
    child := by
      intro q c hc
      rcases hcase q c hc with hold | ⟨rfl, hnew⟩
      · exact h.child q c hold
      · obtain ⟨hloose, hparent⟩ := hos c hnew
        exact ⟨ht, hloose.task.1, hloose.task.2, hparent⟩
    nodup := by
      refine fun u => forall_update (motive := fun _ (l : List τ) => l.Nodup) u ?_ h.nodup
      exact nodup_append.2 ⟨h.nodup t, hnodup, fun c hc c' hc' heq => (hos c' hc').1.child t (heq ▸ hc)⟩
    fresh := by
      intro u c hu
      obtain ⟨htable, hlists, horph⟩ := h.fresh u c hu
      refine ⟨htable, fun q hq => ?_, horph⟩
      rcases hcase q c hq with hq | ⟨-, hq⟩
      · exact hlists q hq
      · exact (hos c hq).1.fresh u hu
    found := fun u c hu => ⟨mem_children_append (h.found u c hu).1, (h.found u c hu).2⟩
    orphan := by
      intro u c hc
      obtain ⟨hmem, hlead, hapart, hadopt⟩ := h.orphan u c hc
      refine ⟨hmem, hlead, fun q hq => ?_, hadopt⟩
      rcases hcase q c hq with hq | ⟨-, hq⟩
      · exact hapart q hq
      · exact (hos c hq).1.orphan u hc }

/-- A task to which nothing refers is dropped. -/
theorem Kin.drop (h : x.Kin pc) (hinit : t ≠ x.initTask) (hp : p = .gone ∨ p = .discarded)
    (hexited : p.exited = (pc t).exited) (hpast : p.past = (pc t).past) (hborn : pc t ≠ .unborn) (htable : t ∉ x.tid2tcb)
    (hlists : ∀ q, t ∉ x.children q) (hclonee : ∀ u, (pc u).clonee ≠ some t) (hheld : ∀ u, (pc u).held ≠ some t)
    (horphan : ∀ u, t ∉ (pc u).orphans) : (x.drop t).Kin (update pc t p) := by
  have hkeep : ∀ {u}, u ∈ x.tasks → u ≠ t → u ∈ (x.drop t).tasks :=
    fun hu hut => mem_filter.2 ⟨hu, decide_eq_true hut⟩
  have hsub : ∀ {u}, u ∈ (x.drop t).tasks → u ∈ x.tasks ∧ u ≠ t :=
    fun hu => ⟨(mem_filter.1 hu).1, of_decide_eq_true (mem_filter.1 hu).2⟩
  have hnamed : ∀ {a}, (x.drop t).Named a → x.Named a := by
    rintro a (ha | ⟨u, hu, rfl⟩)
    · exact .inl (hsub ha).1
    · exact .inr ⟨u, (hsub hu).1, rfl⟩
  have hchildren : ∀ q c, c ∈ (x.drop t).children q → q ≠ t ∧ c ∈ x.children q := by
    exact fun q => forall_update_of_ne (motive := fun q (l : List τ) => ∀ c ∈ l, q ≠ t ∧ c ∈ x.children q) q nofun fun _ hq _ hc => ⟨hq, hc⟩
  -- a place that a task is dropped from has nothing with it
  have hclonees : ∀ u c, (update pc t p u).clonee = some c → (pc u).clonee = some c ∧ c ≠ t := by
    refine fun u => forall_update u ?_ ?_
    · rcases hp with rfl | rfl <;> simp
    · rintro u c hc
      refine ⟨hc, ?_⟩
      rintro rfl
      exact hclonee u hc
  have hfresh : ∀ u c, (update pc t p u).fresh = some c → (pc u).fresh = some c :=
    fun u => forall_update u (by rcases hp with rfl | rfl <;> simp) fun _ _ => id
  have horphans : ∀ u c, c ∈ (update pc t p u).orphans → c ∈ (pc u).orphans ∧ c ≠ t := by
    refine fun u => forall_update u ?_ ?_
    · rcases hp with rfl | rfl <;> simp
    · intro u c hc
      refine ⟨hc, ?_⟩
      rintro rfl
      exact horphan u hc
  have hunborn : ∀ u, update pc t p u ≠ .unborn ↔ pc u ≠ .unborn :=
    fun u => forall_update u (iff_of_true (by rcases hp with rfl | rfl <;> simp) hborn) fun _ => Iff.rfl
  constructor
  · refine ⟨hkeep h.init.1 hinit.symm, h.init.2.1, ?_⟩
    rw [update_of_ne (Ne.symm hinit : (x.drop t).initTask ≠ t)]
    exact h.init.2.2
  · exact fun u => forall_update u (fun hq => h.past t (hpast ▸ hq)) h.past
  · intro u hu
    rw [update_of_ne (hsub hu).2]
    exact h.existing u (hsub hu).1
  · intro u hu
    have hut : u ≠ t := by
      rintro rfl
      rw [update_self] at hu
      rcases hp with rfl | rfl <;> cases hu
    rw [update_of_ne hut] at hu
    exact hkeep (h.present u hu) hut
  · intro u hu
    obtain ⟨hlead, hlborn⟩ := h.leader u ((hunborn u).1 hu)
    exact ⟨hlead, (hunborn _).2 hlborn⟩
  · exact fun a b ha hb => h.names a b (hnamed ha) (hnamed hb)
  · intro u hu
    have hut : u ≠ t := fun heq => htable (heq ▸ hu)
    rw [update_of_ne hut]
    exact ⟨hkeep (h.listed u hu).1 hut, (h.listed u hu).2⟩
  · exact fun u => forall_update u ((h.zombie t).trans hexited.symm) h.zombie
  · intro q c hc
    obtain ⟨hq, hold⟩ := hchildren q c hc
    obtain ⟨hqm, hcm, hlead, hparent⟩ := h.child q c hold
    exact ⟨hkeep hqm hq, hkeep hcm fun heq => hlists q (heq ▸ hold), hlead, hparent⟩
  · exact fun q => (h.nodup q).sublist (sublist_update (nil_sublist _) q)
  · exact fun u => forall_update u (by rcases hp with rfl | rfl <;> simp) h.cloning
  · intro u c hu
    obtain ⟨hold, hct⟩ := hclonees u c hu
    rw [update_of_ne hct]
    exact h.clonee u c hold
  · exact fun u v c hu hv => h.cloneOnce u v c (hclonees u c hu).1 (hclonees v c hv).1
  · intro u c hu
    obtain ⟨htab, hlist, horph⟩ := h.fresh u c (hfresh u c hu)
    exact ⟨htab, fun q hq => hlist q (hchildren q c hq).2, fun v hv => horph v (horphans v c hv).1⟩
  · exact fun u => forall_update u (by rcases hp with rfl | rfl <;> simp) h.unlinked
  · intro u c hu
    have hut : u ≠ t := by
      rintro rfl
      rw [update_self] at hu
      rcases hp with rfl | rfl <;> cases hu
    rw [update_of_ne hut] at hu
    rw [show (x.drop t).children u = x.children u from update_of_ne hut ..]
    exact h.found u c hu
  · refine fun u => forall_update u ?_ fun u c hc => ?_
    · rcases hp with rfl | rfl <;> simp
    · obtain ⟨hmem, hrest⟩ := h.held u c hc
      refine ⟨hkeep hmem ?_, hrest⟩
      rintro rfl
      exact hheld u hc
  · intro u c hc
    obtain ⟨hold, hct⟩ := horphans u c hc
    obtain ⟨hmem, hlead, hapart, hadopt⟩ := h.orphan u c hold
    refine ⟨hkeep hmem hct, hlead, fun q hq => hapart q (hchildren q c hq).2, fun hnot => hadopt ?_⟩
    revert hc hnot
    exact forall_update u (by rcases hp with rfl | rfl <;> simp) fun _ _ => id
  · exact fun u v c hu hv => h.orphanOnce u v c (horphans u c hu).1 (horphans v c hv).1
  · exact fun u => forall_update u (by rcases hp with rfl | rfl <;> simp) h.orphanNodup
  · exact fun u => forall_update u (by rcases hp with rfl | rfl <;> simp) h.toAdopt

section

omit [DecidableEq τ]

theorem Kin.ne_of_unborn (h : x.Kin pc) (hc : pc c = .unborn) {a : τ} (ha : x.Named a) : a ≠ c := by
  rintro rfl
  rcases ha with ha | ⟨u, hu, rfl⟩
  · exact ne_unborn_of_existing (h.existing a ha) hc
  · exact (h.leader u (ne_unborn_of_existing (h.existing u hu))).2 hc

theorem tid_ne_of_free {n : Nat} (h : x.free n = true) {a : τ} (ha : x.Named a) : x.tid a ≠ n := by
  unfold free at h
  simp only [all_eq_true, Bool.and_eq_true, decide_eq_true_eq] at h
  rcases ha with ha | ⟨u, hu, rfl⟩
  · exact (h a ha).1
  · exact (h u hu).2

/-- Nothing refers to a task that is not yet born. -/
theorem Kin.nowhere_of_unborn (h : x.Kin pc) (hc : pc c = .unborn) :
    c ∉ x.tid2tcb ∧ (∀ q, c ∉ x.children q) ∧ (∀ u, c ∉ (pc u).orphans) ∧ ∀ u, (pc u).clonee ≠ some c := by
  have hne : c ∉ x.tasks := fun hmem => h.ne_of_unborn hc (.inl hmem) rfl
  refine ⟨fun hmem => hne (h.listed c hmem).1, fun q hq => hne (h.child q c hq).2.1, fun u hu => hne (h.orphan u c hu).1,
    fun u hu => ?_⟩
  rw [h.clonee u c hu] at hc
  cases hc

theorem Kin.ne_clonee (h : x.Kin pc) (hc : (pc t).clonee = some c) : c ≠ t := by
  rintro rfl
  have hbuilt := h.clonee c c hc
  rw [hbuilt] at hc
  cases hc

end

/-- A cloner that moves on without its child is the only one that had it. -/
theorem Kin.left_clonee (h : x.Kin pc) (hc : (pc t).clonee = some c) (hp : p.clonee = none) (u : τ) :
    (update pc t p u).clonee ≠ some c :=
  forall_update_of_ne u (by rw [hp]; nofun) fun u hut hu => hut (h.cloneOnce u t c hu hc)

/-- The child of a clone is no longer fresh. -/
theorem Kin.left_fresh (h : x.Kin pc) (hc : (pc t).clonee = some c) (hp : p.fresh = none) (u : τ) :
    (update pc t p u).fresh ≠ some c :=
  forall_update_of_ne u (by rw [hp]; nofun) fun u hut hu => hut (h.cloneOnce u t c (clonee_of_fresh hu) hc)

section Build

variable {thread : Bool} {parent : Option τ} {n : Nat} {u : τ}

theorem leader_build (h : u ≠ c) : (x.build t thread parent c n).leader u = x.leader u := update_of_ne h ..

theorem leader_build_self : (x.build t thread parent c n).leader c = if thread then x.leader t else c := update_self ..

theorem tid_build (h : u ≠ c) : (x.build t thread parent c n).tid u = x.tid u := update_of_ne h ..

theorem tid_build_self : (x.build t thread parent c n).tid c = n := update_self ..

theorem zombie_build (h : u ≠ c) : (x.build t thread parent c n).zombie u = x.zombie u := update_of_ne h ..

theorem parent_build (h : u ≠ c) : (x.build t thread parent c n).parent u = x.parent u := update_of_ne h ..

theorem children_build (h : u ≠ c) : (x.build t thread parent c n).children u = x.children u := update_of_ne h ..

theorem mem_children_build {c' : τ} (h : c' ∈ (x.build t thread parent c n).children u) : u ≠ c ∧ c' ∈ x.children u := by
  rcases update_cases (f := x.children) (rfl : (x.build t thread parent c n).children u = _) with ⟨rfl, heq⟩ | ⟨hu, heq⟩
  · rw [heq] at h
    cases h
  · exact ⟨hu, heq ▸ h⟩

end Build

/-- `do_clone` makes a new task. -/
theorem Kin.build (h : x.Kin pc) {thread : Bool} {parent : Option τ} {n : Nat} (ht : (pc t).present = true)
    (hc : pc c = .unborn) (hn : x.free n = true) : (x.build t thread parent c n).Kin (update pc c .built) := by
  have htask : t ∈ x.tasks := h.present t ht
  have hne : ∀ {u}, u ∈ x.tasks → u ≠ c := fun hu => h.ne_of_unborn hc (.inl hu)
  have hborn : ∀ {u}, update pc c .built u ≠ .unborn ↔ u = c ∨ pc u ≠ .unborn := by
    exact fun {u} => forall_update_of_ne u (by simp) fun u hu => ⟨.inr, fun hor => hor.resolve_left hu⟩
  have hnamed : ∀ {a}, (x.build t thread parent c n).Named a → a = c ∨ x.Named a := by
    rintro a (ha | ⟨u, hu, rfl⟩)
    · exact (mem_cons.1 ha).imp_right .inl
    · rcases mem_cons.1 hu with rfl | hu
      · rw [leader_build_self]
        cases thread with
        | true => exact .inr (.inr ⟨t, htask, rfl⟩)
        | false => exact .inl rfl
      · rw [leader_build (hne hu)]
        exact .inr (.inr ⟨u, hu, rfl⟩)
  have hzombie_ne : ∀ {u}, x.zombie u = true → u ≠ c := by
    rintro u hu rfl
    rw [h.zombie, hc] at hu
    cases hu
  -- places of the old tasks have nothing to do with the new one
  have hold : ∀ {β : Type} {F : ProcPc τ → β}, F .built = F .unborn → ∀ u, F (update pc c .built u) = F (pc u) :=
    fun hF => fun u => forall_update u (by rw [hF, hc]) fun _ => rfl
  have hclonee := hold (F := ProcPc.clonee) rfl
  have hfresh := hold (F := ProcPc.fresh) rfl
  have horphans := hold (F := orphans) rfl
  have hclonee_ne : ∀ {u c'}, (pc u).clonee = some c' → c' ≠ c := by
    rintro u c' hu rfl
    rw [h.clonee u c' hu] at hc
    cases hc
  constructor
  · obtain ⟨hmem, hlinit, hbuilt⟩ := h.init
    refine ⟨mem_cons_of_mem _ hmem, (leader_build (hne hmem)).trans hlinit, ?_⟩
    rwa [show update pc c .built (x.build t thread parent c n).initTask = pc x.initTask from
      update_of_ne (hne hmem) ..]
  · intro u hu
    have huc : u ≠ c := by
      rintro rfl
      rw [update_self] at hu
      cases hu
    rw [update_of_ne huc] at hu
    rw [leader_build huc]
    exact h.past u hu
  · intro u hu
    rcases mem_cons.1 hu with rfl | hu
    · rw [update_self]
      rfl
    · rw [update_of_ne (hne hu)]
      exact h.existing u hu
  · intro u hu
    by_cases huc : u = c
    · exact mem_cons.2 (.inl huc)
    · rw [update_of_ne huc] at hu
      exact mem_cons_of_mem _ (h.present u hu)
  · have hleader : ∀ {u}, pc u ≠ .unborn → x.leader u ≠ c ∧ x.leader (x.leader u) = x.leader u := by
      intro u hu
      refine ⟨?_, (h.leader u hu).1⟩
      rintro rfl
      exact (h.leader u hu).2 hc
    intro u hu
    by_cases huc : u = c
    · subst huc
      rw [leader_build_self]
      cases thread with
      | true =>
        obtain ⟨hlt, hll⟩ := hleader (ne_unborn_of_existing (h.existing t htask))
        exact ⟨(leader_build hlt).trans hll, hborn.2 (.inr (h.leader t (ne_unborn_of_existing (h.existing t htask))).2)⟩
      | false => exact ⟨leader_build_self, hborn.2 (.inl rfl)⟩
    · have hu' : pc u ≠ .unborn := (hborn.1 hu).resolve_left huc
      rw [leader_build huc]
      exact ⟨(leader_build (hleader hu').1).trans (hleader hu').2, hborn.2 (.inr (h.leader u hu').2)⟩
  · intro a b ha hb
    rcases hnamed ha with rfl | ha' <;> rcases hnamed hb with rfl | hb'
    · exact fun _ => rfl
    · rw [tid_build_self, tid_build (h.ne_of_unborn hc hb')]
      exact fun heq => absurd heq.symm (tid_ne_of_free hn hb')
    · rw [tid_build_self, tid_build (h.ne_of_unborn hc ha')]
      exact fun heq => absurd heq (tid_ne_of_free hn ha')
    · rw [tid_build (h.ne_of_unborn hc ha'), tid_build (h.ne_of_unborn hc hb')]
      exact h.names a b ha' hb'
  · intro u hu
    obtain ⟨hmem, hleft⟩ := h.listed u hu
    rw [update_of_ne (hne hmem)]
    exact ⟨mem_cons_of_mem _ hmem, hleft⟩
  · exact fun u => forall_update_of_ne u (update_self ..) fun u huc => (zombie_build huc).trans (h.zombie u)
  · intro q c' hc'
    obtain ⟨hq, hold⟩ := mem_children_build hc'
    obtain ⟨hqm, hcm, hlc, hpar⟩ := h.child q c' hold
    rw [leader_build (hne hcm), parent_build (hne hcm)]
    exact ⟨mem_cons_of_mem _ hqm, mem_cons_of_mem _ hcm, hlc, hpar⟩
  · exact fun u => forall_update (motive := fun _ (l : List τ) => l.Nodup) u nodup_nil h.nodup
  · exact fun u => forall_update u nofun h.cloning
  · intro u c' hu
    rw [hclonee] at hu
    rw [update_of_ne (hclonee_ne hu)]
    exact h.clonee u c' hu
  · intro u v c' hu hv
    rw [hclonee] at hu hv
    exact h.cloneOnce u v c' hu hv
  · intro u c' hu
    rw [hfresh] at hu
    obtain ⟨htab, hlists, horph⟩ := h.fresh u c' hu
    exact ⟨htab, fun q hq => hlists q (mem_children_build hq).2, fun v => horphans v ▸ horph v⟩
  · intro u c' hu
    rw [hold (F := ProcPc.unlinked) rfl] at hu
    have hne' := hclonee_ne (clonee_of_fresh (fresh_of_unlinked hu))
    rw [leader_build hne', parent_build hne']
    exact h.unlinked u c' hu
  · intro u c' hu
    rw [hold (F := ProcPc.found) rfl] at hu
    obtain ⟨hmem, hz⟩ := h.found u c' hu
    rw [children_build (hne (h.child u c' hmem).1), zombie_build (hzombie_ne hz)]
    exact ⟨hmem, hz⟩
  · intro u c' hu
    rw [hold (F := ProcPc.held) rfl] at hu
    obtain ⟨hmem, hz, hlc⟩ := h.held u c' hu
    rw [zombie_build (hne hmem), leader_build (hne hmem)]
    exact ⟨mem_cons_of_mem _ hmem, hz, hlc⟩
  · intro u c' hu
    rw [horphans] at hu
    obtain ⟨hmem, hlc, hapart, hadopt⟩ := h.orphan u c' hu
    rw [hold (F := ProcPc.toAdopt) rfl, leader_build (hne hmem), parent_build (hne hmem)]
    exact ⟨mem_cons_of_mem _ hmem, hlc, fun q hq => hapart q (mem_children_build hq).2, hadopt⟩
  · intro u v c' hu hv
    rw [horphans] at hu hv
    exact h.orphanOnce u v c' hu hv
  · intro u
    rw [horphans]
    exact h.orphanNodup u
  · intro u c' hu
    rw [horphans]
    rw [hold (F := ProcPc.toAdopt) rfl] at hu
    exact h.toAdopt u c' hu

end Family

namespace Processes

variable {τ : Type} [DecidableEq τ] {s s' : Processes τ} {t : τ} {p : ProcPc τ} {cmd : ProcCmd τ ⊕ SchedCmd}

omit [DecidableEq τ] in
theorem Goes.frame (hg : s.Goes t cmd p) (h : s.family.Kin s.pc) : s.family.Frame s.pc t p := by
  have hleft : t ∈ s.family.tid2tcb → (s.pc t).left = false := fun ht => (h.listed t ht).2
  have hnodup := h.orphanNodup t
  clear h
  cases hg with
  | waitFound hpc hc =>
    rw [hpc] at hleft
    obtain ⟨hmem, hz⟩ := Family.mem_of_findZombie hc
    constructor <;> simp_all
  | _ =>
    rename_i hpc
    try rw [hpc] at hleft hnodup
    constructor <;> simp_all

omit [DecidableEq τ] in
theorem Goes.exited (hg : s.Goes t cmd p) : p.exited = (s.pc t).exited := by
  cases hg <;> rename_i hpc <;> (try rw [hpc]) <;> simp_all

theorem dequeue_family (s : Processes τ) (n : Nat) : (s.dequeue n).family = s.family ∧ (s.dequeue n).pc = s.pc := by
  unfold dequeue
  split <;> exact ⟨rfl, rfl⟩

theorem facts_of_droppable (h : s.droppable t = true) (hkin : s.family.Kin s.pc) :
    s.pc t = .gone ∧ t ∉ s.family.tid2tcb ∧ (∀ q, t ∉ s.family.children q) ∧ ∀ u, t ∉ (s.pc u).holds := by
  unfold droppable at h
  simp only [Bool.and_eq_true, decide_eq_true_eq, Bool.not_eq_true', all_eq_true, contains_eq_mem,
    decide_eq_false_iff_not] at h
  obtain ⟨⟨hpc, htable⟩, hall⟩ := h
  refine ⟨hpc, htable, fun q hq => ?_, fun u hu => ?_⟩
  · exact (hall q (hkin.child q t hq).1).1 hq
  · exact (hall u (hkin.present u (present_of_holds hu))).2 hu

variable {c : τ} {thread : Bool} (h : s.family.Kin s.pc)

include h

theorem kin_build {parent : Option τ} {n : Nat} (hpc : s.pc t = .cloneBuild thread parent)
    (hc : s.pc c = .unborn) (hn : s.family.free n = true) : (s.family.build t thread parent c n).Kin
      (update (update s.pc c .built) t (.cloneWrite thread c)) := by
  have hct : c ≠ t := by
    rintro rfl
    cases hpc.symm.trans hc
  have hpc' : update s.pc c .built t = .cloneBuild thread parent := (update_of_ne hct.symm ..).trans hpc
  have hbuilt : (s.family.build t thread parent c n).Kin (update s.pc c .built) :=
    h.build (by rw [hpc]; rfl) hc hn
  obtain ⟨htable, hlists, horph, hclonee⟩ := h.nowhere_of_unborn hc
  have hclonee' : ∀ u, (update s.pc c .built u).clonee ≠ some c :=
    fun u => forall_update u (by simp) hclonee
  have horph' : ∀ u, c ∉ (update s.pc c .built u).orphans :=
    fun u => forall_update u (by simp) horph
  have hlists' : ∀ q, c ∉ (s.family.build t thread parent c n).children q :=
    fun u => forall_update (motive := fun _ (l : List τ) => c ∉ l) u (by simp) hlists
  have hlead : (s.family.build t thread parent c n).leader c = if thread then s.family.leader t else c :=
    update_self ..
  have hparent : (s.family.build t thread parent c n).parent c = parent := update_self ..
  refine hbuilt.goto ?_ (by rw [hpc']; rfl)
  constructor
  case clonee =>
    intro c' hc'
    obtain rfl : c = c' := Option.some.inj hc'
    exact .inr ⟨update_self .., hct, hclonee'⟩
  case fresh =>
    intro c' hc'
    obtain rfl : c = c' := Option.some.inj hc'
    exact .inr ⟨htable, hlists', horph', rfl⟩
  case unlinked =>
    intro c' hc'
    cases thread with
    | true => cases hc'
    | false =>
      obtain rfl : c = c' := Option.some.inj hc'
      exact .inr ⟨hlead, hparent.trans (h.cloning t parent hpc)⟩
  all_goals simp [hpc']

theorem kin_discard (hpc : s.pc t = .cloneWrite thread c) :
    (s.family.drop c).Kin (update (update s.pc c .discarded) t .user) := by
  have hclonee : (s.pc t).clonee = some c := by rw [hpc]; rfl
  have hct := h.ne_clonee hclonee
  have hbuilt := h.clonee t c hclonee
  obtain ⟨htable, hlists, horph⟩ := h.fresh t c (by rw [hpc]; rfl)
  have huser : s.family.Kin (update s.pc t .user) := h.toUser (by simp [hpc]) (by simp [hpc]) (by simp [hpc])
  have hpcc : update s.pc t .user c = .built := (update_of_ne hct ..).trans hbuilt
  rw [update_comm hct]
  refine huser.drop ?_ (.inr rfl) (by rw [hpcc]; rfl) (by rw [hpcc]; rfl) (by simp [hpcc]) htable hlists
    (h.left_clonee hclonee rfl) (fun u hu => ?_) (fun u => forall_update u (by simp) horph)
  · rintro rfl
    exact h.init.2.2 hbuilt
  · have hz := (huser.held u c hu).2.1
    rw [h.zombie, hbuilt] at hz
    cases hz

theorem kin_link (hpc : s.pc t = .cloneLink c) :
    (s.family.extendChildren t [c]).Kin (update s.pc t (.cloneInsert c)) := by
  have hclonee : (s.pc t).clonee = some c := by rw [hpc]; rfl
  have hbuilt := h.clonee t c hclonee
  obtain ⟨-, hlists, horph⟩ := h.fresh t c (by rw [hpc]; rfl)
  obtain ⟨hlead, hparent⟩ := h.unlinked t c (by rw [hpc]; rfl)
  have hnext : s.family.Kin (update s.pc t (.cloneInsert c)) := by
    refine h.goto ?_ (by rw [hpc]; rfl)
    constructor <;> simp [hpc]
  refine hnext.append (h.present t (by rw [hpc]; rfl)) (fun c' hc' => ?_) (nodup_singleton c)
  obtain rfl := mem_singleton.1 hc'
  exact ⟨⟨⟨h.present c' (by rw [hbuilt]; rfl), hlead⟩, hlists,
    fun u => forall_update u (by simp) horph, h.left_fresh hclonee rfl⟩, hparent⟩

theorem kin_insert (hpc : s.pc t = .cloneInsert c) :
    Family.Kin { s.family with tid2tcb := s.family.tid2tcb ++ [c] } (update s.pc t (.cloneEnqueue c)) := by
  have hclonee : (s.pc t).clonee = some c := by rw [hpc]; rfl
  refine (h.move (p := .cloneEnqueue c) hpc rfl rfl rfl).insert ?_ (h.left_fresh hclonee rfl)
  exact (update_of_ne (h.ne_clonee hclonee) ..).trans (h.clonee t c hclonee)

theorem kin_start (hpc : s.pc t = .cloneEnqueue c) : s.family.Kin (update (update s.pc c .user) t .user) := by
  have hclonee : (s.pc t).clonee = some c := by rw [hpc]; rfl
  have hct := h.ne_clonee hclonee
  have huser : s.family.Kin (update s.pc t .user) := h.toUser (by simp [hpc]) (by simp [hpc]) (by simp [hpc])
  have hpcc : update s.pc t .user c = .built := (update_of_ne hct ..).trans (h.clonee t c hclonee)
  rw [update_comm hct]
  exact huser.toUser (by rw [hpcc]; rfl) (by rw [hpcc]; rfl) fun _ => h.left_clonee hclonee rfl

theorem kin_reap {call : WaitCall} (hpc : s.pc t = .waitScan call)
    (hc : s.family.findZombie t call.filter = some c) : (s.family.reap t c).Kin (update s.pc t (.wait4Write c)) := by
  obtain ⟨hmem, hz⟩ := Family.mem_of_findZombie hc
  obtain ⟨-, htask, hlead, -⟩ := h.child t c hmem
  refine Family.Kin.reap (h.goto ?_ (by rw [hpc]; rfl)) (by rw [update_self]; rfl)
  constructor
  case held =>
    intro c' hc'
    obtain rfl : c = c' := Option.some.inj hc'
    exact .inr ⟨htask, hz, hlead⟩
  all_goals simp [hpc]

theorem kin_reapId {n : Nat} {c' : τ} (hpc : s.pc t = .waitidRemove c) :
    (s.family.reap t c').Kin (update s.pc t (.removeSnapshot n none)) := by
  refine Family.Kin.reap (h.goto ?_ (by rw [hpc]; rfl)) (by rw [update_self]; rfl)
  constructor <;> simp [hpc]

theorem kin_leave (hpc : s.pc t = .exitTable) :
    (s.family.removeFromTid2task (s.family.tid t)).Kin (update s.pc t .exitZombie) := by
  have hgone : t ∉ (s.family.removeFromTid2task (s.family.tid t)).tid2tcb := by
    simp [Family.removeFromTid2task]
  refine (h.removeFromTid2task _).goto ?_ (by rw [hpc]; rfl)
  constructor <;> simp [hpc, hgone]

theorem kin_zombify (hpc : s.pc t = .exitZombie)
    (hp : p = .exitCheck ∧ s.family.leader t ≠ s.family.initTask ∨ p = .panicked) :
    (s.family.zombify t).Kin (update s.pc t p) := by
  have hgone : t ∉ s.family.tid2tcb := h.not_listed (by rw [hpc]; rfl)
  rcases hp with ⟨rfl, hother⟩ | rfl
  · refine h.zombify ?_ rfl
    constructor <;> simp [hpc, hgone, hother]
  · refine h.zombify ?_ rfl
    constructor <;> simp [hpc, hgone]

theorem kin_take (hpc : s.pc t = .exitTake) : (s.take t).family.Kin (s.take t).pc :=
  h.take hpc

theorem kin_adopt {rest os : List τ} (hpc : s.pc t = .exitAdopt (c :: rest) os) :
    (s.family.adopt c).Kin (update s.pc t (.exitAdopt rest os)) := by
  have hsub := h.toAdopt t
  have hnodup := h.orphanNodup t
  have hgone : t ∉ s.family.tid2tcb := h.not_listed (by rw [hpc]; rfl)
  rw [hpc] at hsub hnodup
  have hc : c ∈ (s.pc t).orphans := by
    rw [hpc]
    exact hsub c mem_cons_self
  refine (h.adopt hc).goto ?_ (by rw [hpc]; rfl)
  constructor
  case orphans =>
    intro c' hc'
    rw [hpc]
    exact .inl hc'
  case nodup => exact hnodup
  case adopted =>
    intro c' _ hnot
    by_cases hcc : c' = c
    · subst hcc
      exact .inr (update_self ..)
    · refine .inl ?_
      rw [hpc]
      exact fun hmem => (mem_cons.1 hmem).elim hcc hnot
  case toAdopt => exact fun c' hc' => hsub c' (mem_cons_of_mem _ hc')
  case left => exact fun ht => absurd ht hgone
  all_goals simp [hpc]

theorem kin_extend {os : List τ} (hpc : s.pc t = .exitExtend os) :
    (s.family.extendChildren s.family.initTask os).Kin (update s.pc t .gone) := by
  have hgone : t ∉ s.family.tid2tcb := h.not_listed (by rw [hpc]; rfl)
  have hmem : ∀ {c}, c ∈ os → c ∈ (s.pc t).orphans := by
    intro c hc
    rw [hpc]
    exact hc
  have hnext : s.family.Kin (update s.pc t .gone) := by
    refine h.goto ?_ (by rw [hpc]; rfl)
    constructor <;> simp [hpc, hgone]
  have hnodup := h.orphanNodup t
  rw [hpc] at hnodup
  refine hnext.append h.init.1 (fun c hc => ?_) hnodup
  obtain ⟨htask, hlead, hlists, hadopt⟩ := h.orphan t c (hmem hc)
  refine ⟨⟨⟨htask, hlead⟩, hlists, fun u => ?_, fun u => ?_⟩, hadopt (by simp [hpc])⟩
  · exact forall_update_of_ne u (by simp) fun u hut hu => hut (h.orphanOnce u t c hu (hmem hc))
  · exact forall_update u (by simp) fun u hu => (h.fresh u c hu).2.2 t (hmem hc)

theorem kin_drop (hd : s.droppable t = true) : (s.family.drop t).Kin s.pc := by
  obtain ⟨hpc, htable, hlists, hholds⟩ := facts_of_droppable hd h
  have hinit : t ≠ s.family.initTask := by
    rintro heq
    exact h.past t (by rw [hpc]; rfl) (heq ▸ h.init.2.1)
  have hdrop := h.drop (p := .gone) hinit (.inl rfl) (by rw [hpc]) (by rw [hpc]) (by simp [hpc]) htable hlists
    (fun u hu => hholds u (holds_of_clonee hu)) (fun u hu => hholds u (holds_of_held hu))
    fun u hu => hholds u (holds_of_orphans hu)
  rwa [← hpc, update_eq_self] at hdrop

theorem kin_step (hm : s.Move t cmd s') : s'.family.Kin s'.pc := by
  cases hm with
  | go hg => exact h.goto (hg.frame h) hg.exited
  | build _ hpc hc hn => exact kin_build h hpc hc hn
  | discard hpc => exact kin_discard h hpc
  | link hpc => exact kin_link h hpc
  | insert hpc => exact kin_insert h hpc
  | start hpc => exact kin_start h hpc
  | reap hpc hc => exact kin_reap h hpc hc
  | reapId hpc hc => exact kin_reapId h hpc
  | lock hpc _ | unlock hpc | sleep hpc | drain hpc _ | wake hpc => exact h.move hpc rfl rfl rfl
  | removeTid hpc => exact (h.removeFromTid2task _).move hpc rfl rfl rfl
  | @dequeue m rest c hpc =>
    obtain ⟨hfamily, hpcs⟩ := s.dequeue_family m
    show (s.dequeue m).family.Kin (update (s.dequeue m).pc t _)
    rw [hfamily, hpcs]
    exact h.move hpc rfl rfl rfl
  | leave hpc => exact kin_leave h hpc
  | zombify _ hpc hother => exact kin_zombify h hpc (.inl ⟨rfl, hother⟩)
  | panic _ hpc _ => exact kin_zombify h hpc (.inr rfl)
  | take _ hpc => exact kin_take h hpc
  | adopt hpc => exact kin_adopt h hpc
  | extend _ hpc => exact kin_extend h hpc
  | sched _ => exact h
  | drop hd => exact kin_drop h hd

omit h

theorem kin_boot (initTask : τ) (pgid : τ → Nat) : (boot initTask pgid).family.Kin (boot initTask pgid).pc := by
  have hcase : ∀ u, (boot initTask pgid).pc u = if u = initTask then .user else .unborn := fun _ => rfl
  constructor
  case names =>
    intro a b ha hb _
    have hinit : ∀ a, (boot initTask pgid).family.Named a → a = initTask := by
      rintro a (ha | ⟨u, hu, rfl⟩)
      · exact mem_singleton.1 ha
      · exact mem_singleton.1 hu
    rw [hinit a ha, hinit b hb]
  case child =>
    intro q c hc
    cases hc
  case nodup => exact fun _ => nodup_nil
  all_goals
    simp only [hcase]
    intros
    split_ifs at * <;> simp_all [boot]

theorem kin_of_reachable {initTask : τ} {pgid : τ → Nat} (h : Relation.ReflTransGen Step (boot initTask pgid) s) :
    s.family.Kin s.pc := by
  refine inv_of_reachable (I := fun s => s.family.Kin s.pc) (kin_boot initTask pgid) (fun s s' hs hstep => ?_) h
  obtain ⟨t, cmd, hstep⟩ := hstep
  exact kin_step hs (move_of_step hstep)

/-- In every interleaving a child hangs in one list, once, and its parent pointer names the task whose list that is. What
`wait4` or `waitid` has found is a zombie of the caller's own list, and what an exit is giving away hangs in no list. -/
theorem children_apart {initTask : τ} {pgid : τ → Nat} (h : Relation.ReflTransGen Step (boot initTask pgid) s) :
    (∀ p q c, c ∈ s.family.children p → c ∈ s.family.children q → p = q) ∧
      (∀ p, (s.family.children p).Nodup ∧ ∀ c ∈ s.family.children p, s.family.parent c = some p) ∧
      (∀ t c, (s.pc t).found = some c → c ∈ s.family.children t ∧ s.family.zombie c = true) ∧
      (∀ t c, (s.pc t).held = some c → s.family.zombie c = true ∧ s.family.leader c = c) ∧
      ∀ t, ∀ c ∈ (s.pc t).orphans, ∀ p, c ∉ s.family.children p := by
  have hk := kin_of_reachable h
  have hparent : ∀ p, ∀ c ∈ s.family.children p, s.family.parent c = some p := fun p c hc => (hk.child p c hc).2.2.2
  refine ⟨fun p q c hp hq => ?_, fun p => ⟨hk.nodup p, hparent p⟩, hk.found, fun t c hc => (hk.held t c hc).2,
    fun t c hc => (hk.orphan t c hc).2.2.1⟩
  exact Option.some.inj ((hparent p c hp).symm.trans (hparent q c hq))

/-- The first process has found `z` with `waitid` while the exit of `p` hands its child `c` over. -/
def handOver (i p c z : τ) : List (τ × (ProcCmd τ ⊕ SchedCmd)) :=
  fork i p 2 ++ fork i z 3 ++ [(z, .inl .exit)] ++ nexts z 7 ++ fork p c 4 ++ [(i, .inl (.waitid 0 0 false false))] ++
    nexts i 1 ++ [(p, .inl .exit)] ++ nexts p 6

theorem children_apart_handOver : ∃ s : Processes (Fin 4), (s.pc 0).found = some 3 ∧ (s.pc 1).orphans = [2] ∧
    (3 ∈ s.family.children 0 ∧ s.family.zombie 3 = true) ∧ ∀ p, 2 ∉ s.family.children p := by
  obtain ⟨s, hsteps, hfound, horphans⟩ : ∃ s, Relation.ReflTransGen Step (boot (0 : Fin 4) fun _ => 0) s ∧
      (s.pc 0).found = some 3 ∧ (s.pc 1).orphans = [2] := exists_steps_of_any (handOver 0 1 2 3) (by decide +kernel)
  obtain ⟨-, -, hzombie, -, hapart⟩ := children_apart hsteps
  exact ⟨s, hfound, horphans, hzombie 0 3 hfound, hapart 1 2 (by rw [horphans]; exact List.mem_singleton_self 2)⟩

end Processes

end ShellCore.Task
