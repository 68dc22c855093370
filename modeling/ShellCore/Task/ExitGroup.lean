import ShellCore.Task.Threads

/-!
# Exit of a thread group

Once `exit_group` has been through its snapshot every other thread of the process is marked and awake, unless a thread came
into the table after the snapshot, or a marked thread went to sleep without a look at the signal.
-/

namespace ShellCore.Task

open Relation

open Sched (Sleep)

namespace Threads

variable {τ : Type}

section

variable (s : Threads τ)

/-- Thread `u` is still to be marked, or is marked and awake, or about to be woken up, by thread `a`. -/
def HandledBy (a : τ) (rest : List τ) (u : τ) : Prop :=
  u ∈ rest ∨ s.Marked u ∧ (¬s.Stuck u ∨ (s.pc a).waking = some u)

def Handled : Prop :=
  ∀ a rest, (s.pc a).snapshot = some rest → ∀ u ∈ s.tid2tcb, (s.inner u).tgid = (s.inner a).tgid → u ≠ a → s.HandledBy a rest u

end

variable [DecidableEq τ] {s s' : Threads τ} {t : τ} {p : ThreadPc τ} {cmd : ThreadCmd τ} (h : s.Handled) (hw : s.WellFormed)

include h hw

/-- A step of thread `t`. Nobody who is marked falls asleep, nobody new comes into the table of a process that exits, and
`t` itself is in order. -/
theorem Handled.of_step (hpc : ∀ a, a ≠ t → s'.pc a = s.pc a ∨ (s'.pc a).snapshot = none)
    (hinner : ∀ u, s.pc u ≠ .unborn → (s'.inner u).tgid = (s.inner u).tgid ∧
      (s.Marked u → s'.Marked u ∧ (s'.Stuck u → s.Stuck u)))
    (htable : ∀ u ∈ s'.tid2tcb, u ∈ s.tid2tcb ∨ ∀ a rest, (s'.pc a).snapshot = some rest → (s'.inner u).tgid ≠ (s'.inner a).tgid)
    (hself : ∀ rest, (s'.pc t).snapshot = some rest → ∀ u ∈ s'.tid2tcb, (s'.inner u).tgid = (s'.inner t).tgid → u ≠ t →
      s'.HandledBy t rest u) : s'.Handled := by
  intro a rest ha u hu htgid hne
  by_cases hat : a = t
  · subst hat
    exact hself rest ha u hu htgid hne
  · have hpca : s'.pc a = s.pc a := (hpc a hat).resolve_right (by simp [ha])
    have ha' := ha
    rw [hpca] at ha'
    have hborn : s.pc a ≠ .unborn := by
      intro hb
      rw [hb] at ha'
      cases ha'
    rcases htable u hu with hold | hnew
    · have hbornu := hw.born u hold
      rw [(hinner u hbornu).1, (hinner a hborn).1] at htgid
      rcases h a rest ha' u hold htgid hne with hr | ⟨hm, hs⟩
      · exact .inl hr
      · obtain ⟨hm', hs'⟩ := (hinner u hbornu).2 hm
        refine .inr ⟨hm', ?_⟩
        rw [hpca]
        exact hs.imp_left fun hs hst => hs (hs' hst)
    · exact absurd htgid (hnew a rest ha)

/-- A thread goes on, outside `exit_group`. -/
theorem Handled.goto (hp : p.snapshot = none) : (s.goto t p).Handled := by
  refine h.of_step (t := t) hw (fun a ha => .inl (goto_pc_of_ne ha)) (fun u _ => ⟨rfl, fun hm => ⟨hm, id⟩⟩)
    (fun u hu => .inl hu) ?_
  intro rest hr
  rw [goto_pc_self, hp] at hr
  cases hr

omit hw in
/-- A task's fields change. -/
theorem Handled.setInner {u : τ} {inner : ThreadInner τ} (htgid : inner.tgid = (s.inner u).tgid)
    (hm : s.Marked u → inner.termSignal.isSome = true ∧ (inner.sleep.waits = true → s.Stuck u)) : (s.setInner u inner).Handled := by
  have hinner : ∀ v, ((s.setInner u inner).inner v).tgid = (s.inner v).tgid ∧
      (s.Marked v → (s.setInner u inner).Marked v ∧ ((s.setInner u inner).Stuck v → s.Stuck v)) := by
    intro v
    by_cases hv : v = u
    · subst hv
      simp only [Marked, Stuck, setInner_inner_self]
      exact ⟨htgid, hm⟩
    · simp only [Marked, Stuck, setInner_inner_of_ne _ hv]
      exact ⟨trivial, fun hm => ⟨hm, id⟩⟩
  intro a rest ha v hv htg hne
  rw [(hinner v).1, (hinner a).1] at htg
  rcases h a rest ha v hv htg hne with hr | ⟨hmv, hs⟩
  · exact .inl hr
  · obtain ⟨hm', hs'⟩ := (hinner v).2 hmv
    exact .inr ⟨hm', hs.imp_left fun hs hst => hs (hs' hst)⟩

omit hw in
/-- A wake-up, or a sleep that goes on. -/
theorem Handled.setSleep {u : τ} {sleep : Sleep}
    (hs : sleep.waits = true → s.Stuck u) : (s.setSleep u sleep).Handled :=
  h.setInner rfl fun hm => ⟨hm, hs⟩

/-- `exit_group` goes on. -/
theorem Handled.advance {rest : List τ} (rest' : List τ) (ht : (s.pc t).snapshot = some rest) (hpc : ∀ a, a ≠ t → s'.pc a = s.pc a)
    (hinner : ∀ u, (s'.inner u).tgid = (s.inner u).tgid ∧ (s.Marked u → s'.Marked u ∧ (s'.Stuck u → s.Stuck u)))
    (htable : ∀ u ∈ s'.tid2tcb, u ∈ s.tid2tcb)
    (ht' : (s'.pc t).snapshot = some rest') (hself : ∀ u, u ≠ t → s.HandledBy t rest u → s'.HandledBy t rest' u) :
    s'.Handled := by
  refine h.of_step (t := t) hw (fun a ha => .inl (hpc a ha)) (fun u _ => hinner u) (fun u hu => .inl (htable u hu)) ?_
  intro r hr u hu htgid hne
  obtain rfl := Option.some.inj (ht'.symm.trans hr)
  rw [(hinner u).1, (hinner t).1] at htgid
  exact hself u hne (h t rest ht u (htable u hu) htgid hne)

omit hw h [DecidableEq τ] in
theorem handledBy_of_not_waking {rest : List τ} {u : τ} (h : s.HandledBy t rest u) (hp : (s.pc t).waking = none) :
    u ∈ rest ∨ s.Marked u ∧ ¬s.Stuck u := by
  refine h.imp_right fun ⟨hm, hs⟩ => ⟨hm, hs.resolve_right ?_⟩
  rw [hp]
  simp

theorem Handled.groupEnd (hpc : s.pc t = .groupMark []) : (s.goto t (.exiting true)).Handled := by
  refine h.advance hw [] (by rw [hpc]; rfl) (fun a ha => goto_pc_of_ne ha) (fun u => ⟨rfl, fun hm => ⟨hm, id⟩⟩)
    (fun u hu => hu) (by rw [goto_pc_self]; rfl) fun u _ hu => ?_
  exact (handledBy_of_not_waking hu (by rw [hpc]; rfl)).imp_right fun ⟨hm, hs⟩ => ⟨hm, .inl hs⟩

theorem Handled.groupSkip {rest : List τ} (hpc : s.pc t = .groupMark (t :: rest)) :
    (s.goto t (.groupMark rest)).Handled := by
  refine h.advance hw rest (by rw [hpc]; rfl) (fun a ha => goto_pc_of_ne ha) (fun u => ⟨rfl, fun hm => ⟨hm, id⟩⟩)
    (fun u hu => hu) (by rw [goto_pc_self]; rfl) fun u hne hu => ?_
  rcases handledBy_of_not_waking hu (by rw [hpc]; rfl) with hmem | ⟨hm, hs⟩
  · exact .inl ((List.mem_cons.1 hmem).resolve_left hne)
  · exact .inr ⟨hm, .inl hs⟩

omit hw h in
theorem mark_inner (u v : τ) : ((s.mark u).inner v).tgid = (s.inner v).tgid ∧ ((s.mark u).inner v).sleep = (s.inner v).sleep ∧
    (v = u ∨ s.Marked v → (s.mark u).Marked v) := by
  by_cases hv : v = u
  · subst hv
    simp [mark, Marked]
  · simp [mark, Marked, setInner_inner_of_ne _ hv, hv]

theorem Handled.groupMark {u : τ} {rest : List τ} (hpc : s.pc t = .groupMark (u :: rest)) :
    ((s.mark u).goto t (.groupWake u rest)).Handled := by
  have hstuck : ∀ v, ((s.mark u).goto t (.groupWake u rest)).Stuck v → s.Stuck v := by
    intro v hv
    rw [Stuck, goto_inner, (mark_inner u v).2.1] at hv
    exact hv
  refine h.advance hw rest (by rw [hpc]; rfl) (fun a ha => goto_pc_of_ne ha)
    (fun v => ⟨(mark_inner u v).1, fun hm => ⟨(mark_inner u v).2.2 (.inr hm), hstuck v⟩⟩) (fun v hv => hv)
    (by rw [goto_pc_self]; rfl) fun v _ hv => ?_
  rcases handledBy_of_not_waking hv (by rw [hpc]; rfl) with hmem | ⟨hm, hs⟩
  · rcases List.mem_cons.1 hmem with rfl | hmem
    · exact .inr ⟨(mark_inner v v).2.2 (.inl rfl), .inr (by rw [goto_pc_self]; rfl)⟩
    · exact .inl hmem
  · exact .inr ⟨(mark_inner u v).2.2 (.inr hm), .inl fun hst => hs (hstuck v hst)⟩

theorem Handled.groupWake {u : τ} {rest : List τ} (hpc : s.pc t = .groupWake u rest) :
    ((s.setSleep u (s.inner u).sleep.wake).goto t (.groupMark rest)).Handled := by
  have hinner : ∀ v, ((s.setSleep u (s.inner u).sleep.wake).inner v).tgid = (s.inner v).tgid ∧
      ((s.setSleep u (s.inner u).sleep.wake).Marked v ↔ s.Marked v) ∧
      ((s.setSleep u (s.inner u).sleep.wake).Stuck v → v ≠ u ∧ s.Stuck v) := by
    intro v
    by_cases hv : v = u
    · subst hv
      simp [Threads.setSleep, Marked, Stuck]
    · simp [Threads.setSleep, Marked, Stuck, setInner_inner_of_ne _ hv, hv]
  refine h.advance hw rest (by rw [hpc]; rfl) (fun a ha => goto_pc_of_ne ha)
    (fun v => ⟨(hinner v).1, fun hm => ⟨(hinner v).2.1.2 hm, fun hst => ((hinner v).2.2 hst).2⟩⟩) (fun v hv => hv)
    (by rw [goto_pc_self]; rfl) fun v _ hv => ?_
  refine hv.imp_right fun hmarked => ⟨(hinner v).2.1.2 hmarked.1, .inl fun hst => ?_⟩
  have hold := (hinner v).2.2 hst
  rcases hmarked.2 with hs | hs
  · exact hs hold.2
  · rw [hpc] at hs
    exact hold.1 (Option.some.inj hs).symm

/-- The last steps of an exit. -/
theorem Handled.leave {q : ThreadPc τ}
    (hp : ∀ rest, q.snapshot = some rest → (s.pc t).snapshot = some rest ∧ (s.pc t).waking = none)
    (hpc : ∀ a, a ≠ t → s'.pc a = s.pc a) (hq : s'.pc t = q)
    (hinner : ∀ u, (s'.inner u).tgid = (s.inner u).tgid ∧ (s'.Marked u ↔ s.Marked u) ∧ (s'.Stuck u ↔ s.Stuck u))
    (htable : ∀ u ∈ s'.tid2tcb, u ∈ s.tid2tcb) : s'.Handled := by
  refine h.of_step (t := t) hw (fun a ha => .inl (hpc a ha))
    (fun u _ => ⟨(hinner u).1, fun hm => ⟨(hinner u).2.1.2 hm, (hinner u).2.2.1⟩⟩) (fun u hu => .inl (htable u hu)) ?_
  intro rest hr u hu htgid hne
  rw [hq] at hr
  obtain ⟨hr', hwaking⟩ := hp rest hr
  rw [(hinner u).1, (hinner t).1] at htgid
  refine (handledBy_of_not_waking (h t rest hr' u (htable u hu) htgid hne) hwaking).imp_right fun ⟨hm, hs⟩ => ?_
  exact ⟨(hinner u).2.1.2 hm, .inl fun hst => hs ((hinner u).2.2.1 hst)⟩

/-- No thread is put into the table of a process whose `exit_group` has taken its snapshot, and no marked thread goes to
sleep without a look at `SIGKILL` under its lock. -/
def Orderly (s : Threads τ) (t : τ) : ThreadCmd τ → Prop
  | .next =>
    ∀ thread c, s.pc t = .cloneInsert thread c → ∀ a, (s.pc a).snapshot ≠ none → (s.inner c).tgid ≠ (s.inner a).tgid
  | .block => ¬s.Marked t
  | _ => True

theorem Handled.insert {thread : Bool} {c : τ}
    (ho : ∀ a, (s.pc a).snapshot ≠ none → (s.inner c).tgid ≠ (s.inner a).tgid) :
    ({ s with tid2tcb := s.tid2tcb ++ [c] }.goto t (.cloneEnqueue thread c)).Handled := by
  refine h.of_step (t := t) hw (fun a ha => .inl (goto_pc_of_ne ha)) (fun u _ => ⟨rfl, fun hm => ⟨hm, id⟩⟩) ?_ ?_
  · intro u hu
    rcases List.mem_append.1 hu with hu | hu
    · exact .inl hu
    · obtain rfl := List.mem_singleton.1 hu
      refine .inr fun a => forall_goto a nofun fun a rest ha => ho a ?_
      simp only at ha
      simp [ha]
  · intro rest hr
    rw [goto_pc_self] at hr
    cases hr

theorem Handled.build {thread : Bool} {c : τ} (hc : s.pc c = .unborn) : (s.build t thread c).Handled := by
  refine h.of_step (t := t) hw (fun a ha => ?_) (fun u hu => ?_) (fun u hu => .inl hu) ?_
  · by_cases hac : a = c
    · subst hac
      right
      rw [Threads.build, goto_pc_of_ne ha, goto_pc_self]
      rfl
    · left
      rw [Threads.build, goto_pc_of_ne ha, goto_pc_of_ne hac]
      rfl
  · have huc : u ≠ c := by
      rintro rfl
      exact hu hc
    have hinner : (s.build t thread c).inner u = s.inner u := setInner_inner_of_ne _ huc
    simp only [Marked, Stuck, hinner]
    exact ⟨trivial, fun hm => ⟨hm, id⟩⟩
  · intro rest hr
    rw [Threads.build, goto_pc_self] at hr
    cases hr

theorem Handled.enqueue {c : τ} (hp : p.snapshot = none) : ((s.goto c .asleep).goto t p).Handled := by
  refine h.of_step (t := t) hw (fun a ha => ?_) (fun u _ => ⟨rfl, fun hm => ⟨hm, id⟩⟩) (fun u hu => .inl hu) ?_
  · by_cases hac : a = c
    · subst hac
      right
      rw [goto_pc_of_ne ha, goto_pc_self]
      rfl
    · left
      rw [goto_pc_of_ne ha, goto_pc_of_ne hac]
  · intro rest hr
    rw [goto_pc_self, hp] at hr
    cases hr

/-- An unmarked thread goes to sleep. -/
theorem Handled.blockSaving (hm : ¬s.Marked t) : (s.blockSaving t).Handled := by
  have hs : (s.setSleep t (.saving false)).Handled := h.setInner rfl fun hm' => absurd hm' hm
  exact hs.goto (hw.setSleep t _) rfl

theorem Handled.next (ho : s.Orderly t .next) (hstep : s.next t = some s') : s'.Handled := by
  unfold Threads.next at hstep
  simp only at hstep
  cases hpc : s.pc t <;> simp only [hpc] at hstep
  case unborn | built | kernel | cloneBuild | gone => cases hstep
  case asleep =>
    split at hstep
    case h_1 pending hsl =>
      cases hstep
      refine h.setSleep fun hst => ?_
      rw [Sleep.waits_commit] at hst
      rw [Stuck, hsl]
      exact hst
    case h_2 =>
      cases hstep
      exact (h.setSleep (by simp [Sleep.waits])).goto (hw.setSleep t _) rfl
    case h_3 => cases hstep
  case cloneCheck =>
    cases hstep
    refine h.goto hw ?_
    split <;> rfl
  case cloneLock =>
    split at hstep
    · cases hstep
      exact h.goto hw rfl
    · cases hstep
      exact Handled.goto (s := s.setLock _ true) h (hw.setLock _ true) rfl
  case cloneInsert thread c =>
    cases hstep
    exact h.insert hw (ho thread c hpc)
  case cloneEnqueue thread c =>
    cases hstep
    refine h.enqueue hw ?_
    split <;> rfl
  case cloneUnlock =>
    cases hstep
    exact Handled.goto (s := s.setLock _ false) h (hw.setLock _ false) rfl
  case groupMark rest =>
    cases rest with
    | nil =>
      cases hstep
      exact h.groupEnd hw hpc
    | cons u rest =>
      simp only at hstep
      split at hstep
      case isTrue hut =>
        cases hstep
        rw [hut] at hpc
        exact h.groupSkip hw hpc
      case isFalse =>
        cases hstep
        exact h.groupMark hw hpc
  case groupWake u rest =>
    cases hstep
    exact h.groupWake hw hpc
  case returning =>
    cases hstep
    refine h.goto hw ?_
    split <;> rfl
  case exiting group =>
    cases hstep
    refine h.leave hw (q := .zombifying group) (fun rest hr => ?_) (fun a ha => goto_pc_of_ne ha) goto_pc_self
      (fun u => ⟨rfl, Iff.rfl, Iff.rfl⟩) (fun u hu => (List.mem_filter.1 hu).1)
    rw [hpc]
    cases group with
    | true => exact ⟨hr, rfl⟩
    | false => cases hr
  case zombifying group =>
    cases hstep
    refine h.leave hw (q := .gone group) (fun rest hr => ?_) (fun a ha => goto_pc_of_ne ha) goto_pc_self (fun u => ?_)
      (fun u hu => hu)
    · rw [hpc]
      cases group with
      | true => exact ⟨hr, rfl⟩
      | false => cases hr
    · by_cases hu : u = t
      · subst hu
        simp [zombify, Marked, Stuck]
      · simp [zombify, Marked, Stuck, setInner_inner_of_ne _ hu]

theorem Handled.step (ho : s.Orderly t cmd) (hstep : s.step t cmd = some s') : s'.Handled := by
  cases cmd with
  | clone thread =>
    obtain ⟨-, rfl⟩ := of_guard hstep
    refine h.goto hw ?_
    split <;> rfl
  | build c =>
    simp only [Threads.step] at hstep
    split at hstep
    case h_1 =>
      obtain ⟨hc, rfl⟩ := of_guard hstep
      exact h.build hw hc
    case h_2 => cases hstep
  | fail =>
    simp only [Threads.step] at hstep
    split at hstep
    case h_1 thread hpc =>
      cases hstep
      refine h.goto hw ?_
      split <;> rfl
    case h_2 => cases hstep
  | exit =>
    obtain ⟨-, rfl⟩ := of_guard hstep
    exact h.goto hw rfl
  | exitGroup =>
    obtain ⟨-, rfl⟩ := of_guard hstep
    refine h.of_step (t := t) hw (fun a ha => .inl (goto_pc_of_ne ha)) (fun u _ => ⟨rfl, fun hm => ⟨hm, id⟩⟩)
      (fun u hu => .inl hu) ?_
    intro rest hr u hu htgid _
    rw [goto_pc_self] at hr
    cases hr
    exact .inl (List.mem_filter.2 ⟨hu, decide_eq_true htgid⟩)
  | block =>
    obtain ⟨-, rfl⟩ := of_guard hstep
    exact h.blockSaving hw ho
  | suspend other =>
    obtain ⟨hk, hstep⟩ := Option.ite_none_right_eq_some.1 hstep
    split at hstep
    case isTrue =>
      cases hstep
      exact h
    case isFalse hno =>
      cases hstep
      -- a marked thread that is in a system call has the signal pending
      refine h.blockSaving hw fun hm => ?_
      rcases hw.kill t hm with hsig | hl
      · exact hno (by simp [hsig])
      · rw [pc_of_isKernel hk] at hl
        cases hl
  | sigtimedwait =>
    obtain ⟨hk, rfl⟩ := of_guard hstep
    exact (h.goto (t := t) (p := .returning) hw rfl).setInner rfl fun hm => ⟨hm, id⟩
  | trapReturn other =>
    obtain ⟨hk, hstep⟩ := Option.ite_none_right_eq_some.1 hstep
    split at hstep
    · cases hstep
      exact (h.goto (t := t) (p := .returning) hw rfl).setInner rfl fun _ => ⟨rfl, id⟩
    · cases hstep
      exact h.goto hw rfl
  | wake u =>
    cases hstep
    exact h.setSleep (by simp)
  | next => exact h.next hw ho hstep

/-! ## Whole runs -/

def OrderlyStep (s s' : Threads τ) : Prop := ∃ t cmd, s.Orderly t cmd ∧ s.step t cmd = some s'

omit h hw

theorem wellFormed_init (leader : τ) : (init leader).WellFormed where
  born t ht := by
    obtain rfl := List.mem_singleton.1 ht
    simp [init]
  kill t ht := by simp [init, Marked] at ht
  built t c hc := by
    simp only [init] at hc
    split at hc <;> cases hc
  owner t u c hc := by
    simp only [init] at hc
    split at hc <;> cases hc

theorem handled_init (leader : τ) : (init leader).Handled := by
  intro a rest ha
  simp only [init] at ha
  split at ha <;> cases ha

section

variable [Fintype τ]

/-- A checker of `Orderly`. -/
def orderly (s : Threads τ) (t : τ) : ThreadCmd τ → Bool
  | .next =>
    match s.pc t with
    | .cloneInsert _ c => decide (∀ a, (s.pc a).snapshot ≠ none → (s.inner c).tgid ≠ (s.inner a).tgid)
    | _ => true
  | .block => (s.inner t).termSignal.isNone
  | _ => true

theorem orderly_spec (h : s.orderly t cmd = true) : s.Orderly t cmd := by
  cases cmd with
  | next =>
    intro thread c hpc
    simp only [orderly, hpc] at h
    exact of_decide_eq_true h
  | block =>
    intro hm
    rw [orderly, Option.isNone_iff_eq_none] at h
    rw [Marked, h] at hm
    cases hm
  | _ => trivial

def runOrderly : Threads τ → List (τ × ThreadCmd τ) → Option (Threads τ) :=
  runGuarded (fun s t cmd => s.orderly t cmd) step

theorem orderlySteps_of_runOrderly {l : List (τ × ThreadCmd τ)} (h : s.runOrderly l = some s') :
    ReflTransGen OrderlyStep s s' :=
  reaches_of_runGuarded (fun _ t k _ ho hk => ⟨t, k, orderly_spec ho, hk⟩) h

end

def nexts (t : τ) (n : Nat) : List (τ × ThreadCmd τ) := List.replicate n (t, .next)

/-- Thread `t` has built thread `u` and not yet put it into the table. -/
def clones (t u : τ) : List (τ × ThreadCmd τ) := (t, .clone true) :: nexts t 2 ++ [(t, .build u)]

/-- Thread `t` has made thread `u`, which runs. -/
def makes (t u : τ) : List (τ × ThreadCmd τ) := clones t u ++ nexts t 3 ++ nexts u 1

/-- `exit_group` of thread `t` in a process of two threads. -/
def exitsGroup (t : τ) : List (τ × ThreadCmd τ) := (t, .exitGroup) :: nexts t 6

/-- In an orderly run, once `exit_group` has been through its snapshot every other thread of the process that has not
left the table is marked, and none sleeps without a wake-up pending. -/
theorem exit_group_leaves_none {leader : τ} (h : ReflTransGen OrderlyStep (init leader) s) {a u : τ}
    (ha : (s.pc a).finished = true) (hu : u ∈ s.tid2tcb) (htgid : (s.inner u).tgid = (s.inner a).tgid) (hne : u ≠ a) :
    s.Marked u ∧ ¬s.Stuck u := by
  have hinv : s.WellFormed ∧ s.Handled :=
    inv_of_reachable (I := fun s => s.WellFormed ∧ s.Handled) ⟨wellFormed_init leader, handled_init leader⟩
      (fun _ _ ⟨hw, hh⟩ ⟨_, _, ho, hstep⟩ => ⟨hw.step hstep, hh.step hw ho hstep⟩) h
  obtain ⟨hsnap, hwaking⟩ := ThreadPc.snapshot_of_finished ha
  exact (handledBy_of_not_waking (hinv.2 a [] hsnap u hu htgid hne) hwaking).resolve_left (by simp)

theorem exit_group_leaves_none_blocked : ∃ s : Threads (Fin 3), ReflTransGen OrderlyStep (init 0) s ∧
    s.pc 0 = .gone true ∧ 1 ∈ s.tid2tcb ∧ s.Marked 1 ∧ ¬s.Stuck 1 := by
  obtain ⟨s, hrun, hpc, hmem, htgid⟩ : ∃ s, (init 0 : Threads (Fin 3)).runOrderly
      (makes 0 1 ++ (1, .block) :: nexts 1 1 ++ exitsGroup 0) = some s ∧ s.pc 0 = .gone true ∧ 1 ∈ s.tid2tcb ∧
      (s.inner 1).tgid = (s.inner 0).tgid := exists_of_any (by decide +kernel)
  have hsteps := orderlySteps_of_runOrderly hrun
  obtain ⟨hm, hst⟩ := exit_group_leaves_none hsteps (a := 0) (by rw [hpc]; rfl) hmem htgid (by decide)
  exact ⟨s, hsteps, hpc, hmem, hm, hst⟩

/-- A thread that a sibling was about to put into the table is left alone; and a thread that has not yet gone to sleep when
it is woken up sleeps on. -/
theorem exit_group_leaves_some :
    (∃ s : Threads (Fin 3), ReflTransGen Step (init 0) s ∧ s.pc 0 = .gone true ∧ 2 ∈ s.tid2tcb ∧
      (s.inner 2).tgid = (s.inner 0).tgid ∧ s.pc 2 = .kernel ∧ ¬s.Marked 2) ∧
    ∃ s : Threads (Fin 3), ReflTransGen Step (init 0) s ∧ s.pc 0 = .gone true ∧ 1 ∈ s.tid2tcb ∧
      (s.inner 1).tgid = (s.inner 0).tgid ∧ (s.inner 1).sleep = .blocked := by
  constructor
  · unfold Marked
    exact exists_steps_of_any (makes 0 1 ++ clones 1 2 ++ exitsGroup 0 ++ nexts 1 2 ++ nexts 2 1) (by decide +kernel)
  · exact exists_steps_of_any (makes 0 1 ++ exitsGroup 0 ++ (1, .block) :: nexts 1 1) (by decide +kernel)

end Threads

end ShellCore.Task
