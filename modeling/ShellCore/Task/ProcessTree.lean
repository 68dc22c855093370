import ShellCore.Task.ProcessKin

/-!
# Every process has a parent

The children of a process hang on the threads that cloned them, and only the thread that exits last hands its own on to
`INITTASK`. If a thread that exits before has none, every process that is not reaped stays in the list of a task that has
not come to its end.
-/

namespace ShellCore.Task

open Function Relation Family

namespace ProcPc

variable {τ : Type}

/-- An exit has taken the children of the task, or is over. -/
def emptied : ProcPc τ → Bool
  | exitNotify .. | exitWake .. | exitAdopt .. | exitExtend _ | gone => true
  | _ => false

/-- What a task has to do with children lists. -/
def treePart (p : ProcPc τ) : Bool × Bool × Option τ × List τ := (p.existing, p.emptied, p.unlinked, p.orphans)

theorem past_of_emptied {p : ProcPc τ} (h : p.emptied = true) : p.past = true := by
  cases p <;> first | rfl | cases h

end ProcPc

open ProcPc

/-- Who is who. -/
def Family.names {τ : Type} (x : Family τ) : τ × (τ → τ) × (τ → τ) := (x.initTask, x.leader, x.creator)

namespace Processes

variable {τ : Type} [DecidableEq τ]

/-- A thread that does not exit last has no children. -/
def LeavesNone (s : Processes τ) (t : τ) : ProcCmd τ ⊕ SchedCmd → Prop
  | .inl (.next _) => s.pc t = .exitCheck → s.family.lastThread t = false → s.family.children t = []
  | _ => True

def LeavesNoneStep (s s' : Processes τ) : Prop := ∃ t cmd, s.LeavesNone t cmd ∧ s.step t cmd = some s'

/-- A process that has been cloned, other than the first, and is not reaped. -/
structure Lives (s : Processes τ) (c : τ) : Prop where
  existing : (s.pc c).existing = true
  leader : s.family.leader c = c
  other : c ≠ s.family.initTask
  reaped : c ∉ s.family.reaped
  linked : ∀ t, (s.pc t).unlinked ≠ some c

structure Tree (s : Processes τ) : Prop where
  kin : s.family.Kin s.pc
  emptied : ∀ t, (s.pc t).emptied = true → s.family.children t = []
  young : ∀ t, s.pc t = .built → s.family.children t = []
  placed : ∀ c, s.Lives c → (∃ p, c ∈ s.family.children p) ∨ ∃ w, c ∈ (s.pc w).orphans
  maker : ∀ t c, (s.pc t).unlinked = some c → s.family.creator c = t
  creator : ∀ p c, c ∈ s.family.children p → p = s.family.creator c ∨ p = s.family.initTask

variable {s s' : Processes τ} {t c : τ} {p : ProcPc τ} {cmd : ProcCmd τ ⊕ SchedCmd} (h : s.Tree) (hkin : s'.family.Kin s'.pc)

include h hkin

variable (hnames : s'.family.names = s.family.names)

include hnames

/-- A move of task `t`: what it takes off a list, out of its hands or into the world is reaped, or in a list, or in its
hands. -/
theorem Tree.change (hpc : s'.pc = update s.pc t p) (hexisting : p.existing = true → (s.pc t).existing = true)
    (hself : p.emptied = true ∨ p = .built → s'.family.children t = [])
    (hother : ∀ u, u ≠ t → (s.pc u).emptied = true ∨ s.pc u = .built → s'.family.children u = [])
    (hunlinked : ∀ c, p.unlinked = some c → (s.pc t).unlinked = some c)
    (hlinked : ∀ c, (s.pc t).unlinked = some c → p.unlinked = some c ∨ ∃ q, c ∈ s'.family.children q)
    (hlists : ∀ q, ∀ c ∈ s.family.children q,
      c ∈ s'.family.reaped ∨ (∃ q', c ∈ s'.family.children q') ∨ c ∈ p.orphans)
    (horphans : ∀ c ∈ (s.pc t).orphans, (∃ q, c ∈ s'.family.children q) ∨ c ∈ p.orphans)
    (hreaped : ∀ c ∈ s.family.reaped, c ∈ s'.family.reaped)
    (hcreator : ∀ q, ∀ c ∈ s'.family.children q,
      c ∈ s.family.children q ∨ q = s.family.creator c ∨ q = s.family.initTask) : s'.Tree := by
  simp only [names, Prod.mk.injEq] at hnames
  obtain ⟨hinit, hleader, hmaker⟩ := hnames
  have hcase : ∀ u, (u = t ∧ s'.pc u = p) ∨ (u ≠ t ∧ s'.pc u = s.pc u) := by
    intro u
    rw [hpc]
    exact forall_update_of_ne u (.inl ⟨rfl, rfl⟩) fun _ hut => .inr ⟨hut, rfl⟩
  have hselfpc : s'.pc t = p := by rw [hpc, update_self]
  have hempty : ∀ u, (s'.pc u).emptied = true ∨ s'.pc u = .built → s'.family.children u = [] := by
    intro u hu
    rcases hcase u with ⟨rfl, heq⟩ | ⟨hut, heq⟩
    · exact hself (heq ▸ hu)
    · exact hother u hut (heq ▸ hu)
  refine ⟨hkin, fun u hu => hempty u (.inl hu), fun u hu => hempty u (.inr hu), fun c hc => ?_, fun u c hu => ?_,
    fun q c hc => ?_⟩
  · by_cases hmade : ∃ u, (s.pc u).unlinked = some c
    · -- the process has just been put into a list
      obtain ⟨u, hu⟩ := hmade
      rcases hcase u with ⟨rfl, heq⟩ | ⟨-, heq⟩
      · exact .inl ((hlinked c hu).resolve_left (heq ▸ hc.linked u))
      · exact absurd hu (heq ▸ hc.linked u)
    · have hlives : s.Lives c := by
        refine ⟨?_, hleader ▸ hc.leader, hinit ▸ hc.other, fun hmem => hc.reaped (hreaped c hmem), fun u hu => hmade ⟨u, hu⟩⟩
        rcases hcase c with ⟨rfl, heq⟩ | ⟨-, heq⟩
        · exact hexisting (heq ▸ hc.existing)
        · exact heq ▸ hc.existing
      have hhands : c ∈ p.orphans → ∃ w, c ∈ (s'.pc w).orphans := fun hw => ⟨t, hselfpc.symm ▸ hw⟩
      rcases h.placed c hlives with ⟨q, hq⟩ | ⟨w, hw⟩
      · rcases hlists q c hq with hr | hq' | hw
        · exact absurd hr hc.reaped
        · exact .inl hq'
        · exact .inr (hhands hw)
      · rcases hcase w with ⟨rfl, -⟩ | ⟨-, heq⟩
        · exact (horphans c hw).imp_right hhands
        · exact .inr ⟨w, heq.symm ▸ hw⟩
  · rw [hmaker]
    rcases hcase u with ⟨rfl, heq⟩ | ⟨-, heq⟩
    · exact h.maker u c (hunlinked c (heq ▸ hu))
    · exact h.maker u c (heq ▸ hu)
  · rw [hmaker, hinit]
    exact (hcreator q c hc).elim (h.creator q c) id

/-- A move that leaves the lists alone. -/
theorem Tree.goto (hchildren : s'.family.children = s.family.children) (hreaped : s'.family.reaped = s.family.reaped)
    (hpc : s'.pc = update s.pc t p) (hexisting : p.existing = true → (s.pc t).existing = true)
    (hemptied : p.emptied = true ∨ p = .built → s.family.children t = [])
    (hunlinked : p.unlinked = (s.pc t).unlinked) (horphans : p.orphans = (s.pc t).orphans) : s'.Tree := by
  refine h.change hkin hnames hpc hexisting ?_ ?_ (fun c hc => hunlinked ▸ hc) (fun c hc => .inl (hunlinked ▸ hc)) ?_
    (fun c hc => .inr (horphans ▸ hc)) (fun c hc => hreaped ▸ hc) ?_
  · rwa [hchildren]
  · rw [hchildren]
    exact fun u _ hu => hu.elim (h.emptied u) (h.young u)
  · rw [hchildren]
    exact fun q c hc => .inr (.inl ⟨q, hc⟩)
  · rw [hchildren]
    exact fun q c hc => .inl hc

theorem Tree.move (hchildren : s'.family.children = s.family.children) (hreaped : s'.family.reaped = s.family.reaped)
    (hpcs : s'.pc = update s.pc t p) {old : ProcPc τ} (hpc : s.pc t = old) (hpart : p.treePart = old.treePart)
    (hbuilt : p = .built → old = .built) : s'.Tree := by
  subst hpc
  simp only [treePart, Prod.mk.injEq] at hpart
  obtain ⟨hexisting, hemptied, hunlinked, horphans⟩ := hpart
  refine h.goto hkin hnames hchildren hreaped hpcs (fun he => hexisting ▸ he) ?_ hunlinked horphans
  rintro (he | hb)
  · exact h.emptied t (hemptied ▸ he)
  · exact h.young t (hbuilt hb)

omit hkin hnames

omit h [DecidableEq τ] in
theorem Goes.same (hg : s.Goes t cmd p) : p.unlinked = (s.pc t).unlinked ∧ p.orphans = (s.pc t).orphans ∧
    (s.pc t).existing = true ∧ p ≠ .built := by
  cases hg <;> rename_i hpc <;> (try rw [hpc]) <;> simp_all

theorem Tree.go (hg : s.Goes t cmd p) (hs : s.LeavesNone t cmd) : (s.goto t p).Tree := by
  obtain ⟨hunlinked, horphans, hexisting, hbuilt⟩ := hg.same
  refine h.goto (h.kin.goto (hg.frame h.kin) hg.exited) rfl rfl rfl rfl (fun _ => hexisting) ?_ hunlinked horphans
  rintro (hemptied | hb)
  · have hold := h.emptied t
    cases hg with
    | notLast hcmd hpc hlast =>
      subst hcmd
      exact hs hpc hlast
    | woken hpc | noOrphan hpc | adopted hpc => exact hold (by rw [hpc]; rfl)
    | _ => cases hemptied
  · exact absurd hb hbuilt

/-- A new process is in nobody's list yet, and a new thread is not a process. -/
theorem Tree.build {thread : Bool} {parent : Option τ} {n : Nat} (hpc : s.pc t = .cloneBuild thread parent)
    (hc : s.pc c = .unborn) (hn : s.family.free n = true) :
    Tree (((s.setFamily (s.family.build t thread parent c n)).setRun c .ready).goto c .built |>.goto t
      (.cloneWrite thread c)) := by
  have ht : t ∈ s.family.tasks := h.kin.present t (by rw [hpc]; rfl)
  obtain ⟨-, hlists, -, hclonee⟩ := h.kin.nowhere_of_unborn hc
  have hne : ∀ {u}, u ∈ s.family.tasks → u ≠ c := fun hu => h.kin.ne_of_unborn hc (.inl hu)
  have hchildc : (s.family.build t thread parent c n).children c = [] := update_self ..
  have hcreator : ∀ {u}, u ≠ c → (s.family.build t thread parent c n).creator u = s.family.creator u :=
    fun hu => update_of_ne hu ..
  -- where the tasks stand now: the cloner, the child, the others
  have hcase : ∀ {Q : τ → ProcPc τ → Prop}, Q t (.cloneWrite thread c) → Q c .built → (∀ u, u ≠ t → u ≠ c → Q u (s.pc u)) →
      ∀ u, Q u (update (update s.pc c .built) t (.cloneWrite thread c) u) := by
    intro Q hQt hQc hQ u
    refine forall_update_of_ne u hQt fun u => ?_
    exact forall_update_of_ne (motive := fun u q => u ≠ t → Q u q) u (fun _ => hQc) fun u huc hut => hQ u hut huc
  refine ⟨kin_build h.kin hpc hc hn, ?_, ?_, fun c' hc' => ?_, ?_, ?_⟩
  · exact hcase (Q := fun u q => q.emptied = true → (s.family.build t thread parent c n).children u = [])
      nofun nofun fun u _ huc he => (children_build huc).trans (h.emptied u he)
  · exact hcase (Q := fun u q => q = .built → (s.family.build t thread parent c n).children u = [])
      nofun (fun _ => hchildc) fun u _ huc hb => (children_build huc).trans (h.young u hb)
  · have hcc : c' ≠ c := by
      rintro rfl
      cases thread with
      | true => exact h.kin.ne_of_unborn hc (.inr ⟨t, ht, rfl⟩) (leader_build_self.symm.trans hc'.leader)
      | false =>
        refine hc'.linked t ?_
        show (update (update s.pc c' .built) t (.cloneWrite false c') t).unlinked = some c'
        rw [update_self]
        rfl
    have hold := hcase (Q := fun u q => (q.existing = true → u ≠ c → (s.pc u).existing = true) ∧
      (q.unlinked ≠ some c' → (s.pc u).unlinked ≠ some c') ∧ ∀ w ∈ (s.pc u).orphans, w ∈ q.orphans)
      (by simp [hpc]) (by simp [hc]) fun u _ _ => ⟨fun he _ => he, id, fun _ => id⟩
    have hlives : s.Lives c' := ⟨(hold c').1 hc'.existing hcc, (leader_build hcc).symm.trans hc'.leader, hc'.other,
      hc'.reaped, fun u => (hold u).2.1 (hc'.linked u)⟩
    rcases h.placed c' hlives with ⟨q, hq⟩ | ⟨w, hw⟩
    · exact .inl ⟨q, (children_build (hne (h.kin.child q c' hq).1)).symm ▸ hq⟩
    · exact .inr ⟨w, (hold w).2.2 c' hw⟩
  · refine hcase (Q := fun u q => ∀ c', q.unlinked = some c' → (s.family.build t thread parent c n).creator c' = u) ?_ ?_ ?_
    · intro c' hc'
      cases thread with
      | true => cases hc'
      | false =>
        obtain rfl : c = c' := Option.some.inj hc'
        exact update_self ..
    · intro c' hc'
      cases hc'
    · intro u _ _ c' hc'
      have hcc : c' ≠ c := by
        rintro rfl
        exact hclonee u (clonee_of_fresh (fresh_of_unlinked hc'))
      exact (hcreator hcc).trans (h.maker u c' hc')
  · intro q c' hc'
    obtain ⟨hq, hold⟩ := mem_children_build hc'
    rcases h.creator q c' hold with heq | heq
    · exact .inl (heq.trans (hcreator (hne (h.kin.child q c' hold).2.1)).symm)
    · exact .inr heq

/-- A clone that fails leaves nothing behind. -/
theorem Tree.discard {thread : Bool} (hpc : s.pc t = .cloneWrite thread c) :
    Tree (((s.setFamily (s.family.drop c)).goto c .discarded).goto t .user) := by
  have hclonee : (s.pc t).clonee = some c := by rw [hpc]; rfl
  have hbuilt := h.kin.clonee t c hclonee
  have hchildren : (s.family.drop c).children = s.family.children := by
    show update s.family.children c [] = s.family.children
    rw [← h.young c hbuilt, update_eq_self]
  have hct := h.kin.ne_clonee hclonee
  -- neither the cloner nor its child has anything to do with lists from now on
  have hnone : ∀ u, (update (update s.pc c .discarded) t .user u).emptied = true ∨
      update (update s.pc c .discarded) t .user u = .built → s.family.children u = [] :=
    fun u => forall_update u (by simp [ProcPc.emptied])
      (fun u => forall_update u (by simp [ProcPc.emptied]) fun u hu => hu.elim (h.emptied u) (h.young u))
  have horphans : ∀ u, (update (update s.pc c .discarded) t .user u).orphans = (s.pc u).orphans :=
    fun u => forall_update u (by rw [hpc]; rfl)
      (fun u => forall_update u (by rw [hbuilt]; rfl) fun _ => rfl)
  have hunlinked : ∀ u c', (update (update s.pc c .discarded) t .user u).unlinked = some c' →
      (s.pc u).unlinked = some c' :=
    fun u => forall_update u (by simp)
      (fun u => forall_update u (by simp)
        fun _ _ => id)
  refine ⟨kin_discard h.kin hpc, fun u hu => hchildren ▸ hnone u (.inl hu), fun u hu => hchildren ▸ hnone u (.inr hu),
    fun c' hc' => ?_, fun u c' hu => h.maker u c' (hunlinked u c' hu), fun q c' hc' => h.creator q c' (hchildren ▸ hc')⟩
  have hex : (update (update s.pc c .discarded) t .user c').existing = true := hc'.existing
  have hcc : c' ≠ c := by
    rintro rfl
    rw [update_of_ne hct, update_self] at hex
    cases hex
  have hlives : s.Lives c' := by
    refine ⟨?_, hc'.leader, hc'.other, hc'.reaped, fun u hu => ?_⟩
    · by_cases htc : c' = t
      · rw [htc, hpc]
        rfl
      · rwa [update_of_ne htc, update_of_ne hcc] at hex
    · by_cases hut : u = t
      · subst hut
        have hsame := clonee_of_fresh (fresh_of_unlinked hu)
        exact hcc (Option.some.inj (hsame.symm.trans hclonee))
      · have huc : u ≠ c := by
          rintro rfl
          rw [hbuilt] at hu
          cases hu
        refine hc'.linked u ?_
        show (update (update s.pc c .discarded) t .user u).unlinked = some c'
        rwa [update_of_ne hut, update_of_ne huc]
  rcases h.placed c' hlives with ⟨q, hq⟩ | ⟨w, hw⟩
  · exact .inl ⟨q, hchildren.symm ▸ hq⟩
  · exact .inr ⟨w, (horphans w).symm ▸ hw⟩

omit [DecidableEq τ] in
/-- The lists that have to be empty are not those of the first process. -/
theorem Tree.ne_init {u : τ} (hu : (s.pc u).emptied = true ∨ s.pc u = .built) : u ≠ s.family.initTask := by
  rintro rfl
  rcases hu with hu | hu
  · exact h.kin.past _ (past_of_emptied hu) h.kin.init.2.1
  · exact h.kin.init.2.2 hu

/-- The new process comes into the list of its creator. -/
theorem Tree.link (hpc : s.pc t = .cloneLink c) :
    Tree ((s.setFamily (s.family.extendChildren t [c])).goto t (.cloneInsert c)) := by
  have hself : (s.family.extendChildren t [c]).children t = s.family.children t ++ [c] :=
    children_setChildren_self _
  refine h.change (p := .cloneInsert c) (kin_link h.kin hpc) rfl rfl (by simp [hpc]) (by simp [ProcPc.emptied])
    (fun u hut hu => ?_) (by simp) (fun c' hc' => ?_) (fun q c' hc' => .inr (.inl ⟨q, mem_children_append hc'⟩))
    (by simp [hpc]) (fun _ => id) fun q c' hc' => ?_
  · exact (children_setChildren_of_ne _ hut).trans (hu.elim (h.emptied u) (h.young u))
  · rw [hpc] at hc'
    obtain rfl : c = c' := Option.some.inj hc'
    exact .inr ⟨t, hself.symm ▸ List.mem_append_right _ (List.mem_singleton_self c)⟩
  · by_cases hqt : q = t
    · subst hqt
      replace hc' : c' ∈ s.family.children q ++ [c] := hself ▸ hc'
      rcases List.mem_append.1 hc' with hold | hnew
      · exact .inl hold
      · obtain rfl := List.mem_singleton.1 hnew
        exact .inr (.inl (h.maker q c' (by rw [hpc]; rfl)).symm)
    · exact .inl (children_setChildren_of_ne _ hqt ▸ hc')

theorem Tree.start (hpc : s.pc t = .cloneEnqueue c) : Tree (((s.setRun c .queued).goto c .user).goto t .user) := by
  have hclonee : (s.pc t).clonee = some c := by rw [hpc]; rfl
  have hct := h.kin.ne_clonee hclonee
  have huser : s.family.Kin (update s.pc t .user) := h.kin.toUser (by simp [hpc]) (by simp [hpc]) (by simp [hpc])
  have hfirst : (s.goto t .user).Tree := h.move huser rfl rfl rfl rfl hpc rfl (by simp)
  have hpcc : (s.goto t .user).pc c = .built := (update_of_ne hct ..).trans (h.kin.clonee t c hclonee)
  exact hfirst.move (kin_start h.kin hpc) rfl rfl rfl (update_comm hct ..) hpcc rfl (by simp)

theorem Tree.reap (hkin : (s.family.reap t c).Kin (update s.pc t p))
    (hexisting : (s.pc t).existing = true) (hp : p.emptied = false ∧ p ≠ .built)
    (hunlinked : p.unlinked = (s.pc t).unlinked) (horphans : p.orphans = (s.pc t).orphans) :
    Tree ((s.setFamily (s.family.reap t c)).goto t p) := by
  have hkeep : ∀ q, ∀ c' ∈ s.family.children q, c' ≠ c → c' ∈ (s.family.reap t c).children q :=
    fun q => forall_update (motive := fun q (l : List τ) => ∀ c' ∈ s.family.children q, c' ≠ c → c' ∈ l) q
      (fun _ hc' hne => (List.mem_erase_of_ne hne).2 hc') fun _ _ hc' _ => hc'
  refine h.change hkin rfl rfl (fun _ => hexisting) ?_ (fun u hut hu => ?_) (fun c hc => hunlinked ▸ hc)
    (fun c hc => .inl (hunlinked ▸ hc)) (fun q c' hc' => ?_) (fun c hc => .inr (horphans ▸ hc))
    (fun _ => List.mem_append_left _) fun q c' hc' => .inl ?_
  · rintro (he | hb)
    · cases hp.1.symm.trans he
    · exact absurd hb hp.2
  · exact (children_setChildren_of_ne _ hut).trans (hu.elim (h.emptied u) (h.young u))
  · by_cases hcc : c' = c
    · exact .inl (List.mem_append_right _ (List.mem_singleton.2 hcc))
    · exact .inr (.inl ⟨q, hkeep q c' hc' hcc⟩)
  · exact (sublist_update List.erase_sublist q).subset hc'

theorem Tree.take (hpc : s.pc t = .exitTake) : (s.take t).Tree := by
  have hself : (s.family.setChildren t []).children t = [] := children_setChildren_self _
  have htaken : (s.family.taken t).orphans = s.family.children t ∧ (s.family.taken t).unlinked = none := by
    rcases s.family.taken_cases t with ⟨q, -, heq⟩ | ⟨-, heq⟩ <;> rw [heq] <;> exact ⟨rfl, rfl⟩
  refine h.change (kin_take h.kin hpc) rfl rfl (by simp [hpc]) (fun _ => hself) (fun u hut hu => ?_) (fun c hc => ?_)
    (by simp [hpc]) (fun p c hc => ?_) (by simp [hpc]) (fun _ => id) fun p c hc => .inl ?_
  · exact (children_setChildren_of_ne _ hut).trans (hu.elim (h.emptied u) (h.young u))
  · cases htaken.2.symm.trans hc
  · by_cases hpt : p = t
    · subst hpt
      exact .inr (.inr (htaken.1.symm ▸ hc))
    · exact .inr (.inl ⟨p, (children_setChildren_of_ne [] hpt).symm ▸ hc⟩)
  · exact (sublist_update (List.nil_sublist _) p).subset hc

theorem Tree.extend {os : List τ} (hpc : s.pc t = .exitExtend os) :
    Tree ((s.setFamily (s.family.extendChildren s.family.initTask os)).goto t .gone) := by
  have hrest : ∀ {u}, (s.pc u).emptied = true ∨ s.pc u = .built →
      (s.family.extendChildren s.family.initTask os).children u = [] :=
    fun hu => (children_setChildren_of_ne _ (h.ne_init hu)).trans (hu.elim (h.emptied _) (h.young _))
  refine h.change (kin_extend h.kin hpc) rfl rfl (by simp [hpc]) (fun _ => hrest (.inl (by rw [hpc]; rfl)))
    (fun u _ hu => hrest hu) (by simp) (by simp [hpc]) (fun q c hc => .inr (.inl ⟨q, mem_children_append hc⟩))
    (fun c hc => .inl ?_) (fun _ => id) fun q c hc => ?_
  · rw [hpc] at hc
    refine ⟨s.family.initTask, ?_⟩
    show c ∈ (s.family.extendChildren s.family.initTask os).children s.family.initTask
    rw [children_setChildren_self]
    exact List.mem_append_right _ hc
  · by_cases hq : q = s.family.initTask
    · exact .inr (.inr hq)
    · exact .inl (children_setChildren_of_ne _ hq ▸ hc)

theorem Tree.step (hs : s.LeavesNone t cmd) (hm : s.Move t cmd s') : s'.Tree := by
  have hkin := kin_step h.kin hm
  cases hm with
  | go hg => exact h.go hg hs
  | build _ hpc hc hn => exact h.build hpc hc hn
  | discard hpc => exact h.discard hpc
  | link hpc => exact h.link hpc
  | insert hpc | lock hpc _ | unlock hpc | sleep hpc | removeTid hpc | leave hpc | zombify _ hpc _ | panic _ hpc _
  | drain hpc _ | wake hpc | adopt hpc => exact h.move hkin rfl rfl rfl rfl hpc rfl (by simp)
  | start hpc => exact h.start hpc
  | reap hpc hc | reapId hpc hc => exact h.reap hkin (by rw [hpc]; rfl) ⟨rfl, by simp⟩ (by rw [hpc]; rfl) (by rw [hpc]; rfl)
  | @dequeue m rest held hpc =>
    obtain ⟨hfamily, hpcs⟩ := s.dequeue_family m
    refine h.move (p := .removeQueues rest held) hkin (congrArg names hfamily) (congrArg children hfamily)
      (congrArg reaped hfamily) ?_ hpc rfl (by simp)
    show update (s.dequeue m).pc t _ = _
    rw [hpcs]
  | take _ hpc => exact h.take hpc
  | extend _ hpc => exact h.extend hpc
  | sched _ => exact h.move hkin rfl rfl rfl (update_eq_self t s.pc).symm rfl rfl id
  | drop hd =>
    have hnil := h.emptied t (by rw [(facts_of_droppable hd h.kin).1]; rfl)
    refine h.move hkin rfl ?_ rfl (update_eq_self t s.pc).symm rfl rfl id
    show update s.family.children t [] = s.family.children
    rw [← hnil, update_eq_self]

omit h

theorem tree_boot (initTask : τ) (pgid : τ → Nat) : (boot initTask pgid).Tree := by
  refine ⟨kin_boot initTask pgid, fun _ _ => rfl, fun _ _ => rfl, fun c hc => ?_, fun t c hc => ?_, fun q c hc => ?_⟩
  · have hex : existing (if c = initTask then .user else .unborn : ProcPc τ) = true := hc.existing
    rw [if_neg (show ¬c = initTask from hc.other)] at hex
    cases hex
  · have hun : unlinked (if t = initTask then .user else .unborn) = some c := hc
    split at hun <;> cases hun
  · cases hc

/-- In every run in which a thread that does not exit last has no children, every process other than the first that has been
cloned and not reaped, and is not just being handed on, is in the children list of one task, once. Its parent pointer names
that task, whose process has not come to its end. It is the task that cloned the process, or `INITTASK`, and the latter if
the whole process of the former has come to its end. -/
theorem one_parent {initTask : τ} {pgid : τ → Nat} {s : Processes τ}
    (h : ReflTransGen LeavesNoneStep (boot initTask pgid) s) {c : τ} (hc : s.Lives c)
    (hhand : ∀ w, c ∉ (s.pc w).orphans) :
    ∃ p, (∀ q, c ∈ s.family.children q ↔ q = p) ∧ (s.family.children p).count c = 1 ∧ s.family.parent c = some p ∧
      (∃ u, (s.pc u).existing = true ∧ s.family.leader u = s.family.leader p ∧ s.pc u ≠ .gone) ∧
      (p = s.family.creator c ∨ p = s.family.initTask) ∧
      ((∀ u, (s.pc u).existing = true → s.family.leader u = s.family.leader (s.family.creator c) → s.pc u = .gone) →
        p = s.family.initTask) := by
  have hinv : s.Tree := by
    refine inv_of_reachable (tree_boot initTask pgid) (fun s s' hs hstep => ?_) h
    obtain ⟨t, cmd, hnone, hstep⟩ := hstep
    exact hs.step hnone (move_of_step hstep)
  obtain ⟨p, hp⟩ : ∃ p, c ∈ s.family.children p := by
    refine (hinv.placed c hc).resolve_right ?_
    rintro ⟨w, hw⟩
    exact hhand w hw
  obtain ⟨htask, -, -, hparent⟩ := hinv.kin.child p c hp
  have hex := hinv.kin.existing p htask
  have hend : s.pc p ≠ .gone := by
    intro heq
    rw [hinv.emptied p (by rw [heq]; rfl)] at hp
    cases hp
  have hwho := hinv.creator p c hp
  refine ⟨p, fun q => ⟨fun hq => ?_, fun hq => hq ▸ hp⟩, List.count_eq_one_of_mem (hinv.kin.nodup p) hp, hparent,
    ⟨p, hex, rfl, hend⟩, hwho, fun hall => hwho.resolve_left ?_⟩
  · exact Option.some.inj ((hinv.kin.child q c hq).2.2.2.symm.trans hparent)
  · rintro rfl
    exact hend (hall _ hex rfl)

instance (s : Processes τ) (t : τ) (cmd : ProcCmd τ ⊕ SchedCmd) : Decidable (s.LeavesNone t cmd) := by
  unfold LeavesNone
  split <;> infer_instance

/-- The first process forks `p`, which forks `c` and exits. -/
def orphaned (i p c : τ) : List (τ × (ProcCmd τ ⊕ SchedCmd)) :=
  fork i p 2 ++ fork p c 3 ++ [(p, .inl .exit)] ++ nexts p 9

theorem one_parent_orphaned :
    ∃ s : Processes Nat, ReflTransGen LeavesNoneStep (boot 0 fun _ => 1) s ∧ s.Lives 2 ∧ s.pc 1 = .gone ∧
      s.family.creator 2 = 1 ∧ s.family.parent 2 = some 0 ∧ ∀ q, 2 ∈ s.family.children q ↔ q = 0 := by
  obtain ⟨s, hs, hfacts, hgone, hmaker, hparent, hall⟩ :
      ∃ s, runGuarded LeavesNone step (boot 0 fun _ => 1) (orphaned 0 1 2) = some s ∧
      ((s.pc 2).existing = true ∧ s.family.leader 2 = 2 ∧ 2 ≠ s.family.initTask ∧ 2 ∉ s.family.reaped) ∧
      s.pc 1 = .gone ∧ s.family.creator 2 = 1 ∧ s.family.parent 2 = some 0 ∧
      ∀ u ∈ s.family.tasks, (s.pc u).unlinked = none ∧ (s.pc u).orphans = [] :=
    exists_of_any (by decide +kernel)
  have hrun : ReflTransGen LeavesNoneStep _ s := steps_of_runGuarded hs
  have hkin := kin_of_reachable (steps_of_guarded hrun)
  have hlives : s.Lives 2 := by
    refine ⟨hfacts.1, hfacts.2.1, hfacts.2.2.1, hfacts.2.2.2, fun u hu => ?_⟩
    have hpresent := present_of_clonee (clonee_of_fresh (fresh_of_unlinked hu))
    rw [(hall u (hkin.present u hpresent)).1] at hu
    cases hu
  have hhand : ∀ w, 2 ∉ (s.pc w).orphans := by
    intro w hw
    rw [(hall w (hkin.present w (present_of_orphans hw))).2] at hw
    cases hw
  obtain ⟨p, hlist, -, hp, -⟩ := one_parent hrun hlives hhand
  obtain rfl : p = 0 := Option.some.inj (hp.symm.trans hparent)
  exact ⟨s, hrun, hlives, hgone, hmaker, hparent, hlist⟩

/-- The same, but it is a thread `t` of `p` that forks `c`, and that exits first. -/
def forgotten (i p t c : τ) : List (τ × (ProcCmd τ ⊕ SchedCmd)) :=
  fork i p 2 ++ cloneThread p t 3 ++ fork t c 4 ++ [(t, .inl .exit)] ++ nexts t 3 ++ [(p, .inl .exit)] ++ nexts p 7

/-- Process 3 runs and is not reaped; the task whose child it is has come to its end, and so has the process of that task. -/
theorem parent_forgotten :
    ∃ s : Processes Nat, ReflTransGen Step (boot 0 fun _ => 1) s ∧ s.pc 3 = .user ∧ s.family.leader 3 = 3 ∧
      3 ∉ s.family.reaped ∧ (∀ p, 3 ∈ s.family.children p ↔ p = 2) ∧ s.family.parent 3 = some 2 ∧
      s.family.leader 2 = 1 ∧ ∀ u ∈ s.family.tasks, s.family.leader u = 1 → s.pc u = .gone := by
  obtain ⟨s, hs, huser, hlead, hreaped, hchild, hparent, hfacts⟩ :
      ∃ s, ReflTransGen Step (boot 0 fun _ => 1) s ∧ s.pc 3 = .user ∧ s.family.leader 3 = 3 ∧
      3 ∉ s.family.reaped ∧ 3 ∈ s.family.children 2 ∧ s.family.parent 3 = some 2 ∧
      s.family.leader 2 = 1 ∧ ∀ u ∈ s.family.tasks, s.family.leader u = 1 → s.pc u = .gone :=
    exists_steps_of_any (forgotten 0 1 2 3) (by decide +kernel)
  have hkin := kin_of_reachable hs
  refine ⟨s, hs, huser, hlead, hreaped, fun p => ⟨fun hp => ?_, fun hp => hp ▸ hchild⟩, hparent, hfacts⟩
  exact Option.some.inj ((hkin.child p 3 hp).2.2.2.symm.trans hparent)

end Processes

end ShellCore.Task
