import ShellCore.Lib.Actors

/-!
# Credentials

The user and group ids of a task are in a cell that the threads of a process share. A call that sets ids
changes the cell of the caller; `clone` shares the cell with a thread and copies it for a new process.
-/

namespace ShellCore.Task

open Function Relation

structure Cred where
  uid : UInt32
  gid : UInt32
  euid : UInt32
  egid : UInt32
  suid : UInt32
  sgid : UInt32
  fsuid : UInt32
  fsgid : UInt32
deriving DecidableEq

namespace Cred

variable (c : Cred)

def setRuid (uid : UInt32) : Cred := { c with uid := uid }

def setUid (uid : UInt32) : Cred := { c with uid := uid, euid := uid, fsuid := uid }

def setGid (gid : UInt32) : Cred := { c with gid := gid, egid := gid, fsgid := gid }

def setEuid (euid : UInt32) : Cred := { c with euid := euid, fsuid := euid }

def setFsuid (fsuid : UInt32) : Cred := { c with fsuid := fsuid }

def setFsgid (fsgid : UInt32) : Cred := { c with fsgid := fsgid }

def userIds : List UInt32 := [c.uid, c.euid, c.suid, c.fsuid]

def groupIds : List UInt32 := [c.gid, c.egid, c.sgid, c.fsgid]

/-- The ids are among the user ids `us` and the group ids `gs`. -/
structure Within (us gs : List UInt32) : Prop where
  users : c.userIds ⊆ us
  groups : c.groupIds ⊆ gs

end Cred

open Cred

/-! ## The calls

Each gives the new contents of the cell and what it returns. -/

/-- `u32::MAX`, the id that `setreuid` takes for "unchanged". -/
def unchangedId : UInt32 := 0xffffffff

variable (cred : Cred)

def sysSetuid (uid : UInt32) : Cred × Int := (cred.setUid uid, 0)

def sysSetgid (gid : UInt32) : Cred × Int := (cred.setGid gid, 0)

def sysSeteuid (euid : UInt32) : Cred × Int := (cred.setEuid euid, 0)

def sysSetreuid (ruid euid : UInt32) : Cred × Int :=
  let cred := if ruid ≠ unchangedId then cred.setRuid ruid else cred
  let cred := if euid ≠ unchangedId then cred.setEuid euid else cred
  (cred, 0)

/-- The old id is returned whether or not the new one is taken. -/
def sysSetfsuid (fsuid : UInt32) : Cred × Int :=
  let old := cred.fsuid
  if cred.euid = 0 ∨ fsuid = cred.uid ∨ fsuid = cred.euid ∨ fsuid = cred.suid ∨ fsuid = old then
    (cred.setFsuid fsuid, old.toNat)
  else (cred, old.toNat)

def sysSetfsgid (fsgid : UInt32) : Cred × Int :=
  let old := cred.fsgid
  if cred.euid = 0 ∨ fsgid = cred.gid ∨ fsgid = cred.egid ∨ fsgid = cred.sgid ∨ fsgid = old then
    (cred.setFsgid fsgid, old.toNat)
  else (cred, old.toNat)

inductive Call where
  | setuid (uid : UInt32)
  | setgid (gid : UInt32)
  | seteuid (euid : UInt32)
  | setreuid (ruid euid : UInt32)
  | setfsuid (fsuid : UInt32)
  | setfsgid (fsgid : UInt32)

namespace Call

def exec : Call → Cred × Int
  | setuid uid => sysSetuid cred uid
  | setgid gid => sysSetgid cred gid
  | seteuid euid => sysSeteuid cred euid
  | setreuid ruid euid => sysSetreuid cred ruid euid
  | setfsuid fsuid => sysSetfsuid cred fsuid
  | setfsgid fsgid => sysSetfsgid cred fsgid

/-- The ids asked for are among `us` and `gs`. `setfsuid` and `setfsgid` check that themselves. -/
def Allowed (us gs : List UInt32) : Call → Prop
  | setuid uid => uid ∈ us
  | setgid gid => gid ∈ gs
  | seteuid euid => euid ∈ us
  | setreuid ruid euid => (ruid ≠ unchangedId → ruid ∈ us) ∧ (euid ≠ unchangedId → euid ∈ us)
  | setfsuid _ | setfsgid _ => True

end Call

section

variable {c : Cred} {us gs : List UInt32}

theorem Cred.within_iff : c.Within us gs ↔
    (c.uid ∈ us ∧ c.euid ∈ us ∧ c.suid ∈ us ∧ c.fsuid ∈ us) ∧ c.gid ∈ gs ∧ c.egid ∈ gs ∧ c.sgid ∈ gs ∧ c.fsgid ∈ gs := by
  constructor
  · intro h
    exact ⟨by simpa [userIds] using h.users, by simpa [groupIds] using h.groups⟩
  · intro h
    exact ⟨by simpa [userIds] using h.1, by simpa [groupIds] using h.2⟩

variable (h : c.Within us gs)

include h

theorem within_setreuid (ruid euid : UInt32) :
    (sysSetreuid c ruid euid).1.Within us gs ↔ (Call.setreuid ruid euid).Allowed us gs := by
  obtain ⟨⟨hu, he, hs, hf⟩, hg⟩ := within_iff.1 h
  rw [within_iff]
  by_cases hr : ruid = unchangedId <;> by_cases heu : euid = unchangedId <;>
    simp [sysSetreuid, Call.Allowed, setRuid, setEuid, hr, heu, hu, he, hs, hf, hg]

/-- The check of `setfsuid` leaves only ids that the caller has, since its effective user id is not root's. -/
theorem within_setfsuid (h0 : 0 ∉ us) (fsuid : UInt32) : (sysSetfsuid c fsuid).1.Within us gs := by
  have hw := within_iff.1 h
  obtain ⟨⟨hu, he, hs, hf⟩, hg⟩ := hw
  simp only [sysSetfsuid]
  split
  case isTrue hcond =>
    rw [within_iff]
    refine ⟨⟨hu, he, hs, ?_⟩, hg⟩
    show fsuid ∈ us
    rcases hcond with h' | rfl | rfl | rfl | rfl
    · rw [h'] at he
      exact absurd he h0
    all_goals assumption
  case isFalse => exact h

theorem within_setfsgid (h0 : 0 ∉ us) (fsgid : UInt32) : (sysSetfsgid c fsgid).1.Within us gs := by
  have hw := within_iff.1 h
  obtain ⟨⟨hu, he, hs, hf⟩, hg, hge, hgs, hgf⟩ := hw
  simp only [sysSetfsgid]
  split
  case isTrue hcond =>
    rw [within_iff]
    refine ⟨⟨hu, he, hs, hf⟩, hg, hge, hgs, ?_⟩
    show fsgid ∈ gs
    rcases hcond with h' | rfl | rfl | rfl | rfl
    · rw [h'] at he
      exact absurd he h0
    all_goals assumption
  case isFalse => exact h

/-- A call by a process without root's user id keeps its ids among the given ones exactly if it asks for such. -/
theorem Call.within_exec (h0 : 0 ∉ us) (call : Call) : (call.exec c).1.Within us gs ↔ call.Allowed us gs := by
  obtain ⟨⟨hu, he, hs, hf⟩, hg, hge, hgs, hgf⟩ := within_iff.1 h
  cases call with
  | setuid uid => simp [exec, sysSetuid, Allowed, within_iff, setUid, hs, hg, hge, hgs, hgf]
  | setgid gid => simp [exec, sysSetgid, Allowed, within_iff, setGid, hu, he, hs, hf, hgs]
  | seteuid euid => simp [exec, sysSeteuid, Allowed, within_iff, setEuid, hu, hs, hg, hge, hgs, hgf]
  | setreuid ruid euid => exact within_setreuid h ruid euid
  | setfsuid fsuid => exact iff_of_true (within_setfsuid h h0 fsuid) trivial
  | setfsgid fsgid => exact iff_of_true (within_setfsgid h h0 fsgid) trivial

end

/-! ## The tasks -/

def cloneThread : Nat := 0x00010000

inductive Op where
  | call (c : Call)
  /-- `do_clone`; `pid_alloc` gives `child`. -/
  | clone (flags child : Nat)

def Op.Allowed (us gs : List UInt32) : Op → Prop
  | call c => c.Allowed us gs
  | clone _ _ => True

/-- The tasks of the system. `family` marks the process that is looked at, and all its descendants. -/
structure Tasks where
  cell : Nat → Cred
  nextCell : Nat
  /-- The cell of a task, if there is such a task. -/
  cred : Nat → Option Nat
  family : Nat → Bool

namespace Tasks

def step (x : Tasks) (t : Nat) : Op → Option Tasks
  | .call c => (x.cred t).map fun r => { x with cell := update x.cell r (c.exec (x.cell r)).1 }
  | .clone flags child =>
    (x.cred t).bind fun r =>
      if x.cred child ≠ none then none
      else if flags &&& cloneThread ≠ 0 then
        some { x with
          cred := update x.cred child (some r), family := update x.family child (x.family t) }
      else
        some { x with
          cell := update x.cell x.nextCell (x.cell r)
          nextCell := x.nextCell + 1
          cred := update x.cred child (some x.nextCell)
          family := update x.family child (x.family t) }

variable {x x' : Tasks} {us gs : List UInt32} {t : Nat} {op : Op}

/-- What a clone does: the child has the cell of its parent, or a new one with the same contents. -/
theorem step_clone {flags child : Nat} (h : x.step t (.clone flags child) = some x') :
    ∃ r, x.cred t = some r ∧ x.cred child = none ∧ x'.family = update x.family child (x.family t) ∧
      ((x'.cell = x.cell ∧ x'.nextCell = x.nextCell ∧ x'.cred = update x.cred child (some r)) ∨
        (x'.cell = update x.cell x.nextCell (x.cell r) ∧ x'.nextCell = x.nextCell + 1 ∧
          x'.cred = update x.cred child (some x.nextCell))) := by
  obtain ⟨r, hr, h⟩ := Option.bind_eq_some_iff.1 h
  have hchild : x.cred child = none := by
    by_contra hne
    rw [if_pos hne] at h
    cases h
  rw [if_neg (not_not.2 hchild)] at h
  refine ⟨r, hr, hchild, ?_⟩
  split_ifs at h
  · cases h
    exact ⟨rfl, .inl ⟨rfl, rfl, rfl⟩⟩
  · cases h
    exact ⟨rfl, .inr ⟨rfl, rfl, rfl⟩⟩

/-- All ids of the family are among the given ones. -/
def Holds (x : Tasks) (us gs : List UInt32) : Prop :=
  ∀ t r, x.family t = true → x.cred t = some r → (x.cell r).Within us gs

/-- The calls of the family ask for the given ids only; the other processes may do what they like. -/
def AllowedStep (us gs : List UInt32) (x x' : Tasks) : Prop :=
  ∃ t op, (x.family t = true → op.Allowed us gs) ∧ x.step t op = some x'

/-- No cell of the family is that of another process. -/
structure Apart (x : Tasks) : Prop where
  fresh : ∀ t r, x.cred t = some r → r < x.nextCell
  cells : ∀ t t' r, x.family t = true → x.cred t = some r → x.cred t' = some r → x.family t' = true

/-- The family is a process with the cell `c`. -/
structure Process (x : Tasks) (c : Nat) : Prop where
  fresh : ∀ t r, x.cred t = some r → r < x.nextCell
  threads : ∀ t, x.family t = true ↔ x.cred t = some c

theorem Process.apart {c : Nat} (h : x.Process c) : x.Apart where
  fresh := h.fresh
  cells t t' r hf hr hr' := by
    have hc := (h.threads t).1 hf
    rw [hr] at hc
    exact (h.threads t').2 (hr'.trans hc)

theorem Apart.step (h : x.Apart) (hstep : x.step t op = some x') : x'.Apart := by
  cases op with
  | call call =>
    obtain ⟨r, -, rfl⟩ := Option.map_eq_some_iff.1 hstep
    exact ⟨h.fresh, h.cells⟩
  | clone flags child =>
    obtain ⟨r, hr, hchild, hfam, ⟨hcell, hnext, hcred⟩ | ⟨hcell, hnext, hcred⟩⟩ := step_clone hstep
    · refine ⟨fun t₁ q hq => ?_, fun t₁ t₂ q hf hq hq' => ?_⟩
      · rw [hnext]
        rw [hcred, update_apply] at hq
        split_ifs at hq
        · cases hq
          exact h.fresh t r hr
        · exact h.fresh t₁ q hq
      · -- the child stands for its parent
        have hstand : ∀ t₃, x'.cred t₃ = some q → ∃ t₄, x.cred t₄ = some q ∧ x'.family t₃ = x.family t₄ := by
          intro t₃ h₃
          rw [hcred, update_apply] at h₃
          rw [hfam, update_apply]
          split_ifs at h₃ with heq
          · cases h₃
            exact ⟨t, hr, if_pos heq⟩
          · exact ⟨t₃, h₃, if_neg heq⟩
        obtain ⟨t₃, h₃, hf₃⟩ := hstand t₁ hq
        obtain ⟨t₄, h₄, hf₄⟩ := hstand t₂ hq'
        rw [hf₄]
        exact h.cells t₃ t₄ q (hf₃ ▸ hf) h₃ h₄
    · refine ⟨fun t₁ q hq => ?_, fun t₁ t₂ q hf hq hq' => ?_⟩
      · rw [hnext]
        rw [hcred, update_apply] at hq
        split_ifs at hq
        · cases hq
          exact Nat.lt_succ_self _
        · exact Nat.lt_succ_of_lt (h.fresh t₁ q hq)
      · rw [hcred, update_apply] at hq hq'
        rw [hfam, update_apply] at hf ⊢
        -- the new cell is only that of the child
        by_cases h₁ : t₁ = child <;> by_cases h₂ : t₂ = child
        · rw [if_pos h₁] at hf
          rw [if_pos h₂]
          exact hf
        · rw [if_pos h₁] at hq
          rw [if_neg h₂] at hq'
          have := h.fresh t₂ q hq'
          have := Option.some.inj hq
          omega
        · rw [if_neg h₁] at hq
          rw [if_pos h₂] at hq'
          have := h.fresh t₁ q hq
          have := Option.some.inj hq'
          omega
        · rw [if_neg h₁] at hf hq
          rw [if_neg h₂] at hq' ⊢
          exact h.cells t₁ t₂ q hf hq hq'

/-- A clone gives nobody new ids. -/
theorem Holds.clone (h : x.Holds us gs) (ha : x.Apart) {flags child : Nat}
    (hstep : x.step t (.clone flags child) = some x') : x'.Holds us gs := by
  obtain ⟨r, hr, hchild, hfam, ⟨hcell, hnext, hcred⟩ | ⟨hcell, hnext, hcred⟩⟩ := step_clone hstep
  · intro t₁ q hf hq
    rw [hcell]
    rw [hfam, update_apply] at hf
    rw [hcred, update_apply] at hq
    split_ifs at hf hq with heq
    · cases hq
      exact h t r hf hr
    · exact h t₁ q hf hq
  · intro t₁ q hf hq
    rw [hfam, update_apply] at hf
    rw [hcred, update_apply] at hq
    split_ifs at hf hq with heq
    · cases hq
      rw [hcell, update_self]
      exact h t r hf hr
    · have hlt := ha.fresh t₁ q hq
      rw [hcell, update_of_ne (by omega)]
      exact h t₁ q hf hq

/-- A call changes the ids of the threads of the caller, and of nobody else. -/
theorem holds_call (h : x.Holds us gs) (ha : x.Apart) (h0 : 0 ∉ us) {call : Call}
    (hstep : x.step t (.call call) = some x') :
    x'.Holds us gs ↔ (x.family t = true → call.Allowed us gs) := by
  obtain ⟨r, hr, rfl⟩ := Option.map_eq_some_iff.1 hstep
  constructor
  · intro h' hf
    have hw : (update x.cell r (call.exec (x.cell r)).1 r).Within us gs := h' t r hf hr
    rw [update_self] at hw
    exact (call.within_exec (h t r hf hr) h0).1 hw
  · intro hallowed t₁ q hf hq
    show (update x.cell r _ q).Within us gs
    by_cases hqr : q = r
    · subst hqr
      have hft := ha.cells t₁ t q hf hq hr
      rw [update_self]
      exact (call.within_exec (h t q hft hr) h0).2 (hallowed hft)
    · rw [update_of_ne hqr]
      exact h t₁ q hf hq

theorem holds_step (h : x.Holds us gs) (ha : x.Apart) (h0 : 0 ∉ us) (hstep : x.step t op = some x') :
    x'.Holds us gs ↔ (x.family t = true → op.Allowed us gs) := by
  cases op with
  | call call => exact holds_call h ha h0 hstep
  | clone flags child => exact iff_of_true (h.clone ha hstep) fun _ => trivial

theorem holds_of_allowed {c : Nat} (hp : x.Process c) (h0 : 0 ∉ (x.cell c).userIds) {y : Tasks}
    (h : ReflTransGen (AllowedStep (x.cell c).userIds (x.cell c).groupIds) x y) :
    y.Apart ∧ y.Holds (x.cell c).userIds (x.cell c).groupIds := by
  refine inv_of_reachable (I := fun y => y.Apart ∧ y.Holds (x.cell c).userIds (x.cell c).groupIds) ⟨hp.apart, ?_⟩ ?_ h
  · intro t r hf hr
    have hc := (hp.threads t).1 hf
    cases hr.symm.trans hc
    exact ⟨List.Subset.refl _, List.Subset.refl _⟩
  · rintro y y' ⟨ha, hy⟩ ⟨t, op, hallowed, hstep⟩
    exact ⟨ha.step hstep, (holds_step hy ha h0 hstep).2 hallowed⟩

/-- A process without root's user id and its descendants keep to the ids of the process, as long as they ask
`setuid`, `seteuid`, `setreuid` and `setgid` for these only; and a call that asks for another one gets it. -/
theorem ids_of_unprivileged {c : Nat} (hp : x.Process c) (h0 : 0 ∉ (x.cell c).userIds) :
    (∀ y, ReflTransGen (AllowedStep (x.cell c).userIds (x.cell c).groupIds) x y →
      y.Holds (x.cell c).userIds (x.cell c).groupIds) ∧
    ∀ y t op y', ReflTransGen (AllowedStep (x.cell c).userIds (x.cell c).groupIds) x y → y.family t = true →
      y.step t op = some y' →
      (y'.Holds (x.cell c).userIds (x.cell c).groupIds ↔ op.Allowed (x.cell c).userIds (x.cell c).groupIds) := by
  refine ⟨fun y hy => (holds_of_allowed hp h0 hy).2, fun y t op y' hy hf hstep => ?_⟩
  obtain ⟨ha, hholds⟩ := holds_of_allowed hp h0 hy
  rw [holds_step hholds ha h0 hstep]
  exact ⟨fun h => h hf, fun h _ => h⟩

/-- The ids of an ordinary user. -/
def userCred : Cred := ⟨1000, 100, 1000, 100, 1000, 100, 1000, 100⟩

/-- Task 1 is the only one. -/
def single : Tasks where
  cell _ := userCred
  nextCell := 1
  cred := update (fun _ => none) 1 (some 0)
  family t := t = 1

theorem single_process : single.Process 0 where
  fresh t r hr := by
    simp only [single, update_apply] at hr ⊢
    split_ifs at hr
    have := Option.some.inj hr
    omega
  threads t := by
    simp [single, update_apply]

/-- The child of a `fork` takes another of its ids. -/
theorem ids_of_unprivileged_fork : ∃ x y, single.step 1 (.clone 0 2) = some x ∧
    x.step 2 (.call (.setreuid 1000 unchangedId)) = some y ∧ y.Holds [1000, 1000, 1000, 1000] [100, 100, 100, 100] := by
  refine ⟨_, _, rfl, rfl, ?_⟩
  refine (ids_of_unprivileged single_process (by decide)).1 _ (.tail (.single ⟨1, .clone 0 2, fun _ => trivial, rfl⟩) ?_)
  refine ⟨2, .call (.setreuid 1000 unchangedId), fun _ => ?_, rfl⟩
  exact ⟨fun _ => by decide, fun h => absurd rfl h⟩

/-- `setuid` asks for no privilege: the process becomes root, and its ids and group ids are any that it likes. -/
theorem setuid_to_root : ∃ x y z, single.step 1 (.call (.setuid 0)) = some x ∧ (x.cell 0).euid = 0 ∧
    single.step 1 (.call (.setreuid 0 0)) = some y ∧ (y.cell 0).euid = 0 ∧
    single.step 1 (.call (.setgid 0)) = some z ∧ (z.cell 0).egid = 0 ∧
    single.Process 0 ∧ 0 ∉ (single.cell 0).userIds ∧ 0 ∉ (single.cell 0).groupIds := by
  refine ⟨_, _, _, rfl, rfl, rfl, rfl, rfl, rfl, single_process, ?_, ?_⟩
  · decide
  · decide

end Tasks

end ShellCore.Task
