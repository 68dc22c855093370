import ShellCore.Fs.Rename

/-!
# Renames keep one tree

As long as no two calls that move a directory to another one overlap between the walk over the ancestors and the move,
every dentry stays below the root. Two that do, with no lock in common, can each put its directory below the other's.
-/

namespace ShellCore.Fs

open Function Forest Relation Option Rename

namespace Renames

open DentryTree

variable {ν τ : Type} [LinearOrder ν]

structure Inv (root : ν) (s : Renames ν τ) : Prop where
  tree : s.tree.IsTree root
  fits : ∀ t, s.tree.Fits t (s.pc t)
  single : ∀ t u, (s.pc t).Relocates s.tree.isDir → (s.pc u).Relocates s.tree.isDir → t = u

variable {root : ν} {s s' : Renames ν τ} {x : DentryTree ν τ} {t u : τ} {r : Rename ν} {d m n p q node : ν} {name : Name}
  {pc : RenamePc ν}

/-- No other call relocates a directory when call `t` begins to. -/
def Alone (s : Renames ν τ) (t : τ) (pc : RenamePc ν) : Prop :=
  pc.Relocates s.tree.isDir → (s.pc t).Relocates s.tree.isDir ∨ ∀ u, u ≠ t → ¬(s.pc u).Relocates s.tree.isDir

theorem fits_leave (h : x.Held t r) : x.Fits t (leave r) := by
  unfold leave
  split
  · exact first_of_both (P := fun d => x.namespaceLock d = some t) h.lockOld h.lockNew
  · rename_i hcross
    exact ⟨h, Bool.eq_false_iff.2 hcross⟩

theorem alone_leave : s.Alone t (leave r) := by
  intro hrel
  unfold leave at hrel
  split at hrel <;> exact hrel.elim

theorem fits_checked {moved} (hh : x.Held t r) (hsrc : x.IsSource r moved) : x.Fits t (checked x r moved) := by
  unfold checked
  split
  · rename_i hdir
    rw [Bool.and_eq_true, Bool.not_eq_true'] at hdir
    exact ⟨hh, hsrc, hdir, fun hnew => ⟨hnew, hh.knownNew, id⟩⟩
  · rename_i hdir
    refine ⟨hh, hsrc, fun hd hcross => absurd ?_ hdir⟩
    rw [hd, hcross]
    rfl

theorem relocates_checked {isDir : ν → Bool} {moved} (h : (checked x r moved).Relocates isDir) :
    isDir moved = true ∧ r.sameDir = false := by
  unfold checked at h
  split at h <;> exact h

theorem fits_ancestor {moved} (htree : x.IsTree root) (h : x.Fits t (.ancestors r moved node)) :
    x.Fits t (ancestor x r moved node) := by
  obtain ⟨hh, hsrc, hdir, hw⟩ := h
  unfold ancestor
  split
  · exact fits_leave hh
  · rename_i hne
    have hstep : ∀ hnew : x.isDir r.newParent = true, Above x.parent moved r.newParent →
        ∃ up, x.parent node = some up ∧ Above x.parent moved up := by
      intro hnew ha
      rcases above_iff.1 ((hw hnew).above ha) with he | hup
      · exact absurd he.symm hne
      · exact hup
    cases hup : x.parent node with
    | some up =>
      refine ⟨hh, hsrc, hdir, fun hnew => ⟨(htree.dirs _ _ hup).1, (htree.dirs _ _ hup).2, fun ha => ?_⟩⟩
      obtain ⟨up', hup', ha'⟩ := hstep hnew ha
      cases hup.symm.trans hup'
      exact ha'
    | none =>
      refine ⟨hh, hsrc, fun _ _ hnew ha => ?_⟩
      obtain ⟨up', hup', -⟩ := hstep hnew ha
      cases hup.symm.trans hup'

theorem relocates_ancestor {isDir : ν → Bool} {moved} (h : (ancestor x r moved node).Relocates isDir) :
    isDir moved = true ∧ r.sameDir = false := by
  unfold ancestor leave at h
  split at h
  · split at h <;> exact h.elim
  · split at h <;> exact h

omit [LinearOrder ν] in
/-- Another call does not hold a lock that this one holds. -/
theorem not_other (hl : x.namespaceLock d = some t) (hu : u ≠ t) : x.namespaceLock d ≠ some u := by
  rw [hl]
  exact fun he => hu (some.inj he).symm

theorem isTree_commitSameDir (htree : x.IsTree root) (hh : x.Held t r) (hsrc : x.IsSource r d) (hs : r.sameDir = true)
    (hdir : x.isDir r.newParent = true) : (x.commitSameDir r d).IsTree root := by
  have hpq := eq_of_sameDir hs
  have htaken : (x.setChild r.oldParent r.oldName none).Located d r.oldName r.oldParent := hsrc.located.setChild
  have htree₁ : (x.setChild r.oldParent r.oldName none).IsTree root := htree.setChild_none
  have hsame : update x.parent d (some r.newParent) = x.parent :=
    update_eq_self_iff.2 (by rw [hsrc.located.parent_eq, hpq])
  refine IsTree.setChild_some ?_ (located_relocate htaken.known)
  refine htree₁.relocate htaken.parent_eq (htree₁.free_of_uncached htaken (by simp [setChild])) hh.knownNew hdir fun n hn => ?_
  show Above (update x.parent d (some r.newParent)) root n
  rw [hsame]
  exact htree.rooted n hn

theorem frame_commitSameDir (hh : x.Held t r) (hsrc : x.IsSource r d) (hs : r.sameDir = true) (hu : u ≠ t) :
    Frame x (x.commitSameDir r d) u pc := by
  have hpq := eq_of_sameDir hs
  have hsame : update x.parent d (some r.newParent) = x.parent :=
    update_eq_self_iff.2 (by rw [hsrc.located.parent_eq, hpq])
  refine ((frame_setChild (not_other hh.lockOld hu)).trans
    (frame_relocate hsrc.located.parent_eq (not_other hh.lockOld hu) fun _ m n _ _ => ?_)).trans
    (frame_setChild (not_other hh.lockNew hu))
  show Above (update x.parent d (some r.newParent)) m n ↔ _
  rw [hsame]
  rfl

/-! ## The steps of a call -/

variable [DecidableEq τ] (h : s.Inv root)

include h

omit [DecidableEq τ] in
theorem Inv.fits_at (hpc : s.pc t = pc) : s.tree.Fits t pc := hpc ▸ h.fits t

/-- Call `t` leaves the dentries as `x` and goes on to `pc`. -/
theorem Inv.goto (htree : x.IsTree root) (hf : ∀ u, u ≠ t → Frame s.tree x u (s.pc u))
    (hdir : x.isDir = s.tree.isDir) (hfit : x.Fits t pc) (halone : s.Alone t pc) : (s.goto t x pc).Inv root := by
  have hother : ∀ u, u ≠ t → (s.goto t x pc).pc u = s.pc u := fun u hu => by simp [Renames.goto, hu]
  have hself : (s.goto t x pc).pc t = pc := by simp [Renames.goto]
  refine ⟨htree, fun u => ?_, fun u v hu hv => ?_⟩
  · by_cases hu : u = t
    · subst hu
      rw [hself]
      exact hfit
    · rw [hother u hu]
      exact (h.fits u).frame (hf u hu)
  · have hsingle : ∀ w, w ≠ t → ((s.goto t x pc).pc w).Relocates x.isDir →
        pc.Relocates x.isDir → False := by
      intro w hw hrel hpc
      rw [hother w hw, hdir] at hrel
      rw [hdir] at hpc
      rcases halone hpc with ht | hnone
      · exact hw (h.single w t hrel ht)
      · exact hnone w hw hrel
    have heq : (s.goto t x pc).tree = x := rfl
    rw [heq] at hu hv
    by_cases hut : u = t
    · subst hut
      by_cases hvt : v = u
      · exact hvt.symm
      · rw [hself] at hu
        exact (hsingle v hvt hv hu).elim
    · by_cases hvt : v = t
      · subst hvt
        rw [hself] at hv
        exact (hsingle u hut hu hv).elim
      · rw [hother u hut, hdir] at hu
        rw [hother v hvt, hdir] at hv
        exact h.single u v hu hv

/-- A call that is through with its work. -/
theorem Inv.through (htree : x.IsTree root) (hf : ∀ u, u ≠ t → Frame s.tree x u (s.pc u))
    (hdir : x.isDir = s.tree.isDir) (hheld : x.Held t r) : (s.goto t x (leave r)).Inv root :=
  h.goto htree hf hdir (fits_leave hheld) alone_leave

/-- The entry that a call is going to move is a directory. -/
def movesDir (s : Renames ν τ) (r : Rename ν) (found : Option ν) : Bool :=
  ((s.tree.children r.oldParent r.oldName).or found).any s.tree.isDir

/-- No other call is about to relocate a directory when a call that moves one to another directory has found it. -/
def Orderly (s : Renames ν τ) (t : τ) : RenameCmd ν → Prop
  | .next found _ => ∀ r, s.pc t = .source r → r.sameDir = false → s.movesDir r found = true →
      ∀ u, u ≠ t → ¬(s.pc u).Relocates s.tree.isDir
  | _ => True

def OrderlyStep (s s' : Renames ν τ) : Prop := ∃ t cmd, s.Orderly t cmd ∧ s.step t cmd = some s'

theorem Inv.lookSource {found ok} (ho : s.Orderly t (.next found ok))
    (hpc : s.pc t = .source r) (hstep : s.lookSource t r found = some s') : s'.Inv root := by
  have hh : s.tree.Held t r := h.fits_at hpc
  have halone : ∀ moved, (s.tree.children r.oldParent r.oldName).or found = some moved →
      s.Alone t (checked s.tree r moved) := by
    intro moved hsrc hrel
    obtain ⟨hdir, hcross⟩ := relocates_checked hrel
    exact .inr (ho r hpc hcross (by rw [movesDir, hsrc]; exact hdir))
  unfold Renames.lookSource at hstep
  split at hstep
  · cases hstep
    exact h.through h.tree (fun _ _ => .refl) rfl hh
  · cases hc : s.tree.children r.oldParent r.oldName with
    | some moved =>
      rw [hc] at hstep halone
      cases hstep
      have hsrc : s.tree.IsSource r moved :=
        ⟨h.tree.child _ _ _ hc, fun c hc' => some.inj (hc'.symm.trans hc)⟩
      exact h.goto h.tree (fun _ _ => .refl) rfl (fits_checked hh hsrc) (halone moved rfl)
    | none =>
      rw [hc] at hstep halone
      cases found with
      | none =>
        cases hstep
        exact h.through h.tree (fun _ _ => .refl) rfl hh
      | some d =>
        obtain ⟨hnew, hs'⟩ := ite_none_left_eq_some.1 hstep
        cases hs'
        rw [Bool.or_eq_true, not_or, Bool.not_eq_true, Bool.not_eq_true', Bool.not_eq_false] at hnew
        have hframe : ∀ u, Frame s.tree (s.tree.create d r.oldName r.oldParent) u (s.pc u) :=
          fun u => frame_create h.tree hnew.1
        have hsrc : (s.tree.create d r.oldName r.oldParent).IsSource r d := by
          refine ⟨located_create, fun c hc' => ?_⟩
          have hnone : s.tree.children r.oldParent r.oldName = some c := hc'
          cases hc.symm.trans hnone
        exact h.goto (h.tree.create hnew.1 hh.knownOld hnew.2) (fun u _ => hframe u) rfl
          (fits_checked ((hframe t).held hh) hsrc) (halone d rfl)

theorem Inv.backing {ok} (hpc : s.pc t = .backing r d) : (s.goto t s.tree (moved s.tree r d ok)).Inv root := by
  obtain ⟨hh, hsrc, hclear⟩ := h.fits_at hpc
  unfold moved
  split
  · rename_i hok
    simp only [Bool.and_eq_true] at hok
    refine h.goto h.tree (fun _ _ => .refl) rfl ⟨hh, hsrc, hclear, hok.1.1.2⟩ fun hrel => .inl ?_
    rw [hpc]
    exact hrel
  · exact h.through h.tree (fun _ _ => .refl) rfl hh

theorem Inv.uncacheOld (hpc : s.pc t = .uncacheOld r d) :
    (if r.sameDir then s.goto t (s.tree.commitSameDir r d) (leave r)
      else s.goto t (s.tree.setChild r.oldParent r.oldName none) (.uncacheNew r d)).Inv root := by
  obtain ⟨hh, hsrc, hclear, hnew⟩ := h.fits_at hpc
  split
  · rename_i hs
    exact h.through (isTree_commitSameDir h.tree hh hsrc hs hnew) (fun u hu => frame_commitSameDir hh hsrc hs hu) rfl
      ⟨hh.lockOld, hh.lockNew, hh.knownOld, hh.knownNew⟩
  · rename_i hcross
    rw [Bool.not_eq_true] at hcross
    refine h.goto h.tree.setChild_none (fun u hu => frame_setChild (not_other hh.lockOld hu)) rfl
      ⟨⟨hh.lockOld, hh.lockNew, hh.knownOld, hh.knownNew⟩, ⟨hsrc.located.setChild, by simp [setChild]⟩, hclear, hnew,
        hcross⟩ fun hrel => .inl ?_
    rw [hpc]
    exact hrel

theorem Inv.uncacheNew (hpc : s.pc t = .uncacheNew r d) :
    (s.goto t (s.tree.setChild r.newParent r.newName none) (.relocate r d)).Inv root := by
  obtain ⟨hh, htaken, hclear, hnew, hcross⟩ := h.fits_at hpc
  have hne := ne_of_not_sameDir hcross
  have hnone : (s.tree.setChild r.newParent r.newName none).children r.oldParent r.oldName = none := by
    simpa [setChild, hne] using htaken.uncached
  refine h.goto h.tree.setChild_none (fun u hu => frame_setChild (not_other hh.lockNew hu)) rfl
    ⟨⟨hh.lockOld, hh.lockNew, hh.knownOld, hh.knownNew⟩, ⟨htaken.located.setChild, hnone⟩, hclear, hnew, hcross⟩
    fun hrel => .inl ?_
  rw [hpc]
  exact hrel

theorem Inv.relocate (hpc : s.pc t = .relocate r d) :
    (s.goto t (s.tree.relocate d r.newName r.newParent) (.publish r d)).Inv root := by
  obtain ⟨hh, htaken, hclear, hnew, hcross⟩ := h.fits_at hpc
  have hnot : ¬Above s.tree.parent d r.newParent := by
    cases hd : s.tree.isDir d with
    | true => exact hclear hd hcross hnew
    | false => exact h.tree.not_above_file hd hnew
  have htree : (s.tree.relocate d r.newName r.newParent).IsTree root :=
    h.tree.relocate htaken.located.parent_eq (h.tree.free_of_uncached htaken.located htaken.uncached) hh.knownNew hnew fun n hn =>
      rooted_update (h.tree.rooted _ hh.knownNew) hnot (h.tree.rooted n hn)
  refine h.goto htree (fun u hu => ?_) rfl
    ⟨⟨hh.lockOld, hh.lockNew, hh.knownOld, hh.knownNew⟩, located_relocate htaken.located.known, hcross⟩ False.elim
  refine frame_relocate htaken.located.parent_eq (not_other hh.lockOld hu) fun hrel m n _ hn => ?_
  -- another call that relocates a directory only sees a file go
  cases hd : s.tree.isDir d with
  | false => exact h.tree.above_file hd hn
  | true =>
    refine absurd (h.single u t hrel ?_) hu
    rw [hpc]
    exact ⟨hd, hcross⟩

theorem Inv.lockFirst (hpc : s.pc t = .lockFirst r) (hfree : s.tree.namespaceLock r.first = none) :
    (s.goto t (s.tree.setLock r.first (some t)) (if r.sameDir then .source r else .lockSecond r)).Inv root := by
  have hfit := h.fits_at hpc
  have hlock : (s.tree.setLock r.first (some t)).namespaceLock r.first = some t := by simp [setLock]
  refine h.goto h.tree.setLock (fun u _ => frame_setLock (by simp [hfree])) rfl ?_ fun hrel => ?_
  · split
    · rename_i hs
      obtain ⟨hold, hnew⟩ :=
        both_of_first (P := fun d => (s.tree.setLock r.first (some t)).namespaceLock d = some t) hs hlock
      exact ⟨hold, hnew, hfit.1, hfit.2⟩
    · rename_i hcross
      exact ⟨hfit, hlock, Bool.eq_false_iff.2 hcross⟩
  · split at hrel <;> exact hrel.elim

theorem Inv.lockSecond (hpc : s.pc t = .lockSecond r) (hfree : s.tree.namespaceLock r.second = none) :
    (s.goto t (s.tree.setLock r.second (some t)) (.source r)).Inv root := by
  obtain ⟨hknown, hfirst, hcross⟩ := h.fits_at hpc
  have hne := first_ne_second hcross
  obtain ⟨hold, hnew⟩ := both_of_first_second (r := r)
    (P := fun d => (s.tree.setLock r.second (some t)).namespaceLock d = some t) (by simpa [setLock, hne] using hfirst)
    (by simp [setLock])
  exact h.goto h.tree.setLock (fun u _ => frame_setLock (by simp [hfree])) rfl
    ⟨hold, hnew, hknown.1, hknown.2⟩ False.elim

theorem Inv.publish (hpc : s.pc t = .publish r d) :
    (s.goto t (s.tree.setChild r.newParent r.newName (some d)) (leave r)).Inv root := by
  obtain ⟨hh, hloc, -⟩ := h.fits_at hpc
  exact h.through (h.tree.setChild_some hloc) (fun u hu => frame_setChild (not_other hh.lockNew hu)) rfl
    ⟨hh.lockOld, hh.lockNew, hh.knownOld, hh.knownNew⟩

theorem Inv.unlockSecond (hpc : s.pc t = .unlockSecond r) :
    (s.goto t (s.tree.setLock r.second none) (.unlockFirst r)).Inv root := by
  obtain ⟨hh, hcross⟩ := h.fits_at hpc
  have hfirst := first_of_both (P := fun d => s.tree.namespaceLock d = some t) hh.lockOld hh.lockNew
  have hsecond := second_of_both (P := fun d => s.tree.namespaceLock d = some t) hh.lockOld hh.lockNew
  have hne := first_ne_second hcross
  refine h.goto h.tree.setLock (fun u hu => frame_setLock (not_other hsecond hu)) rfl ?_ False.elim
  show (s.tree.setLock r.second none).namespaceLock r.first = some t
  simpa [setLock, hne] using hfirst

theorem Inv.next {found ok} (ho : s.Orderly t (.next found ok))
    (hstep : s.next t found ok = some s') : s'.Inv root := by
  cases hpc : s.pc t <;> simp only [Renames.next, hpc] at hstep
  case idle | resolveNew => cases hstep
  case lockFirst r =>
    obtain ⟨hfree, hs'⟩ := ite_none_left_eq_some.1 hstep
    cases hs'
    exact h.lockFirst hpc (not_isSome_iff_eq_none.1 hfree)
  case lockSecond r =>
    obtain ⟨hfree, hs'⟩ := ite_none_left_eq_some.1 hstep
    cases hs'
    exact h.lockSecond hpc (not_isSome_iff_eq_none.1 hfree)
  case source r =>
    exact h.lookSource ho hpc hstep
  case ancestors r moved node =>
    cases hstep
    refine h.goto h.tree (fun _ _ => .refl) rfl (fits_ancestor h.tree (h.fits_at hpc)) fun hrel => .inl ?_
    rw [hpc]
    exact relocates_ancestor hrel
  case backing r d =>
    cases hstep
    exact h.backing hpc
  case uncacheOld r d =>
    cases hstep
    have hd : (s.tree.children r.oldParent r.oldName).getD d = d := by
      cases hc : s.tree.children r.oldParent r.oldName with
      | none => rfl
      | some c => exact (h.fits_at hpc).2.1.cached c hc
    rw [hd]
    exact h.uncacheOld hpc
  case uncacheNew r d =>
    cases hstep
    exact h.uncacheNew hpc
  case relocate r d =>
    cases hstep
    exact h.relocate hpc
  case publish r d =>
    cases hstep
    exact h.publish hpc
  case unlockSecond r =>
    cases hstep
    exact h.unlockSecond hpc
  case unlockFirst r =>
    cases hstep
    exact h.goto h.tree.setLock (fun u hu => frame_setLock (not_other (h.fits_at hpc) hu)) rfl trivial False.elim

omit [DecidableEq τ] in
theorem Inv.findChild {keep : Bool} (hp : s.tree.known p = true) (hdir : s.tree.isDir p = true)
    (hfree : s.tree.namespaceLock p = none) (hd : s.tree.known d = false) :
    Inv root { s with
      tree := if keep then (s.tree.create d name p).setChild p name (some d) else s.tree.create d name p } := by
  have htree : (s.tree.create d name p).IsTree root := h.tree.create hd hp hdir
  have hf : ∀ u, Frame s.tree (s.tree.create d name p) u (s.pc u) := fun u => frame_create h.tree hd
  cases keep with
  | false => exact ⟨htree, fun u => (h.fits u).frame (hf u), h.single⟩
  | true =>
    refine ⟨htree.setChild_some located_create, fun u => (h.fits u).frame ((hf u).trans (frame_setChild ?_)), h.single⟩
    show s.tree.namespaceLock p ≠ some u
    simp [hfree]

theorem Inv.step (hstep : s.OrderlyStep s') : s'.Inv root := by
  obtain ⟨t, cmd, ho, hstep⟩ := hstep
  cases cmd with
  | resolveOld o n p =>
    obtain ⟨⟨-, hp⟩, rfl⟩ := of_guard hstep
    exact h.goto h.tree (fun _ _ => .refl) rfl hp False.elim
  | resolveNew q =>
    cases hpc : s.pc t <;> simp only [Renames.step, hpc, reduceCtorEq] at hstep
    rename_i o n p
    obtain ⟨hq, rfl⟩ := of_guard hstep
    exact h.goto h.tree (fun _ _ => .refl) rfl ⟨h.fits_at hpc, hq⟩ False.elim
  | giveUp =>
    cases hpc : s.pc t <;> simp only [Renames.step, hpc, reduceCtorEq] at hstep
    cases hstep
    exact h.goto h.tree (fun _ _ => .refl) rfl trivial False.elim
  | findChild p name d keep =>
    obtain ⟨⟨⟨hp, hdir, hfree⟩, -, -, hd⟩, rfl⟩ := of_guard hstep
    exact h.findChild hp hdir hfree hd
  | next found ok => exact h.next ho hstep

omit h

omit [DecidableEq τ] in
theorem inv_of_idle (htree : s.tree.IsTree root) (hidle : ∀ t, s.pc t = .idle) : s.Inv root := by
  refine ⟨htree, fun t => ?_, fun t u ht => ?_⟩
  · rw [hidle t]
    trivial
  · rw [hidle t] at ht
    exact ht.elim

/-- In an orderly run every dentry stays below the root, and so on no cycle of parents. -/
theorem renames_keep_tree (htree : s.tree.IsTree root) (hidle : ∀ t, s.pc t = .idle)
    (hrun : ReflTransGen OrderlyStep s s') (hd : s'.tree.known d = true) :
    Above s'.tree.parent root d ∧ ¬TransGen (fun a b => s'.tree.parent a = some b) d d := by
  have hinv : s'.Inv root := inv_of_reachable (inv_of_idle htree hidle) (fun _ _ h hstep => h.step hstep) hrun
  have hroot := hinv.tree.rooted d hd
  exact ⟨hroot, hroot.acyclic hinv.tree.rootParent⟩

/-! ## Runs on one tree -/

def decRelocates (isDir : ν → Bool) : (pc : RenamePc ν) → Decidable (pc.Relocates isDir)
  | .ancestors r moved _ => inferInstanceAs (Decidable (isDir moved = true ∧ r.sameDir = false))
  | .backing r moved => inferInstanceAs (Decidable (isDir moved = true ∧ r.sameDir = false))
  | .uncacheOld r moved => inferInstanceAs (Decidable (isDir moved = true ∧ r.sameDir = false))
  | .uncacheNew r moved => inferInstanceAs (Decidable (isDir moved = true ∧ r.sameDir = false))
  | .relocate r moved => inferInstanceAs (Decidable (isDir moved = true ∧ r.sameDir = false))
  | .idle => inferInstanceAs (Decidable False)
  | .resolveNew .. => inferInstanceAs (Decidable False)
  | .lockFirst _ => inferInstanceAs (Decidable False)
  | .lockSecond _ => inferInstanceAs (Decidable False)
  | .source _ => inferInstanceAs (Decidable False)
  | .publish .. => inferInstanceAs (Decidable False)
  | .unlockSecond _ => inferInstanceAs (Decidable False)
  | .unlockFirst _ => inferInstanceAs (Decidable False)

instance (isDir : ν → Bool) (pc : RenamePc ν) : Decidable (pc.Relocates isDir) := decRelocates isDir pc

/-- A step that is taken only if it is orderly. -/
def orderlyStep [Fintype τ] (s : Renames ν τ) : τ × RenameCmd ν → Option (Renames ν τ)
  | (t, .next found ok) =>
    match s.pc t with
    | .source r =>
      if r.sameDir = false ∧ s.movesDir r found = true → ∀ u, u ≠ t → ¬(s.pc u).Relocates s.tree.isDir then
        s.step t (.next found ok)
      else none
    | _ => s.step t (.next found ok)
  | (t, cmd) => s.step t cmd

theorem orderlyStep_spec [Fintype τ] {k} (h : s.orderlyStep k = some s') : s.OrderlyStep s' := by
  obtain ⟨t, cmd⟩ := k
  refine ⟨t, cmd, ?_⟩
  cases cmd with
  | next found ok =>
    cases hpc : s.pc t
    case source r =>
      simp only [orderlyStep, hpc] at h
      obtain ⟨ho, hstep⟩ := ite_none_right_eq_some.1 h
      refine ⟨fun r' hr' hcross hmoves => ho ?_, hstep⟩
      obtain rfl := RenamePc.source.inj (hpc.symm.trans hr')
      exact ⟨hcross, hmoves⟩
    all_goals
      simp only [orderlyStep, hpc] at h
      refine ⟨fun r hr => ?_, h⟩
      cases hpc.symm.trans hr
  | _ => exact ⟨trivial, h⟩

/-- `/p/a` and `/q/b`: the root, `p`, `q`, `a` and `b` are the dentries 0 to 4. -/
def twoBranches : DentryTree Nat τ where
  isDir _ := true
  mounted _ _ := false
  known d := d < 5
  children p name :=
    if p = 0 ∧ name = ['p'] then some 1 else if p = 0 ∧ name = ['q'] then some 2
    else if p = 1 ∧ name = ['a'] then some 3 else if p = 2 ∧ name = ['b'] then some 4 else none
  name d := if d = 1 then ['p'] else if d = 2 then ['q'] else if d = 3 then ['a'] else if d = 4 then ['b'] else []
  parent d := if d = 1 then some 0 else if d = 2 then some 0 else if d = 3 then some 1 else if d = 4 then some 2 else none
  namespaceLock _ := none

omit [DecidableEq τ] in
theorem isTree_twoBranches : (twoBranches : DentryTree Nat τ).IsTree 0 := by
  have h₁ : Above (twoBranches : DentryTree Nat τ).parent 0 1 := .of_parent rfl .refl
  have h₂ : Above (twoBranches : DentryTree Nat τ).parent 0 2 := .of_parent rfl .refl
  refine ⟨rfl, rfl, fun p name c hc => ?_, fun a b hab => ?_, fun d hd => ?_⟩
  · simp only [twoBranches] at hc
    split_ifs at hc with hp hq ha hb <;> cases hc
    · exact ⟨rfl, hp.2.symm, congrArg some hp.1.symm⟩
    · exact ⟨rfl, hq.2.symm, congrArg some hq.1.symm⟩
    · exact ⟨rfl, ha.2.symm, congrArg some ha.1.symm⟩
    · exact ⟨rfl, hb.2.symm, congrArg some hb.1.symm⟩
  · simp only [twoBranches] at hab
    split_ifs at hab <;> obtain rfl := some.inj hab <;> exact ⟨rfl, rfl⟩
  · have hlt : d < 5 := of_decide_eq_true hd
    interval_cases d
    · exact .refl
    · exact h₁
    · exact h₂
    · exact h₁.of_parent rfl
    · exact h₂.of_parent rfl

def branches : Renames Nat τ := ⟨twoBranches, fun _ => .idle⟩

def nexts (t : τ) (n : Nat) : List (τ × RenameCmd Nat) := List.replicate n (t, .next none true)

/-- `rename("/p/a", "/q/b/a")`. -/
def intoB (t : τ) : List (τ × RenameCmd Nat) := [(t, .resolveOld ['a'] ['a'] 1), (t, .resolveNew 4)]

/-- `rename("/q/b", "/p/a/b")`. -/
def intoA (t : τ) : List (τ × RenameCmd Nat) := [(t, .resolveOld ['b'] ['b'] 2), (t, .resolveNew 3)]

def oneByOne (t u : τ) : List (τ × RenameCmd Nat) := intoB t ++ intoA u ++ nexts t 13 ++ nexts u 7

/-- Both calls have been through the check when the first one moves its directory. -/
def crossing (t u : τ) : List (τ × RenameCmd Nat) := intoB t ++ intoA u ++ nexts t 6 ++ nexts u 6 ++ nexts t 7 ++ nexts u 7

/-- `renames_keep_tree` where the second call finds that its new parent has gone below what it moves. -/
theorem renames_keep_tree_one_by_one : ∃ s : Renames Nat (Fin 2), ReflTransGen OrderlyStep branches s ∧
    s.pc 1 = .idle ∧ s.tree.parent 3 = some 4 ∧ s.tree.parent 4 = some 2 ∧ Above s.tree.parent 0 3 ∧
    ¬TransGen (fun a b => s.tree.parent a = some b) 3 3 := by
  obtain ⟨s, hrun, hpc, h₃, h₄, hknown⟩ : ∃ s, (oneByOne (0 : Fin 2) 1).foldlM orderlyStep branches = some s ∧ s.pc 1 = .idle ∧
      s.tree.parent 3 = some 4 ∧ s.tree.parent 4 = some 2 ∧ s.tree.known 3 = true := exists_of_any (by decide +kernel)
  have hreach := reaches_of_foldlM (fun _ _ _ => orderlyStep_spec) hrun
  exact ⟨s, hreach, hpc, h₃, h₄, renames_keep_tree isTree_twoBranches (fun _ => rfl) hreach hknown⟩

/-- The two calls hold no lock in common: each has walked to the root when the other one moves its directory. -/
theorem renames_close_cycle : (twoBranches : DentryTree Nat (Fin 2)).IsTree 0 ∧
    ∃ s : Renames Nat (Fin 2), ReflTransGen Step branches s ∧
    s.pc 0 = .idle ∧ s.pc 1 = .idle ∧ s.tree.parent 3 = some 4 ∧ s.tree.parent 4 = some 3 ∧
    ¬Above s.tree.parent 0 3 ∧ TransGen (fun a b => s.tree.parent a = some b) 3 3 := by
  refine ⟨isTree_twoBranches, ?_⟩
  obtain ⟨s, hreach, hpc₀, hpc₁, h₃, h₄⟩ : ∃ s : Renames Nat (Fin 2), ReflTransGen Step branches s ∧ s.pc 0 = .idle ∧
      s.pc 1 = .idle ∧ s.tree.parent 3 = some 4 ∧ s.tree.parent 4 = some 3 :=
    exists_steps_of_any (crossing 0 1) (by decide +kernel)
  refine ⟨s, hreach, hpc₀, hpc₁, h₃, h₄, fun h => ?_, .tail (.single h₃) h₄⟩
  have hclosed : ∀ a ∈ ({3, 4} : Set Nat), ∀ b, s.tree.parent a = some b → b ∈ ({3, 4} : Set Nat) := by
    rintro a (rfl | rfl) b hb
    · rw [h₃] at hb
      exact .inr (some.inj hb).symm
    · rw [h₄] at hb
      exact .inl (some.inj hb).symm
  have hmem := h.mem_of_closed hclosed (.inl rfl)
  simp at hmem

end Renames

end ShellCore.Fs
