import ShellCore.Lib.Actors
import ShellCore.Lib.Forest
import ShellCore.Fs.Path

/-!
# Renames that run at the same time

`renameat2` resolves the two parents one after the other, takes their namespace locks in the order of their addresses
and then works in steps: it looks the source up, walks from the new parent to the root to see that a directory does not
go below itself, has the backing filesystem move the entry and brings the caches up to date. The walk reads parents
whose locks it does not hold.
-/

namespace ShellCore.Fs

open Function Forest

/-- What one call has resolved its two paths to. -/
structure Rename (ν : Type) where
  oldParent : ν
  oldName : Name
  newParent : ν
  newName : Name
deriving DecidableEq

namespace Rename

variable {ν : Type} [LinearOrder ν] (r : Rename ν)

def sameDir : Bool := r.oldParent == r.newParent

/-- The parent whose lock is taken first. -/
def first : ν := if r.oldParent < r.newParent then r.oldParent else r.newParent

def second : ν := if r.oldParent < r.newParent then r.newParent else r.oldParent

end Rename

inductive RenamePc (ν : Type) where
  | idle
  /-- The old parent is found. -/
  | resolveNew (oldName newName : Name) (oldParent : ν)
  | lockFirst (r : Rename ν)
  | lockSecond (r : Rename ν)
  | source (r : Rename ν)
  /-- The loop over the ancestors of the new parent is at `node`. -/
  | ancestors (r : Rename ν) (moved node : ν)
  | backing (r : Rename ν) (moved : ν)
  | uncacheOld (r : Rename ν) (moved : ν)
  | uncacheNew (r : Rename ν) (moved : ν)
  | relocate (r : Rename ν) (moved : ν)
  | publish (r : Rename ν) (moved : ν)
  | unlockSecond (r : Rename ν)
  | unlockFirst (r : Rename ν)
deriving DecidableEq

/-- The dentries. A dentry is known by its address; `known` are those that have been made. -/
structure DentryTree (ν τ : Type) where
  isDir : ν → Bool
  mounted : ν → Name → Bool
  known : ν → Bool
  children : ν → Name → Option ν
  name : ν → Name
  parent : ν → Option ν
  namespaceLock : ν → Option τ

namespace DentryTree

variable {ν τ : Type} [LinearOrder ν] (x : DentryTree ν τ)

def setLock (d : ν) (holder : Option τ) : DentryTree ν τ :=
  { x with namespaceLock := update x.namespaceLock d holder }

def setChild (p : ν) (name : Name) (c : Option ν) : DentryTree ν τ :=
  { x with children := update x.children p (update (x.children p) name c) }

def relocate (d : ν) (name : Name) (p : ν) : DentryTree ν τ :=
  { x with name := update x.name d name, parent := update x.parent d (some p) }

/-- `Dentry::new`. -/
def create (d : ν) (name : Name) (p : ν) : DentryTree ν τ :=
  { x.relocate d name p with known := update x.known d true }

/-- The cache of one directory is brought up to date in one section of its lock. -/
def commitSameDir (r : Rename ν) (moved : ν) : DentryTree ν τ :=
  ((x.setChild r.oldParent r.oldName none).relocate moved r.newName r.newParent).setChild r.newParent r.newName
    (some moved)

end DentryTree

open DentryTree

/-- The dentries and the calls on them. -/
structure Renames (ν τ : Type) where
  tree : DentryTree ν τ
  pc : τ → RenamePc ν

inductive RenameCmd (ν : Type) where
  | resolveOld (oldName newName : Name) (oldParent : ν)
  | resolveNew (newParent : ν)
  /-- A path does not resolve. -/
  | giveUp
  /-- `find_child` makes the dentry `d` for the entry `name` of `p`, and keeps it if the directory caches lookups. -/
  | findChild (p : ν) (name : Name) (d : ν) (keep : Bool)
  /-- The next step of a call; `found` is the new dentry for a source that is not cached, `ok` the answer of the backing
  filesystem to a request that it does not have to refuse. -/
  | next (found : Option ν) (ok : Bool)
deriving DecidableEq

namespace Renames

variable {ν τ : Type} [LinearOrder ν] [DecidableEq τ] (s : Renames ν τ)

/-- Call `t` leaves the dentries as `x` and goes on to `pc`. -/
def goto (t : τ) (x : DentryTree ν τ) (pc : RenamePc ν) : Renames ν τ :=
  { tree := x, pc := update s.pc t pc }

/-- Where a call goes that is through: a call within one directory holds one lock. -/
def leave (r : Rename ν) : RenamePc ν := if r.sameDir then .unlockFirst r else .unlockSecond r

variable (x : DentryTree ν τ)

/-- Where a call goes that has its source. -/
def checked (r : Rename ν) (moved : ν) : RenamePc ν :=
  if x.isDir moved && !r.sameDir then .ancestors r moved r.newParent else .backing r moved

/-- The names that no filesystem renames. -/
def reserved (name : Name) : Bool := name == [] || name == dot || name == dotdot

/-- The look at the mounts and for the source. -/
def lookSource (t : τ) (r : Rename ν) (found : Option ν) : Option (Renames ν τ) :=
  if s.tree.mounted r.oldParent r.oldName || s.tree.mounted r.newParent r.newName then some (s.goto t s.tree (leave r))
  else
    match s.tree.children r.oldParent r.oldName, found with
    | some moved, _ => some (s.goto t s.tree (checked s.tree r moved))
    | none, none => some (s.goto t s.tree (leave r))
    | none, some d =>
      if s.tree.known d || !s.tree.isDir r.oldParent then none
      else some (s.goto t (s.tree.create d r.oldName r.oldParent) (checked s.tree r d))

/-- One round of the loop over the ancestors. -/
def ancestor (r : Rename ν) (moved node : ν) : RenamePc ν :=
  if node = moved then leave r
  else
    match x.parent node with
    | some up => .ancestors r moved up
    | none => .backing r moved

/-- Where a call goes that has the answer of the backing filesystem. -/
def moved (r : Rename ν) (d : ν) (ok : Bool) : RenamePc ν :=
  if ok && x.isDir r.oldParent && x.isDir r.newParent && !reserved r.oldName && !reserved r.newName then .uncacheOld r d
  else leave r

def next (t : τ) (found : Option ν) (ok : Bool) : Option (Renames ν τ) :=
  match s.pc t with
  | .lockFirst r =>
    if (s.tree.namespaceLock r.first).isSome then none
    else some (s.goto t (s.tree.setLock r.first (some t)) (if r.sameDir then .source r else .lockSecond r))
  | .lockSecond r =>
    if (s.tree.namespaceLock r.second).isSome then none
    else some (s.goto t (s.tree.setLock r.second (some t)) (.source r))
  | .source r => s.lookSource t r found
  | .ancestors r moved node => some (s.goto t s.tree (ancestor s.tree r moved node))
  | .backing r d => some (s.goto t s.tree (moved s.tree r d ok))
  | .uncacheOld r d =>
    let d := (s.tree.children r.oldParent r.oldName).getD d
    some (if r.sameDir then s.goto t (s.tree.commitSameDir r d) (leave r)
      else s.goto t (s.tree.setChild r.oldParent r.oldName none) (.uncacheNew r d))
  | .uncacheNew r d => some (s.goto t (s.tree.setChild r.newParent r.newName none) (.relocate r d))
  | .relocate r d => some (s.goto t (s.tree.relocate d r.newName r.newParent) (.publish r d))
  | .publish r d => some (s.goto t (s.tree.setChild r.newParent r.newName (some d)) (leave r))
  | .unlockSecond r => some (s.goto t (s.tree.setLock r.second none) (.unlockFirst r))
  | .unlockFirst r => some (s.goto t (s.tree.setLock r.first none) .idle)
  | .idle => none
  | .resolveNew .. => none

def step (t : τ) : RenameCmd ν → Option (Renames ν τ)
  | .resolveOld oldName newName p =>
    if s.pc t = .idle ∧ s.tree.known p then some (s.goto t s.tree (.resolveNew oldName newName p)) else none
  | .resolveNew q =>
    match s.pc t with
    | .resolveNew oldName newName p =>
      if s.tree.known q then some (s.goto t s.tree (.lockFirst ⟨p, oldName, q, newName⟩)) else none
    | _ => none
  | .giveUp =>
    match s.pc t with
    | .resolveNew .. => some (s.goto t s.tree .idle)
    | _ => none
  | .findChild p name d keep =>
    if (s.tree.known p ∧ s.tree.isDir p ∧ s.tree.namespaceLock p = none) ∧ s.tree.mounted p name = false ∧
        s.tree.children p name = none ∧ s.tree.known d = false then
      let x := s.tree.create d name p
      some { s with tree := if keep then x.setChild p name (some d) else x }
    else none
  | .next found ok => s.next t found ok

def Step (s s' : Renames ν τ) : Prop := ∃ t cmd, s.step t cmd = some s'

end Renames

/-! ## What a call knows at each step -/

namespace Rename

variable {ν : Type} [LinearOrder ν] {r : Rename ν} {P : ν → Prop}

theorem both_of_first_second (h₁ : P r.first) (h₂ : P r.second) : P r.oldParent ∧ P r.newParent := by
  unfold first at h₁
  unfold second at h₂
  split at h₁
  · rename_i hlt
    rw [if_pos hlt] at h₂
    exact ⟨h₁, h₂⟩
  · rename_i hlt
    rw [if_neg hlt] at h₂
    exact ⟨h₂, h₁⟩

theorem first_of_both (h₁ : P r.oldParent) (h₂ : P r.newParent) : P r.first := by
  unfold first
  split
  · exact h₁
  · exact h₂

theorem second_of_both (h₁ : P r.oldParent) (h₂ : P r.newParent) : P r.second := by
  unfold second
  split
  · exact h₂
  · exact h₁

theorem eq_of_sameDir (h : r.sameDir = true) : r.oldParent = r.newParent := eq_of_beq h

theorem ne_of_not_sameDir (h : r.sameDir = false) : r.oldParent ≠ r.newParent := ne_of_beq_false h

theorem first_ne_second (h : r.sameDir = false) : r.first ≠ r.second := by
  have hne := ne_of_not_sameDir h
  unfold first second
  split
  · exact hne
  · exact hne.symm

theorem both_of_first (hs : r.sameDir = true) (h : P r.first) : P r.oldParent ∧ P r.newParent := by
  have heq := eq_of_sameDir hs
  rw [first, heq, ite_self] at h
  exact ⟨heq ▸ h, h⟩

end Rename

/-- The steps of a call that moves a directory to another one, from its walk over the ancestors until it is moved. -/
def RenamePc.Relocates {ν : Type} [LinearOrder ν] (isDir : ν → Bool) : RenamePc ν → Prop
  | .ancestors r moved _ => isDir moved = true ∧ r.sameDir = false
  | .backing r moved => isDir moved = true ∧ r.sameDir = false
  | .uncacheOld r moved => isDir moved = true ∧ r.sameDir = false
  | .uncacheNew r moved => isDir moved = true ∧ r.sameDir = false
  | .relocate r moved => isDir moved = true ∧ r.sameDir = false
  | _ => False

namespace DentryTree

variable {ν τ : Type} [LinearOrder ν]

/-- Both namespace locks are taken. -/
structure Held (x : DentryTree ν τ) (t : τ) (r : Rename ν) : Prop where
  lockOld : x.namespaceLock r.oldParent = some t
  lockNew : x.namespaceLock r.newParent = some t
  knownOld : x.known r.oldParent = true
  knownNew : x.known r.newParent = true

structure Located (x : DentryTree ν τ) (d : ν) (name : Name) (p : ν) : Prop where
  known : x.known d = true
  name_eq : x.name d = name
  parent_eq : x.parent d = some p

/-- The source of a call; it may be missing in the cache. -/
structure IsSource (x : DentryTree ν τ) (r : Rename ν) (moved : ν) : Prop where
  located : x.Located moved r.oldName r.oldParent
  cached : ∀ c, x.children r.oldParent r.oldName = some c → c = moved

/-- The source, which is in no cache any more. -/
structure IsTaken (x : DentryTree ν τ) (r : Rename ν) (moved : ν) : Prop where
  located : x.Located moved r.oldName r.oldParent
  uncached : x.children r.oldParent r.oldName = none

/-- A directory may go below the new parent. -/
def Clear (x : DentryTree ν τ) (r : Rename ν) (moved : ν) : Prop :=
  x.isDir moved = true → r.sameDir = false → x.isDir r.newParent = true → ¬Above x.parent moved r.newParent

/-- The walk has passed over nothing but other directories. -/
structure Walked (x : DentryTree ν τ) (r : Rename ν) (moved node : ν) : Prop where
  isDir : x.isDir node = true
  known : x.known node = true
  above : Above x.parent moved r.newParent → Above x.parent moved node

def Fits (x : DentryTree ν τ) (t : τ) : RenamePc ν → Prop
  | .idle => True
  | .resolveNew _ _ p => x.known p = true
  | .lockFirst r => x.known r.oldParent = true ∧ x.known r.newParent = true
  | .lockSecond r =>
    (x.known r.oldParent = true ∧ x.known r.newParent = true) ∧ x.namespaceLock r.first = some t ∧ r.sameDir = false
  | .source r => x.Held t r
  | .ancestors r moved node =>
    x.Held t r ∧ x.IsSource r moved ∧ (x.isDir moved = true ∧ r.sameDir = false) ∧
      (x.isDir r.newParent = true → x.Walked r moved node)
  | .backing r moved => x.Held t r ∧ x.IsSource r moved ∧ x.Clear r moved
  | .uncacheOld r moved => x.Held t r ∧ x.IsSource r moved ∧ x.Clear r moved ∧ x.isDir r.newParent = true
  | .uncacheNew r moved =>
    x.Held t r ∧ x.IsTaken r moved ∧ x.Clear r moved ∧ x.isDir r.newParent = true ∧ r.sameDir = false
  | .relocate r moved =>
    x.Held t r ∧ x.IsTaken r moved ∧ x.Clear r moved ∧ x.isDir r.newParent = true ∧ r.sameDir = false
  | .publish r moved => x.Held t r ∧ x.Located moved r.newName r.newParent ∧ r.sameDir = false
  | .unlockSecond r => x.Held t r ∧ r.sameDir = false
  | .unlockFirst r => x.namespaceLock r.first = some t

/-- The dentries form a tree. -/
structure IsTree (root : ν) (x : DentryTree ν τ) : Prop where
  rootKnown : x.known root = true
  rootParent : x.parent root = none
  child : ∀ p name c, x.children p name = some c → x.Located c name p
  dirs : ∀ a b, x.parent a = some b → x.isDir b = true ∧ x.known b = true
  rooted : ∀ d, x.known d = true → Above x.parent root d

/-! ## What a step leaves to the other calls -/

/-- `y` is `x` as far as call `u` can tell, which is at `pc`. -/
structure Frame (x y : DentryTree ν τ) (u : τ) (pc : RenamePc ν) : Prop where
  isDir : y.isDir = x.isDir
  known : ∀ d, x.known d = true → y.known d = true
  lock : ∀ d, x.namespaceLock d = some u → y.namespaceLock d = some u
  children : ∀ d, x.namespaceLock d = some u → y.children d = x.children d
  located : ∀ d p, x.namespaceLock p = some u → x.known d = true → x.parent d = some p →
    y.name d = x.name d ∧ y.parent d = x.parent d
  above : pc.Relocates x.isDir → ∀ d n, x.known n = true → x.isDir n = true → (Above y.parent d n ↔ Above x.parent d n)

variable {root : ν} {x y z : DentryTree ν τ} {t u : τ} {r : Rename ν} {d m n p q moved node : ν} {name : Name}
  {pc : RenamePc ν} (hf : Frame x y u pc)

include hf

theorem Frame.held (h : x.Held u r) : y.Held u r :=
  ⟨hf.lock _ h.lockOld, hf.lock _ h.lockNew, hf.known _ h.knownOld, hf.known _ h.knownNew⟩

theorem Frame.locatedAt (hl : x.namespaceLock p = some u) (h : x.Located d name p) : y.Located d name p := by
  obtain ⟨hname, hparent⟩ := hf.located d p hl h.known h.parent_eq
  exact ⟨hf.known _ h.known, hname.trans h.name_eq, hparent.trans h.parent_eq⟩

theorem Frame.isSource (hh : x.Held u r) (h : x.IsSource r moved) : y.IsSource r moved := by
  refine ⟨hf.locatedAt hh.lockOld h.located, fun c hc => h.cached c ?_⟩
  rw [← hf.children _ hh.lockOld]
  exact hc

theorem Frame.isTaken (hh : x.Held u r) (h : x.IsTaken r moved) : y.IsTaken r moved := by
  refine ⟨hf.locatedAt hh.lockOld h.located, ?_⟩
  rw [hf.children _ hh.lockOld]
  exact h.uncached

theorem Frame.clear (hh : x.Held u r)
    (hpc : x.isDir moved = true ∧ r.sameDir = false → pc.Relocates x.isDir) (h : x.Clear r moved) : y.Clear r moved := by
  intro hdir hcross hnew habove
  rw [hf.isDir] at hdir hnew
  exact h hdir hcross hnew ((hf.above (hpc ⟨hdir, hcross⟩) _ _ hh.knownNew hnew).1 habove)

omit hf

theorem Fits.frame (h : x.Fits u pc) (hf : Frame x y u pc) : y.Fits u pc := by
  have hdirs : ∀ d, x.isDir d = true → y.isDir d = true := fun d hd => by rw [hf.isDir]; exact hd
  cases pc with
  | idle => trivial
  | resolveNew o n p => exact hf.known _ h
  | lockFirst r => exact ⟨hf.known _ h.1, hf.known _ h.2⟩
  | lockSecond r => exact ⟨⟨hf.known _ h.1.1, hf.known _ h.1.2⟩, hf.lock _ h.2.1, h.2.2⟩
  | source r => exact hf.held h
  | ancestors r moved node =>
    obtain ⟨hh, hsrc, hdir, hw⟩ := h
    have habove := hf.above hdir
    refine ⟨hf.held hh, hf.isSource hh hsrc, ⟨hdirs _ hdir.1, hdir.2⟩, fun hnew => ?_⟩
    rw [hf.isDir] at hnew
    have hnode := hw hnew
    refine ⟨hdirs _ hnode.isDir, hf.known _ hnode.known, fun ha => ?_⟩
    exact (habove _ _ hnode.known hnode.isDir).2 (hnode.above ((habove _ _ hh.knownNew hnew).1 ha))
  | backing r moved => exact ⟨hf.held h.1, hf.isSource h.1 h.2.1, hf.clear h.1 id h.2.2⟩
  | uncacheOld r moved =>
    obtain ⟨hh, hsrc, hc, hnew⟩ := h
    exact ⟨hf.held hh, hf.isSource hh hsrc, hf.clear hh id hc, hdirs _ hnew⟩
  | uncacheNew r moved | relocate r moved =>
    obtain ⟨hh, htaken, hc, hnew, hcross⟩ := h
    exact ⟨hf.held hh, hf.isTaken hh htaken, hf.clear hh id hc, hdirs _ hnew, hcross⟩
  | publish r moved => exact ⟨hf.held h.1, hf.locatedAt h.1.lockNew h.2.1, h.2.2⟩
  | unlockSecond r => exact ⟨hf.held h.1, h.2⟩
  | unlockFirst r => exact hf.lock _ h

theorem Frame.refl : Frame x x u pc :=
  ⟨rfl, fun _ h => h, fun _ h => h, fun _ _ => rfl, fun _ _ _ _ _ => ⟨rfl, rfl⟩, fun _ _ _ _ _ => .rfl⟩

theorem Frame.trans (h₁ : Frame x y u pc) (h₂ : Frame y z u pc) : Frame x z u pc where
  isDir := h₂.isDir.trans h₁.isDir
  known d h := h₂.known d (h₁.known d h)
  lock d h := h₂.lock d (h₁.lock d h)
  children d h := (h₂.children d (h₁.lock d h)).trans (h₁.children d h)
  located d p hl hk hp := by
    obtain ⟨hname, hparent⟩ := h₁.located d p hl hk hp
    obtain ⟨hname', hparent'⟩ := h₂.located d p (h₁.lock p hl) (h₁.known d hk) (hparent.trans hp)
    exact ⟨hname'.trans hname, hparent'.trans hparent⟩
  above hrel d n hk hdir := by
    have hy := h₂.above
    rw [h₁.isDir] at hy
    exact (hy hrel d n (h₁.known n hk) hdir).trans (h₁.above hrel d n hk hdir)

theorem frame_setLock {holder} (h : x.namespaceLock d ≠ some u) : Frame x (x.setLock d holder) u pc where
  isDir := rfl
  known _ h := h
  lock d' hl := by
    have hne : d' ≠ d := by
      rintro rfl
      exact h hl
    simpa [setLock, hne] using hl
  children _ _ := rfl
  located _ _ _ _ _ := ⟨rfl, rfl⟩
  above _ _ _ _ _ := .rfl

theorem frame_setChild {c} (h : x.namespaceLock p ≠ some u) : Frame x (x.setChild p name c) u pc where
  isDir := rfl
  known _ h := h
  lock _ h := h
  children d' hl := by
    have hne : d' ≠ p := by
      rintro rfl
      exact h hl
    simp [setChild, hne]
  located _ _ _ _ _ := ⟨rfl, rfl⟩
  above _ _ _ _ _ := .rfl

attribute [simp] relocate create

theorem frame_relocate (hparent : x.parent d = some p) (h : x.namespaceLock p ≠ some u)
    (habove : pc.Relocates x.isDir → ∀ m n, x.known n = true → x.isDir n = true →
      (Above (update x.parent d (some q)) m n ↔ Above x.parent m n)) :
    Frame x (x.relocate d name q) u pc where
  isDir := rfl
  known _ h := h
  lock _ h := h
  children _ _ := rfl
  located d' p' hl _ hp := by
    have hne : d' ≠ d := by
      rintro rfl
      cases hparent.symm.trans hp
      exact h hl
    simp [hne]
  above := habove

variable (h : x.IsTree root)

include h

/-- A dentry that is made has nothing below it. -/
theorem IsTree.above_create (hd : x.known d = false) (hn : x.known n = true) {o} :
    Above (update x.parent d o) m n ↔ Above x.parent m n := by
  refine above_update_leaf (fun a ha => ?_) ?_
  · rw [(h.dirs a d ha).2] at hd
    cases hd
  · rintro rfl
    cases hn.symm.trans hd

/-- Nor has a file. -/
theorem IsTree.above_file (hd : x.isDir d = false) (hn : x.isDir n = true) {o} :
    Above (update x.parent d o) m n ↔ Above x.parent m n := by
  refine above_update_leaf (fun a ha => ?_) ?_
  · rw [(h.dirs a d ha).1] at hd
    cases hd
  · rintro rfl
    cases hn.symm.trans hd

omit [LinearOrder ν] in
theorem IsTree.not_above_file (hd : x.isDir d = false) (hn : x.isDir n = true) : ¬Above x.parent d n := by
  intro ha
  rcases ha.eq_or_parent with rfl | ⟨a, ha⟩
  · cases hn.symm.trans hd
  · rw [(h.dirs a d ha).1] at hd
    cases hd

theorem frame_create (hd : x.known d = false) : Frame x (x.create d name p) u pc where
  isDir := rfl
  known d' hk := by
    by_cases he : d' = d
    · simp [he]
    · simpa [he] using hk
  lock _ h := h
  children _ _ := rfl
  located d' _ _ hk _ := by
    have hne : d' ≠ d := by
      rintro rfl
      cases hk.symm.trans hd
    simp [hne]
  above _ _ _ hk _ := h.above_create hd hk

/-! ## The tree -/

omit h

theorem Located.setChild {name' c} (h : x.Located d name p) :
    (x.setChild q name' c).Located d name p :=
  ⟨h.known, h.name_eq, h.parent_eq⟩

theorem Located.setLock {holder} (h : x.Located d name p) : (x.setLock q holder).Located d name p :=
  ⟨h.known, h.name_eq, h.parent_eq⟩

theorem located_create : (x.create d name p).Located d name p :=
  ⟨by simp, by simp, by simp⟩

theorem located_relocate (h : x.known d = true) : (x.relocate d name p).Located d name p :=
  ⟨h, by simp, by simp⟩

include h

theorem IsTree.setLock {holder} : (x.setLock d holder).IsTree root :=
  ⟨h.rootKnown, h.rootParent, fun p name c hc => (h.child p name c hc).setLock, h.dirs, h.rooted⟩

theorem IsTree.setChild_none : (x.setChild p name none).IsTree root := by
  refine ⟨h.rootKnown, h.rootParent, fun p' name' c hc => (h.child p' name' c ?_).setChild, h.dirs, h.rooted⟩
  by_cases hp : p' = p
  · subst hp
    by_cases hn : name' = name
    · simp [setChild, hn] at hc
    · simpa [setChild, hn] using hc
  · simpa [setChild, hp] using hc

theorem IsTree.setChild_some (hd : x.Located d name p) : (x.setChild p name (some d)).IsTree root := by
  refine ⟨h.rootKnown, h.rootParent, fun p' name' c hc => ?_, h.dirs, h.rooted⟩
  by_cases hp : p' = p ∧ name' = name
  · obtain ⟨rfl, rfl⟩ := hp
    have hcd : d = c := by simpa [setChild] using hc
    rw [← hcd]
    exact hd.setChild
  · refine (h.child p' name' c ?_).setChild
    by_cases hp' : p' = p
    · subst hp'
      have hn : name' ≠ name := fun hn => hp ⟨rfl, hn⟩
      simpa [setChild, hn] using hc
    · simpa [setChild, hp'] using hc

theorem IsTree.create (hd : x.known d = false) (hp : x.known p = true) (hdir : x.isDir p = true) :
    (x.create d name p).IsTree root := by
  have hold : ∀ d', x.known d' = true → d' ≠ d := by
    rintro d' hk rfl
    cases hk.symm.trans hd
  have hroot := hold root h.rootKnown
  refine ⟨?_, ?_, fun p' name' c hc => ?_, fun a b hab => ?_, fun d' hk => ?_⟩
  · simpa [create, hroot] using h.rootKnown
  · simpa [create, hroot] using h.rootParent
  · have hl := h.child p' name' c hc
    have hne := hold c hl.known
    refine ⟨?_, ?_, ?_⟩
    · simpa [create, hne] using hl.known
    · simpa [create, hne] using hl.name_eq
    · simpa [create, hne] using hl.parent_eq
  · have hb : x.isDir b = true ∧ x.known b = true := by
      by_cases ha : a = d
      · subst ha
        obtain rfl : p = b := by simpa [create] using hab
        exact ⟨hdir, hp⟩
      · exact h.dirs a b (by simpa [create, ha] using hab)
    have hne := hold b hb.2
    exact ⟨hb.1, by simpa [create, hne] using hb.2⟩
  · have hroot : ∀ n, x.known n = true → Above (x.create d name p).parent root n :=
      fun n hn => (h.above_create hd hn).2 (h.rooted n hn)
    by_cases hdd : d' = d
    · subst hdd
      exact (hroot p hp).of_parent (by simp [create])
    · exact hroot d' (by simpa [create, hdd] using hk)

/-- A dentry that is in no cache goes to another directory. -/
theorem IsTree.relocate (hp : x.parent d = some p) (hfree : ∀ p' n', x.children p' n' ≠ some d)
    (hq : x.known q = true) (hdir : x.isDir q = true) (hroot : ∀ n, x.known n = true → Above (update x.parent d (some q)) root n) :
    (x.relocate d name q).IsTree root := by
  have hne : root ≠ d := by
    rintro rfl
    cases h.rootParent.symm.trans hp
  refine ⟨h.rootKnown, ?_, fun p' name' c hc => ?_, fun a b hab => ?_, hroot⟩
  · simpa [relocate, hne] using h.rootParent
  · have hne : c ≠ d := by
      rintro rfl
      exact hfree _ _ hc
    have hl := h.child p' name' c hc
    refine ⟨hl.known, ?_, ?_⟩
    · simpa [relocate, hne] using hl.name_eq
    · simpa [relocate, hne] using hl.parent_eq
  · by_cases ha : a = d
    · subst ha
      obtain rfl : q = b := by simpa [relocate] using hab
      exact ⟨hdir, hq⟩
    · exact h.dirs a b (by simpa [relocate, ha] using hab)

omit [LinearOrder ν] in
/-- What has been taken out of the cache is in no other. -/
theorem IsTree.free_of_uncached (hd : x.Located d name p) (hnone : x.children p name = none)
    (p' : ν) (name' : Name) : x.children p' name' ≠ some d := by
  intro hc
  have hl := h.child p' name' d hc
  obtain rfl : p = p' := Option.some.inj (hd.parent_eq.symm.trans hl.parent_eq)
  obtain rfl : name = name' := hd.name_eq.symm.trans hl.name_eq
  cases hnone.symm.trans hc

end DentryTree

end ShellCore.Fs
