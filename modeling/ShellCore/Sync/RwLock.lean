import ShellCore.Lib.Actors

/-!
# The writer-preferring reader-writer lock

Every call of `read` or `write`, with the guard it yields, is an actor; there are arbitrarily many.
`state` is the number of readers or -1, `asked_write` the number of writers that have registered.
Each atomic operation of the source is one step, so a step is the next operation of one actor, or
what the owner of a guard chooses to do with it.
-/

namespace ShellCore.Sync

open Function

/-- Where an actor stands in `read`, `write` or with its guard. -/
inductive Pc where
  | idle
  /-- `read`: before the load of `state`. -/
  | readStart
  /-- `read`: `state` was loaded and is not negative. -/
  | readLoaded (state : Int)
  /-- `read`: `asked_write` was loaded as 0, before the compare-exchange. -/
  | readCas (state : Int)
  /-- `read`: the compare-exchange succeeded, before `asked_write` is loaded again. -/
  | readRecheck
  /-- `read`: a writer has registered, before the reader gives its count back. -/
  | readRetreat
  | readGuard
  /-- `write`: before the writer registers. -/
  | writeAsk
  /-- `write`: before the load of `state`. -/
  | writeStart
  /-- `write`: `state` was loaded as 0, before the compare-exchange. -/
  | writeCas
  /-- `write`: the lock is taken, before the writer takes itself off `asked_write`. -/
  | writeTaken
  | writeGuard
deriving DecidableEq

structure RwLock (α : Type*) where
  state : Int
  askedWrite : Int
  pc : α → Pc

/-- What an actor does next: begin a call, run its next atomic operation, or end its guard. -/
inductive Act where
  | read
  | write
  | next
  | drop
  | downgrade
deriving DecidableEq

namespace RwLock

variable {α : Type*} [DecidableEq α]

def new : RwLock α where
  state := 0
  askedWrite := 0
  pc _ := .idle

variable (l : RwLock α) (t : α)

def goto (pc : Pc) : RwLock α := { l with pc := update l.pc t pc }

@[simp] theorem goto_pc_self (pc : Pc) : (l.goto t pc).pc t = pc := update_self ..

/-- The next atomic operation of `read` or `write`. -/
def next : Option (RwLock α) :=
  match l.pc t with
  | .readStart => some (l.goto t (if 0 ≤ l.state then .readLoaded l.state else .readStart))
  | .readLoaded state => some (l.goto t (if l.askedWrite = 0 then .readCas state else .readStart))
  | .readCas state =>
    if l.state = state then some ({ l with state := state + 1 }.goto t .readRecheck)
    else some (l.goto t .readStart)
  | .readRecheck => some (l.goto t (if l.askedWrite = 0 then .readGuard else .readRetreat))
  | .readRetreat => some ({ l with state := l.state - 1 }.goto t .readStart)
  | .writeAsk => some ({ l with askedWrite := l.askedWrite + 1 }.goto t .writeStart)
  | .writeStart => some (l.goto t (if l.state = 0 then .writeCas else .writeStart))
  | .writeCas =>
    if l.state = 0 then some ({ l with state := -1 }.goto t .writeTaken)
    else some (l.goto t .writeStart)
  | .writeTaken => some ({ l with askedWrite := l.askedWrite - 1 }.goto t .writeGuard)
  | .idle | .readGuard | .writeGuard => none

/-- `drop` of either guard: a reader counts itself out, a writer stores 0. -/
def dropGuard : Option (RwLock α) :=
  match l.pc t with
  | .readGuard => some ({ l with state := l.state - 1 }.goto t .idle)
  | .writeGuard => some ({ l with state := 0 }.goto t .idle)
  | _ => none

/-- `downgrade`: one swap turns the write guard into a read guard. -/
def downgrade : Option (RwLock α) :=
  match l.pc t with
  | .writeGuard => some ({ l with state := 1 }.goto t .readGuard)
  | _ => none

def step : Act → Option (RwLock α)
  | .read => if l.pc t = .idle then some (l.goto t .readStart) else none
  | .write => if l.pc t = .idle then some (l.goto t .writeAsk) else none
  | .next => l.next t
  | .drop => l.dropGuard t
  | .downgrade => l.downgrade t

/-- Some actor takes a step. -/
def Step (l l' : RwLock α) : Prop := ∃ t a, l.step t a = some l'

def Reachable : Prop := Relation.ReflTransGen Step new l

def run : RwLock α → List (α × Act) → Option (RwLock α) := runCalls step

end RwLock

namespace Pc

variable (pc : Pc)

/-- A reader that is counted in `state` but has no guard yet: it may still have to retreat. -/
def InRetreatWindow : Prop := pc = .readRecheck ∨ pc = .readRetreat

/-- A reader that is counted in `state`. -/
def Counted : Prop := pc = .readGuard ∨ pc.InRetreatWindow

/-- The write guard lives from the compare-exchange that takes the lock. -/
def HasWrite : Prop := pc = .writeTaken ∨ pc = .writeGuard

/-- A writer that has registered and has not taken the lock. -/
def Waiting : Prop := pc = .writeStart ∨ pc = .writeCas

/-- A writer that is counted in `asked_write`. -/
def Asked : Prop := pc.Waiting ∨ pc = .writeTaken

attribute [simp] InRetreatWindow Counted HasWrite Waiting Asked

end Pc

namespace RwLock

open Pc

variable {α : Type*} {l l' : RwLock α} {t : α} {pc : Pc}

/-- The invariant: `asked_write` counts the registered writers; while a writer has the lock it is
alone and `state` is -1, otherwise `state` counts the readers. -/
structure Inv (l : RwLock α) : Prop where
  finiteCounted : (actorsIn Counted l.pc).Finite
  finiteAsked : (actorsIn Asked l.pc).Finite
  asked : l.askedWrite = countOf Asked l.pc
  loaded : ∀ t s, l.pc t = .readLoaded s ∨ l.pc t = .readCas s → 0 ≤ s
  owner : ∀ t, HasWrite (l.pc t) → l.state = -1 ∧ (∀ u, ¬Counted (l.pc u)) ∧ ∀ u, HasWrite (l.pc u) → u = t
  free : (∀ t, ¬HasWrite (l.pc t)) → l.state = countOf Counted l.pc

variable (h : l.Inv)

include h

theorem not_hasWrite (hs : 0 ≤ l.state) (t : α) : ¬HasWrite (l.pc t) := by
  intro hw
  have := (h.owner t hw).1
  omega

omit h in
theorem inv_new : Inv (new : RwLock α) := by
  have hc : actorsIn Counted (new : RwLock α).pc = ∅ := actorsIn_const (by simp)
  have ha : actorsIn Asked (new : RwLock α).pc = ∅ := actorsIn_const (by simp)
  refine ⟨hc ▸ Set.finite_empty, ha ▸ Set.finite_empty, ?_, ?_, ?_, ?_⟩
  · rw [countOf, ha, Set.ncard_empty]
    rfl
  · rintro t s (h | h) <;> cases h
  · rintro t (h | h) <;> cases h
  · intro _
    rw [countOf, hc, Set.ncard_empty]
    rfl

/-- A reader that is counted keeps writers out. -/
theorem Inv.no_writer (hc : Counted (l.pc t)) (u : α) : ¬HasWrite (l.pc u) :=
  fun hw => (h.owner u hw).2.1 t hc

omit h in
/-- The two kinds of counted readers, counted apart. -/
theorem countOf_counted (hf : (actorsIn Counted l.pc).Finite) :
    countOf Counted l.pc = countOf (· = .readGuard) l.pc + countOf InRetreatWindow l.pc := by
  have hunion : actorsIn Counted l.pc = actorsIn (· = .readGuard) l.pc ∪ actorsIn InRetreatWindow l.pc := rfl
  have hdisj : Disjoint (actorsIn (· = .readGuard) l.pc) (actorsIn InRetreatWindow l.pc) := by
    refine Set.disjoint_left.2 fun x hx hw => ?_
    have hx : l.pc x = .readGuard := hx
    have hw : InRetreatWindow (l.pc x) := hw
    simp [hx] at hw
  rw [hunion] at hf
  rw [countOf, hunion, Set.ncard_union_eq hdisj (hf.subset Set.subset_union_left) (hf.subset Set.subset_union_right)]
  rfl

theorem Inv.state_eq_neg_one_iff : l.state = -1 ↔ ∃ t, HasWrite (l.pc t) := by
  constructor
  · intro hs
    by_contra hno
    have := h.free fun t ht => hno ⟨t, ht⟩
    omega
  · rintro ⟨t, ht⟩
    exact (h.owner t ht).1

variable [DecidableEq α] (hl : ∀ s, pc = .readLoaded s ∨ pc = .readCas s → 0 ≤ s)

include hl

/-- The invariant after one actor has moved to `pc`, from what the step does to the two words. -/
theorem Inv.of_words {state asked : Int} (ha : asked = countOf Asked (update l.pc t pc))
    (howner : ∀ u, HasWrite (update l.pc t pc u) → state = -1 ∧
      (∀ v, ¬Counted (update l.pc t pc v)) ∧ ∀ v, HasWrite (update l.pc t pc v) → v = u)
    (hfree : (∀ u, ¬HasWrite (update l.pc t pc u)) → state = countOf Counted (update l.pc t pc)) :
    Inv { state, askedWrite := asked, pc := update l.pc t pc } where
  finiteCounted := finite_actorsIn_update h.finiteCounted
  finiteAsked := finite_actorsIn_update h.finiteAsked
  asked := ha
  loaded u := forall_update (motive := fun _ (p : Pc) => ∀ s, p = .readLoaded s ∨ p = .readCas s → 0 ≤ s) u hl h.loaded
  owner := howner
  free := hfree

/-- A step that leaves `state` alone and neither takes nor gives the lock. -/
theorem Inv.keepState {asked : Int} (hc : pc.Counted ↔ (l.pc t).Counted) (hw : pc.HasWrite ↔ (l.pc t).HasWrite)
    (ha : asked = countOf Asked (update l.pc t pc)) :
    Inv { l with askedWrite := asked, pc := update l.pc t pc } := by
  have hmem : ∀ u, HasWrite (update l.pc t pc u) ↔ HasWrite (l.pc u) :=
    fun u => Set.ext_iff.1 (actorsIn_update_same hw) u
  have hcmem : ∀ u, Counted (update l.pc t pc u) ↔ Counted (l.pc u) :=
    fun u => Set.ext_iff.1 (actorsIn_update_same hc) u
  refine h.of_words hl ha (fun u hu => ?_) fun hno => ?_
  · obtain ⟨hs, hnone, honly⟩ := h.owner u ((hmem u).1 hu)
    exact ⟨hs, fun v => mt (hcmem v).1 (hnone v), fun v hv => honly v ((hmem v).1 hv)⟩
  · rw [countOf_update_same hc]
    exact h.free fun u => mt (hmem u).2 (hno u)

/-- A step that touches neither word. -/
theorem Inv.neutral
    (hc : pc.Counted ↔ (l.pc t).Counted) (hw : pc.HasWrite ↔ (l.pc t).HasWrite) (ha : pc.Asked ↔ (l.pc t).Asked) :
    Inv (l.goto t pc) :=
  h.keepState hl hc hw (h.asked.trans (congrArg Nat.cast (countOf_update_same ha).symm))

/-- A step that changes the readers while no writer has the lock. -/
theorem Inv.countReaders {state : Int}
    (hno : ∀ u, ¬HasWrite (l.pc u)) (hw : ¬pc.HasWrite) (ha : pc.Asked ↔ (l.pc t).Asked)
    (hs : state = countOf Counted (update l.pc t pc)) : Inv ({ l with state }.goto t pc) := by
  have hno' : ∀ u, ¬HasWrite (update l.pc t pc u) := fun u => forall_update u hw hno
  exact h.of_words hl (h.asked.trans (congrArg Nat.cast (countOf_update_same ha).symm))
    (fun u hu => absurd hu (hno' u)) fun _ => hs

omit hl

/-- The compare-exchange of a reader. -/
theorem Inv.enterReader (hpc : l.pc t = .readCas l.state) :
    Inv ({ l with state := l.state + 1 }.goto t .readRecheck) := by
  have hno := not_hasWrite h (h.loaded t _ (Or.inr hpc))
  refine h.countReaders (by simp) hno (by simp) (by simp [hpc]) ?_
  rw [countOf_update_enter h.finiteCounted (by simp [hpc])
    (by simp), h.free hno]
  rfl

/-- A counted reader gives its count back. -/
theorem Inv.leaveReader (hold : Counted (l.pc t)) (hpc : pc = .idle ∨ pc = .readStart) :
    Inv ({ l with state := l.state - 1 }.goto t pc) := by
  have hno := h.no_writer hold
  have hasked : ¬(l.pc t).Asked := by
    rcases hold with hp | hp | hp <;> simp [hp]
  have hnew : ¬pc.Counted ∧ ¬pc.HasWrite ∧ ¬pc.Asked ∧ ∀ s, ¬(pc = .readLoaded s ∨ pc = .readCas s) := by
    rcases hpc with rfl | rfl <;> simp
  refine h.countReaders (fun s hs => absurd hs (hnew.2.2.2 s)) hno hnew.2.1 (iff_of_false hnew.2.2.1 hasked) ?_
  have := countOf_update_leave h.finiteCounted hold hnew.1
  rw [h.free hno]
  omega

/-- The compare-exchange of a writer: no reader is counted, so it is alone. -/
theorem Inv.takeWrite (hpc : l.pc t = .writeCas) (hs : l.state = 0) :
    Inv ({ l with state := -1 }.goto t .writeTaken) := by
  have hno := not_hasWrite h (by omega)
  have hzero : countOf Counted l.pc = 0 := by
    have := h.free hno
    omega
  have hnone := (countOf_eq_zero h.finiteCounted).1 hzero
  have hasked : Asked .writeTaken ↔ Asked (l.pc t) := by simp [hpc]
  refine h.of_words (by simp) (h.asked.trans (congrArg Nat.cast (countOf_update_same hasked).symm)) ?_ ?_
  · intro u hu
    have honly : ∀ v, HasWrite (update l.pc t .writeTaken v) → v = t := by
      intro v hv
      by_contra hne
      rw [update_of_ne hne] at hv
      exact hno v hv
    refine ⟨rfl, fun v hv => ?_, fun v hv => (honly v hv).trans (honly u hu).symm⟩
    revert hv
    exact forall_update v (by simp) hnone
  · intro hall
    refine absurd ?_ (hall t)
    rw [update_self]
    exact Or.inl rfl

/-- The writer ends its guard, or turns it into a read guard. -/
theorem Inv.endWrite (hold : l.pc t = .writeGuard) {state : Int}
    (hpc : pc = .idle ∧ state = 0 ∨ pc = .readGuard ∧ state = 1) : Inv ({ l with state }.goto t pc) := by
  obtain ⟨_, hnone, honly⟩ := h.owner t (Or.inr hold)
  have hzero : countOf Counted l.pc = 0 := (countOf_eq_zero h.finiteCounted).2 hnone
  have hnew : ¬pc.HasWrite ∧ ¬pc.Asked ∧ ∀ s, ¬(pc = .readLoaded s ∨ pc = .readCas s) := by
    rcases hpc with ⟨rfl, _⟩ | ⟨rfl, _⟩ <;> simp
  have hno : ∀ u, ¬HasWrite (update l.pc t pc u) := by
    exact fun u => forall_update_of_ne u hnew.1 fun u hut hu => hut (honly u hu)
  have hasked : pc.Asked ↔ (l.pc t).Asked := iff_of_false hnew.2.1 (by simp [hold])
  refine h.of_words (fun s hs => absurd hs (hnew.2.2 s))
    (h.asked.trans (congrArg Nat.cast (countOf_update_same hasked).symm)) (fun u hu => absurd hu (hno u)) fun _ => ?_
  rcases hpc with ⟨rfl, rfl⟩ | ⟨rfl, rfl⟩
  · rw [countOf_update_same (by simp [hold]), hzero]
    rfl
  · rw [countOf_update_enter h.finiteCounted (hnone t) (Or.inl rfl), hzero]
    rfl

/-- The next atomic operation of a call keeps the invariant. -/
theorem Inv.next (hs : l.next t = some l') : l'.Inv := by
  cases hpc : l.pc t <;> simp only [RwLock.next, hpc] at hs
  case idle | readGuard | writeGuard =>
    cases hs
  case readStart =>
    cases hs
    refine h.neutral ?_ ?_ ?_ ?_
    · split <;> simp only [Pc.readLoaded.injEq, reduceCtorEq, or_false, IsEmpty.forall_iff, implies_true]
      rintro s rfl
      assumption
    all_goals split <;> simp [hpc]
  case readLoaded s =>
    cases hs
    refine h.neutral ?_ ?_ ?_ ?_
    · split <;> simp only [Pc.readCas.injEq, reduceCtorEq, or_false, false_or, IsEmpty.forall_iff, implies_true]
      rintro s' rfl
      exact h.loaded t s (Or.inl hpc)
    all_goals split <;> simp [hpc]
  case readCas s =>
    split at hs
    · rename_i heq
      subst heq
      cases hs
      exact h.enterReader hpc
    · cases hs
      refine h.neutral (by simp) ?_ ?_ ?_
      all_goals simp [hpc]
  case readRecheck | writeStart =>
    cases hs
    refine h.neutral ?_ ?_ ?_ ?_
    all_goals split <;> simp [hpc]
  case readRetreat =>
    cases hs
    exact h.leaveReader (Or.inr (Or.inr hpc)) (Or.inr rfl)
  case writeAsk =>
    cases hs
    refine h.keepState (by simp) ?_ ?_ ?_
    · simp [hpc]
    · simp [hpc]
    · rw [countOf_update_enter h.finiteAsked (by simp [hpc]) (by simp), h.asked]
      rfl
  case writeCas =>
    split at hs
    · cases hs
      exact h.takeWrite hpc (by assumption)
    · cases hs
      refine h.neutral (by simp) ?_ ?_ ?_
      all_goals simp [hpc]
  case writeTaken =>
    cases hs
    refine h.keepState (by simp) ?_ ?_ ?_
    · simp [hpc]
    · simp [hpc]
    · have := countOf_update_leave (v := Pc.writeGuard) h.finiteAsked (show Asked (l.pc t) from Or.inr hpc)
        (by simp)
      show l.askedWrite - 1 = _
      rw [h.asked]
      omega

theorem Inv.step {a : Act} (hs : l.step t a = some l') : l'.Inv := by
  cases a with
  | next => exact h.next hs
  | read | write =>
    simp only [RwLock.step] at hs
    split at hs
    · rename_i hpc
      cases hs
      refine h.neutral (by simp) ?_ ?_ ?_
      all_goals simp [hpc]
    · cases hs
  | drop =>
    simp only [RwLock.step, dropGuard] at hs
    split at hs
    · cases hs
      exact h.leaveReader (Or.inl (by assumption)) (Or.inl rfl)
    · cases hs
      exact h.endWrite (by assumption) (Or.inl ⟨rfl, rfl⟩)
    · cases hs
  | downgrade =>
    simp only [RwLock.step, RwLock.downgrade] at hs
    split at hs
    · cases hs
      exact h.endWrite (by assumption) (Or.inr ⟨rfl, rfl⟩)
    · cases hs

omit h

theorem Reachable.inv (h : l.Reachable) : l.Inv :=
  inv_of_reachable inv_new (fun _ _ hinv ⟨_, _, hs⟩ => hinv.step hs) h

/-! ## What the lock guarantees -/

/-- `read` hands out a guard only when it has just seen `asked_write` at 0. -/
theorem next_readGuard (hs : l.next t = some l') (hg : l'.pc t = .readGuard) :
    l.pc t = .readRecheck ∧ l.askedWrite = 0 := by
  cases hpc : l.pc t <;> simp only [RwLock.next, hpc] at hs
  case readRecheck =>
    cases hs
    rw [goto_pc_self] at hg
    split at hg
    · exact ⟨rfl, by assumption⟩
    · cases hg
  case idle | readGuard | writeGuard =>
    cases hs
  case readCas | writeCas =>
    split at hs <;> obtain rfl := Option.some.inj hs <;> rw [goto_pc_self] at hg <;> cases hg
  case readStart | readLoaded | writeStart =>
    cases hs
    rw [goto_pc_self] at hg
    split at hg <;> cases hg
  case readRetreat | writeAsk | writeTaken =>
    cases hs
    rw [goto_pc_self] at hg
    cases hg

/-- The guarantees of the lock in a state `l`. -/
structure Correct (l : RwLock α) : Prop where
  /-- A write guard excludes every other guard. -/
  exclusive : ∀ t u, HasWrite (l.pc t) → HasWrite (l.pc u) ∨ l.pc u = .readGuard → u = t
  /-- `state` is -1 exactly when a write guard lives, -/
  writer : l.state = -1 ↔ ∃ t, HasWrite (l.pc t)
  /-- and otherwise the number of read guards and of readers that may still retreat. -/
  readers : (∀ t, ¬HasWrite (l.pc t)) →
    l.state = countOf (· = .readGuard) l.pc + countOf InRetreatWindow l.pc
  /-- Downgrading finds -1, and no write guard lives as long as the new read guard does. -/
  downgrades : ∀ t l', l.step t .downgrade = some l' → l.state = -1 ∧ l'.pc t = .readGuard ∧
    ∀ l'', Relation.ReflTransGen (fun x y => Step x y ∧ y.pc t = .readGuard) l' l'' → ∀ u, ¬HasWrite (l''.pc u)
  /-- `read` hands out a guard only while no writer waits. -/
  handsOut : ∀ t l', l.step t .next = some l' → l'.pc t = .readGuard → ∀ u, ¬Waiting (l.pc u)

/-- No interleaving of the atomic steps breaks the lock. -/
theorem correct_of_reachable (h : l.Reachable) : l.Correct := by
  have hinv := h.inv
  refine ⟨fun t u ht hu => ?_, hinv.state_eq_neg_one_iff, fun hno => ?_, fun t l' hs => ?_, fun t l' hs hg u hu => ?_⟩
  · obtain ⟨_, hnone, honly⟩ := hinv.owner t ht
    rcases hu with hu | hu
    · exact honly u hu
    · exact absurd (Or.inl hu) (hnone u)
  · rw [hinv.free hno, countOf_counted hinv.finiteCounted]
    rfl
  · have hstep := hs
    simp only [RwLock.step, RwLock.downgrade] at hs
    split at hs
    · rename_i hpc
      cases hs
      have hguard : ({ l with state := 1 }.goto t .readGuard).pc t = .readGuard := goto_pc_self ..
      refine ⟨(hinv.owner t (Or.inr hpc)).1, hguard, fun l'' hrun => ?_⟩
      -- along the run the lock stays correct and the actor keeps its read guard
      have hkept : Inv l'' ∧ l''.pc t = .readGuard := by
        induction hrun with
        | refl => exact ⟨hinv.step hstep, hguard⟩
        | tail _ hlast ih =>
          obtain ⟨⟨u, a, hxy⟩, hkeep⟩ := hlast
          exact ⟨ih.1.step hxy, hkeep⟩
      exact hkept.1.no_writer (Or.inl hkept.2)
    · cases hs
  · obtain ⟨_, hzero⟩ := next_readGuard hs hg
    have hcount : countOf Asked l.pc = 0 := by
      have := hinv.asked
      omega
    exact (countOf_eq_zero hinv.finiteAsked).1 hcount u (Or.inl hu)

/-- One actor takes the lock to write while another one registers. -/
def contended : List (Bool × Act) :=
  [(false, .write), (false, .next), (false, .next), (false, .next), (false, .next), (true, .write), (true, .next)]

/-- The lock is correct when it is contended. -/
theorem correct_contended : ∃ l : RwLock Bool, new.run contended = some l ∧ l.pc false = .writeGuard ∧ l.Correct := by
  obtain ⟨l, hl, hpc⟩ : ∃ l : RwLock Bool, new.run contended = some l ∧ l.pc false = .writeGuard := exists_of_any (by decide)
  exact ⟨l, hl, hpc, correct_of_reachable (steps_of_runCalls hl)⟩

/-- Downgrading hands out a read guard although a writer waits. -/
theorem downgrade_while_waiting : ∃ l l' : RwLock Bool, l.Reachable ∧ l.step false .downgrade = some l' ∧
    l'.pc false = .readGuard ∧ Waiting (l.pc true) := by
  obtain ⟨l, hsteps, hwait, hrun⟩ : ∃ l : RwLock Bool, l.Reachable ∧ l.pc true = .writeStart ∧
      ((l.step false .downgrade).any fun l' => decide (l'.pc false = .readGuard)) = true :=
    exists_steps_of_any contended (by decide)
  obtain ⟨l', hl', hread⟩ := exists_of_any hrun
  exact ⟨l, l', hsteps, hl', hread, Or.inl hwait⟩

end RwLock

end ShellCore.Sync
