import ShellCore.Sched.Futex

/-!
# What every interleaving of futex calls keeps

`Agree` ties the queues, the table and the locations together; waiters only leave a queue (`takeOut`)
or come to the end of one that the table leads to (`putIn`). `Effect` says what one step does to
locations and to the threads; the invariant of all runs follows from it.
-/

namespace ShellCore.Sched.Futex

open Function Relation List Futexes Nat

/-! ## Queues and locations -/

/-- The queues, the table and the locations agree: a queued waiter is in one queue, once, its location
names that queue, and the table leads to it; a location that is set belongs to a queued waiter. -/
structure Agree {α κ : Type} (s : Futexes α κ) : Prop where
  tableLt : ∀ k q, s.table k = some q → q < s.nextQueue
  tableInj : ∀ k k' q, s.table k = some q → s.table k' = some q → k = k'
  fresh : ∀ q, s.nextQueue ≤ q → s.queue q = []
  nodup : ∀ q, (s.queue q).Nodup
  located : ∀ q, ∀ w ∈ s.queue q, ∃ k, s.location w = some ⟨k, q⟩ ∧ s.table k = some q
  queued : ∀ w l, s.location w = some l → w ∈ s.queue l.queue
  bound : ∀ w l, s.location w = some l → w < s.nextWaiter

namespace Agree

variable {α κ : Type} {s s' : Futexes α κ} {q : Nat}

theorem init : Agree (init : Futexes α κ) where
  tableLt _ _ h := nomatch h
  tableInj _ _ _ h := nomatch h
  fresh _ _ := rfl
  nodup _ := nodup_nil
  located _ _ h := nomatch h
  queued _ _ h := nomatch h
  bound _ _ h := nomatch h

variable (h : Agree s)

include h

/-- What the steps that only count references or move a thread leave alone. -/
theorem congr (htable : s'.table = s.table) (hqueue : s'.queue = s.queue)
    (hloc : s'.location = s.location) (hq : s'.nextQueue = s.nextQueue) (hw : s'.nextWaiter = s.nextWaiter) :
    Agree s' where
  tableLt := by rw [htable, hq]; exact h.tableLt
  tableInj := by rw [htable]; exact h.tableInj
  fresh := by rw [hqueue, hq]; exact h.fresh
  nodup := by rw [hqueue]; exact h.nodup
  located := by rw [hqueue, hloc, htable]; exact h.located
  queued := by rw [hqueue, hloc]; exact h.queued
  bound := by rw [hloc, hw]; exact h.bound

theorem addRef (q : Nat) : Agree (s.addRef q) := h.congr rfl rfl rfl rfl rfl

theorem dropRef (q : Nat) : Agree (s.dropRef q) := h.congr rfl rfl rfl rfl rfl

/-- A location that is set leads through the table. -/
theorem table_of_location {w : Nat} {l : FutexWaiterLocation κ} (hl : s.location w = some l) :
    s.table l.key = some l.queue := by
  obtain ⟨k, hk, htable⟩ := h.located _ w (h.queued w l hl)
  rw [show l.key = k from congrArg FutexWaiterLocation.key (Option.some.inj (hl.symm.trans hk))]
  exact htable

/-- A waiter is in one queue. -/
theorem unique {q q' w : Nat} (hw : w ∈ s.queue q) (hw' : w ∈ s.queue q') : q = q' := by
  obtain ⟨k, hk, -⟩ := h.located q w hw
  obtain ⟨k', hk', -⟩ := h.located q' w hw'
  exact (FutexWaiterLocation.mk.inj (Option.some.inj (hk.symm.trans hk'))).2

/-- Waiters are taken off a queue. -/
theorem takeOut {taken left : List Nat} (hperm : (taken ++ left).Perm (s.queue q)) :
    Agree ((s.setQueue q left).clearLocations taken) := by
  have hmem : ∀ w, w ∈ s.queue q ↔ w ∈ taken ∨ w ∈ left := fun w => by rw [← hperm.mem_iff, mem_append]
  have hnodup := hperm.nodup_iff.2 (h.nodup q)
  rw [nodup_append'] at hnodup
  -- what stays queued was not taken
  have hstay : ∀ q', ∀ w ∈ update s.queue q left q', w ∈ s.queue q' ∧ w ∉ taken := by
    exact fun q' => forall_update_of_ne q' (fun w hw => ⟨(hmem w).2 (.inr hw), fun ht => hnodup.2.2 ht hw⟩) fun _ hq w hw =>
      ⟨hw, fun ht => hq (h.unique hw ((hmem w).2 (.inl ht)))⟩
  have hloc : ∀ w l, ((s.setQueue q left).clearLocations taken).location w = some l →
      w ∉ taken ∧ s.location w = some l := by
    intro w l hl
    by_cases hw : w ∈ taken
    · cases (show ((s.setQueue q left).clearLocations taken).location w = none from if_pos hw).symm.trans hl
    · exact ⟨hw, (if_neg hw).symm.trans hl⟩
  refine ⟨h.tableLt, h.tableInj, fun q' hq' => ?_, fun q' => ?_, fun q' w hw => ?_, fun w l hl => ?_, fun w l hl => ?_⟩
  · refine eq_nil_iff_forall_not_mem.2 fun w hw => ?_
    have := (hstay q' w hw).1
    rw [h.fresh q' hq'] at this
    cases this
  · exact forall_update (motive := fun _ (l : List _) => l.Nodup) q' hnodup.2.1 h.nodup
  · obtain ⟨hw, ht⟩ := hstay q' w hw
    obtain ⟨k, hk, htable⟩ := h.located q' w hw
    exact ⟨k, (if_neg ht).trans hk, htable⟩
  · obtain ⟨ht, hl⟩ := hloc w l hl
    exact forall_update (motive := fun q' (l : List _) => w ∈ s.queue q' → w ∈ l) l.queue (fun hw => ((hmem w).1 hw).resolve_left ht)
      (fun _ => id) (h.queued w l hl)
  · exact h.bound w l (hloc w l hl).2

/-- Waiters that are not queued are put at the end of a queue of the table. -/
theorem putIn {ws : List Nat} {key : κ} (hkey : s.table key = some q) (hnodup : ws.Nodup)
    (hnew : ∀ w ∈ ws, s.location w = none ∧ w < s.nextWaiter) :
    Agree ((s.setLocations ws ⟨key, q⟩).setQueue q (s.queue q ++ ws)) := by
  have hout : ∀ q', ∀ w ∈ s.queue q', w ∉ ws := by
    intro q' w hw hm
    obtain ⟨k, hk, -⟩ := h.located q' w hw
    rw [(hnew w hm).1] at hk
    cases hk
  have hq : q < s.nextQueue := h.tableLt key q hkey
  refine ⟨h.tableLt, h.tableInj, fun q' hq' => ?_, fun q' => ?_, fun q' w hw => ?_, fun w l hl => ?_, fun w l hl => ?_⟩
  · show update s.queue q (s.queue q ++ ws) q' = []
    rw [update_of_ne (by have : s.nextQueue ≤ q' := hq'; omega)]
    exact h.fresh q' hq'
  · refine forall_update (motive := fun _ (l : List _) => l.Nodup) q' ?_ h.nodup
    exact nodup_append'.2 ⟨h.nodup q, hnodup, fun w hw hw' => hout q w hw hw'⟩
  · change w ∈ update s.queue q (s.queue q ++ ws) q' at hw
    show ∃ k, (if w ∈ ws then some ⟨key, q⟩ else s.location w) = some ⟨k, q'⟩ ∧ _
    by_cases hqq : q' = q
    · subst hqq
      rw [update_self, mem_append] at hw
      rcases hw with hw | hw
      · rw [if_neg (hout q' w hw)]
        exact h.located q' w hw
      · rw [if_pos hw]
        exact ⟨key, rfl, hkey⟩
    · rw [update_of_ne hqq] at hw
      rw [if_neg (hout q' w hw)]
      exact h.located q' w hw
  · change (if w ∈ ws then some ⟨key, q⟩ else s.location w) = some l at hl
    show w ∈ update s.queue q (s.queue q ++ ws) l.queue
    by_cases hw : w ∈ ws
    · rw [if_pos hw] at hl
      cases hl
      rw [update_self]
      exact mem_append_right _ hw
    · rw [if_neg hw] at hl
      exact forall_update (motive := fun q' (l : List _) => w ∈ s.queue q' → w ∈ l) l.queue (mem_append_left _) (fun _ => id)
        (h.queued w l hl)
  · change (if w ∈ ws then some ⟨key, q⟩ else s.location w) = some l at hl
    by_cases hw : w ∈ ws
    · exact (hnew w hw).2
    · rw [if_neg hw] at hl
      exact h.bound w l hl

/-- Moving waiters from one queue to another. -/
theorem move {dst : κ} {srcQueue dstQueue : Nat} {wake moved left : List Nat}
    (hne : srcQueue ≠ dstQueue) (hdst : s.table dst = some dstQueue)
    (hperm : (wake ++ moved ++ left).Perm (s.queue srcQueue)) :
    Agree ((((s.setQueue srcQueue left).clearLocations wake).setLocations moved ⟨dst, dstQueue⟩).setQueue dstQueue
      (s.queue dstQueue ++ moved)) := by
  have hout := h.takeOut hperm
  have hnodup := hperm.nodup_iff.2 (h.nodup srcQueue)
  rw [nodup_append', nodup_append'] at hnodup
  obtain ⟨⟨-, hmoved, hd⟩, -, -⟩ := hnodup
  have hin := hout.putIn hdst hmoved fun w hw => by
    refine ⟨if_pos (mem_append_right _ hw), ?_⟩
    have hq : w ∈ s.queue srcQueue := hperm.mem_iff.1 (by simp [hw])
    obtain ⟨k, hk, -⟩ := h.located _ w hq
    exact h.bound w _ hk
  refine hin.congr rfl ?_ ?_ rfl rfl
  · show update (update s.queue srcQueue left) dstQueue (s.queue dstQueue ++ moved) = update
      (update s.queue srcQueue left) dstQueue (update s.queue srcQueue left dstQueue ++ moved)
    rw [update_of_ne (Ne.symm hne)]
  · funext w
    show (if w ∈ moved then some _ else if w ∈ wake then none else s.location w) =
      if w ∈ moved then some _ else if w ∈ wake ++ moved then none else s.location w
    by_cases hm : w ∈ moved
    · rw [if_pos hm, if_pos hm]
    · rw [if_neg hm, if_neg hm]
      simp [hm]

variable [DecidableEq κ]

/-- An empty queue leaves the table. -/
theorem removeKey {key : κ} (hempty : ∀ q, s.table key = some q → s.queue q = []) : Agree (s.removeKey key) := by
  cases hkey : s.table key with
  | none => rwa [Futexes.removeKey, hkey]
  | some q =>
    have hsub : ∀ k q', update s.table key none k = some q' → s.table k = some q' := by
      exact fun k => forall_update k nofun fun _ _ => id
    rw [Futexes.removeKey, hkey]
    refine ⟨fun k q' hk => h.tableLt k q' (hsub k q' hk),
      fun k k' q' hk hk' => h.tableInj k k' q' (hsub _ _ hk) (hsub _ _ hk'), h.fresh, h.nodup, fun q' w hw => ?_, h.queued,
      h.bound⟩
    obtain ⟨k, hk, htable⟩ := h.located q' w hw
    refine ⟨k, hk, ?_⟩
    show update s.table key none k = some q'
    rw [update_of_ne, htable]
    rintro rfl
    have hmem : w ∈ s.queue q' := hw
    rw [hempty q' htable] at hmem
    cases hmem

/-- The queue of a key is found or made. -/
theorem getOrInsert (key : κ) : Agree (s.getOrInsert key).1 := by
  cases hkey : s.table key with
  | some q =>
    simp only [Futexes.getOrInsert, hkey]
    exact h.addRef q
  | none =>
    have hqueue : update s.queue s.nextQueue [] = s.queue := by
      rw [← h.fresh s.nextQueue (le_refl _), update_eq_self]
    have hcases : ∀ k q, update s.table key (some s.nextQueue) k = some q →
        k = key ∧ q = s.nextQueue ∨ s.table k = some q := by
      exact fun k => forall_update k (fun q hk => .inl ⟨rfl, (Option.some.inj hk).symm⟩) fun _ _ => .inr
    simp only [Futexes.getOrInsert, hkey, hqueue]
    refine ⟨fun k q hk => ?_, fun k k' q hk hk' => ?_, fun q hq => h.fresh q (le_of_succ_le hq), h.nodup,
      fun q w hw => ?_, h.queued, h.bound⟩
    · show q < s.nextQueue + 1
      rcases hcases k q hk with ⟨-, rfl⟩ | hk
      · exact lt_succ_self _
      · exact lt_succ_of_lt (h.tableLt k q hk)
    · rcases hcases k q hk with ⟨rfl, rfl⟩ | hk
      · rcases hcases k' _ hk' with ⟨rfl, -⟩ | hk'
        · rfl
        · exact absurd (h.tableLt _ _ hk') (lt_irrefl _)
      · rcases hcases k' q hk' with ⟨-, rfl⟩ | hk'
        · exact absurd (h.tableLt _ _ hk) (lt_irrefl _)
        · exact h.tableInj k k' q hk hk'
    · obtain ⟨k, hk, htable⟩ := h.located q w hw
      refine ⟨k, hk, ?_⟩
      show update s.table key (some s.nextQueue) k = some q
      rw [update_of_ne, htable]
      rintro rfl
      cases hkey.symm.trans htable

end Agree

/-! ## One step -/

theorem perm_eraseP {p : Nat → Bool} {l : List Nat} {w : Nat} (h : l.find? p = some w) : (w :: l.eraseP p).Perm l := by
  obtain ⟨hp, pre, post, rfl, hpre⟩ := find?_eq_some_iff_append.1 h
  rw [eraseP_append_right _ fun x hx => by simpa using hpre x hx, eraseP_cons_of_pos hp]
  exact perm_middle.symm

theorem popMatching_perm (p : Nat → Bool) (count : Nat) (l : List Nat) :
    ((popMatching p count l).1 ++ (popMatching p count l).2).Perm l := by
  induction count generalizing l with
  | zero => exact Perm.refl _
  | succ count ih =>
    rw [popMatching]
    cases h : l.find? p with
    | none => exact Perm.refl _
    | some w => exact ((ih _).cons w).trans (perm_eraseP h)

/-- The waiters that a thread has taken off a queue and still has to wake. -/
def Pc.held {κ : Type} : Pc κ → List Nat
  | .acting ws _ => ws
  | _ => []

/-- What a thread in a removal has seen exists. -/
def Bounded {α κ : Type} (s : Futexes α κ) : Pc κ → Prop
  | .waiting b | .locating b => b.waiter < s.nextWaiter
  | .upgrading b l | .locking b l | .rechecking b l => b.waiter < s.nextWaiter ∧ l.queue < s.nextQueue
  | _ => True

/-- How a thread gets to the place before the second read of a location, and to a failed assertion. -/
def Arrives {α κ : Type} (s s' : Futexes α κ) (old : Pc κ) : Pc κ → Prop
  | .rechecking b l => s'.location b.waiter ≠ some l
  | .panicked => ∃ b l, old = .rechecking b l ∧ s.location b.waiter = some l
  | _ => True

variable {α κ : Type} {s s' : Futexes α κ} {t : α}

theorem Bounded.mono {pc : Pc κ} (h : Bounded s pc) (hw : s.nextWaiter ≤ s'.nextWaiter)
    (hq : s.nextQueue ≤ s'.nextQueue) : Bounded s' pc := by
  cases pc with
  | waiting b | locating b => exact lt_of_lt_of_le h hw
  | upgrading b l | locking b l | rechecking b l => exact ⟨lt_of_lt_of_le h.1 hw, lt_of_lt_of_le h.2 hq⟩
  | idle | panicked | wakeLocking _ _ _ _ | acting _ _ => trivial

/-- At most queues are made and references are counted. -/
structure Same (s r : Futexes α κ) : Prop where
  pc : r.pc = s.pc
  location : r.location = s.location
  nextQueue : s.nextQueue ≤ r.nextQueue
  nextWaiter : r.nextWaiter = s.nextWaiter
  woken : r.woken = s.woken
  removed : r.removed = s.removed

namespace Same

variable {r : Futexes α κ}

theorem refl (s : Futexes α κ) : Same s s := ⟨rfl, rfl, le_refl _, rfl, rfl, rfl⟩

theorem addRef (q : Nat) : Same s (s.addRef q) := ⟨rfl, rfl, le_refl _, rfl, rfl, rfl⟩

theorem dropRef (h : Same s r) (q : Nat) : Same s (r.dropRef q) :=
  ⟨h.pc, h.location, h.nextQueue, h.nextWaiter, h.woken, h.removed⟩

theorem trans (h : Same s r) (h' : Same r s') : Same s s' :=
  ⟨h'.pc.trans h.pc, h'.location.trans h.location, le_trans h.nextQueue h'.nextQueue,
    h'.nextWaiter.trans h.nextWaiter, h'.woken.trans h.woken, h'.removed.trans h.removed⟩

theorem not_entered (h : Same s r) (w : Nat) (hle : s.nextWaiter ≤ w) (hlt : w < r.nextWaiter) : False :=
  absurd hlt (not_lt.2 (h.nextWaiter ▸ hle))

end Same

section Table

variable [DecidableEq κ] (key : κ)

theorem getOrInsert_table (s : Futexes α κ) : (s.getOrInsert key).1.table key = some (s.getOrInsert key).2 := by
  cases hkey : s.table key with
  | some q => simp only [Futexes.getOrInsert, hkey, addRef]
  | none => simp only [Futexes.getOrInsert, hkey, update_self]

theorem getOrInsert_snd (s : Futexes α κ) : s.table key = some (s.getOrInsert key).2 ∨
    s.table key = none ∧ (s.getOrInsert key).2 = s.nextQueue := by
  cases hkey : s.table key with
  | some q => exact .inl (by simp only [Futexes.getOrInsert, hkey])
  | none => exact .inr ⟨rfl, by simp only [Futexes.getOrInsert, hkey]⟩

theorem getOrInsert_queue (h : Agree s) : (s.getOrInsert key).1.queue = s.queue := by
  cases hkey : s.table key with
  | some q => simp only [Futexes.getOrInsert, hkey, addRef]
  | none =>
    simp only [Futexes.getOrInsert, hkey]
    rw [← h.fresh s.nextQueue (le_refl _), update_eq_self]

/-- Finding or making a queue changes nothing else. -/
theorem getOrInsert_same (s : Futexes α κ) : Same s (s.getOrInsert key).1 := by
  cases hkey : s.table key with
  | some q =>
    simp only [Futexes.getOrInsert, hkey]
    exact .addRef q
  | none =>
    simp only [Futexes.getOrInsert, hkey]
    exact ⟨rfl, rfl, le_succ _, rfl, rfl, rfl⟩

theorem removeKey_same (s : Futexes α κ) : Same s (s.removeKey key) := by
  cases hkey : s.table key with
  | none =>
    simp only [Futexes.removeKey, hkey]
    exact .refl s
  | some q =>
    simp only [Futexes.removeKey, hkey]
    exact ⟨rfl, rfl, le_refl _, rfl, rfl, rfl⟩

/-- A retirement removes an empty queue or does nothing. -/
theorem act_cases (s : Futexes α κ) (a : Act κ) :
    (∃ key q, s.table key = some q ∧ s.queue q = [] ∧ s.act a = s.removeKey key) ∨ s.act a = s ∨
      ∃ q, s.act a = s.dropRef q := by
  cases a with
  | retire key q =>
    simp only [act, retireFutexWaitQueueIfUnused]
    cases hkey : s.table key with
    | none => exact .inr (.inl rfl)
    | some current =>
      dsimp only
      by_cases h₁ : current ≠ q ∨ s.refs current ≠ 2
      · rw [if_pos h₁]
        exact .inr (.inl rfl)
      · rw [if_neg h₁]
        by_cases h₂ : s.queue current = []
        · rw [if_pos h₂]
          exact .inl ⟨key, current, hkey, h₂, rfl⟩
        · rw [if_neg h₂]
          exact .inr (.inl rfl)
  | retireKey key =>
    simp only [act, retireFutexWaitQueueByKeyIfUnused]
    cases hkey : s.table key with
    | none => exact .inr (.inl rfl)
    | some current =>
      dsimp only
      by_cases h : s.refs current + 1 = 2 ∧ s.queue current = []
      · rw [if_pos h]
        exact .inl ⟨key, current, hkey, h.2, rfl⟩
      · rw [if_neg h]
        exact .inr (.inl rfl)
  | drop q => exact .inr (.inr ⟨q, rfl⟩)

end Table

/-- The waiters that a step moves to another queue, with the location they get. -/
def Moved (s : Futexes α κ) (c : Cmd κ) (w : Nat) (l : FutexWaiterLocation κ) : Prop :=
  match c with
  | .requeue src dst wakeCount requeueCount true => l.key = dst ∧
      (s.table dst = some l.queue ∨ s.table dst = none ∧ l.queue = s.nextQueue) ∧
      ∃ q, s.table src = some q ∧ q ≠ l.queue ∧ w ∈ ((s.queue q).drop wakeCount).take requeueCount
  | _ => False

/-- What a step of `t` does, if `M` says which waiters it moves where. -/
structure Effect (t : α) (M : Nat → FutexWaiterLocation κ → Prop) (s s' : Futexes α κ) : Prop where
  agree : Agree s'
  pc : ∀ u, u ≠ t → s'.pc u = s.pc u
  nextQueue : s.nextQueue ≤ s'.nextQueue
  nextWaiter : s.nextWaiter ≤ s'.nextWaiter
  woken : ∀ w ∈ s.woken, w ∈ s'.woken
  removed : ∀ w ∈ s.removed, w ∈ s'.removed
  held : ∀ w ∈ (s.pc t).held, w ∈ (s'.pc t).held ∨ w ∈ s'.woken
  location : ∀ w, w < s.nextWaiter → s'.location w = s.location w ∨
    s'.location w = none ∧ (w ∈ (s'.pc t).held ∨ w ∈ s'.removed) ∨ ∃ l, M w l ∧ s'.location w = some l
  entered : ∀ w, s.nextWaiter ≤ w → w < s'.nextWaiter → ∃ l, s'.location w = some l
  bounded : Bounded s' (s'.pc t)
  arrives : Arrives s s' (s.pc t) (s'.pc t)

variable {M : Nat → FutexWaiterLocation κ → Prop}

/-- A step of an idle thread that stays idle. -/
theorem Effect.stay {r : Futexes α κ} (h : Agree r) (hs : Same s r) (hidle : s.pc t = .idle) : Effect t M s r where
  agree := h
  pc _ _ := congrFun hs.pc _
  nextQueue := hs.nextQueue
  nextWaiter := le_of_eq hs.nextWaiter.symm
  woken _ hm := hs.woken ▸ hm
  removed _ hm := hs.removed ▸ hm
  held _ hm := .inl (hs.pc ▸ hm)
  location w _ := .inl (congrFun hs.location w)
  entered w hle hlt := (hs.not_entered w hle hlt).elim
  bounded := by
    rw [hs.pc, hidle]
    trivial
  arrives := by
    rw [hs.pc, hidle]
    trivial

variable [DecidableEq α]

namespace Effect

variable {r : Futexes α κ} {M : Nat → FutexWaiterLocation κ → Prop} {pc : Pc κ}

/-- A step ends by moving its thread. -/
theorem goto (h : Agree r) (hpc : r.pc = s.pc) (hq : s.nextQueue ≤ r.nextQueue) (hw : s.nextWaiter ≤ r.nextWaiter)
    (hwoken : ∀ w ∈ s.woken, w ∈ r.woken) (hremoved : ∀ w ∈ s.removed, w ∈ r.removed)
    (hheld : ∀ w ∈ (s.pc t).held, w ∈ pc.held ∨ w ∈ r.woken)
    (hloc : ∀ w, w < s.nextWaiter → r.location w = s.location w ∨
      r.location w = none ∧ (w ∈ pc.held ∨ w ∈ r.removed) ∨ ∃ l, M w l ∧ r.location w = some l)
    (hent : ∀ w, s.nextWaiter ≤ w → w < r.nextWaiter → ∃ l, r.location w = some l) (hb : Bounded r pc)
    (ha : Arrives s r (s.pc t) pc) : Effect t M s (r.goto t pc) := by
  have hself : (r.goto t pc).pc t = pc := update_self ..
  refine ⟨h.congr rfl rfl rfl rfl rfl, fun u hu => ?_, hq, hw, hwoken, hremoved, ?_, ?_, hent, ?_, ?_⟩
  · show update r.pc t pc u = _
    rw [update_of_ne hu, hpc]
  · rw [hself]
    exact hheld
  · rw [hself]
    exact hloc
  · rw [hself]
    exact hb
  · rw [hself]
    exact ha

/-- A step that only counts references and moves its thread. -/
theorem quiet (h : Agree r) (hs : Same s r) (hheld : (s.pc t).held = []) (hb : Bounded r pc)
    (ha : Arrives s r (s.pc t) pc) : Effect t M s (r.goto t pc) :=
  .goto h hs.pc hs.nextQueue (le_of_eq hs.nextWaiter.symm) (fun _ hm => hs.woken ▸ hm) (fun _ hm => hs.removed ▸ hm)
    (by rw [hheld]; nofun) (fun w _ => .inl (congrFun hs.location w)) (fun w hle hlt => (hs.not_entered w hle hlt).elim) hb ha

/-- A step that takes waiters off a queue to wake them. -/
theorem taking {q : Nat} {taken left : List Nat} {acts : List (Act κ)} (h : Agree r)
    (hperm : (taken ++ left).Perm (r.queue q)) (hs : Same s r) (hheld : (s.pc t).held = []) :
    Effect t M s (((r.setQueue q left).clearLocations taken).goto t (.acting taken acts)) := by
  refine .goto (h.takeOut hperm) hs.pc hs.nextQueue (le_of_eq hs.nextWaiter.symm) (fun _ hm => hs.woken ▸ hm)
    (fun _ hm => hs.removed ▸ hm) (by rw [hheld]; nofun) (fun w _ => ?_)
    (fun w hle hlt => (hs.not_entered w hle hlt).elim) trivial trivial
  by_cases hm : w ∈ taken
  · exact .inr (.inl ⟨if_pos hm, .inl hm⟩)
  · exact .inl ((if_neg hm).trans (congrFun hs.location w))

end Effect

/-- The invariant of all runs. Every waiter ever made is queued, or held by a thread that is about to
wake it, or was woken, or has removed itself. -/
structure Inv (s : Futexes α κ) : Prop where
  agree : Agree s
  kept : ∀ w, w < s.nextWaiter → (∃ l, s.location w = some l) ∨ (∃ t, w ∈ (s.pc t).held) ∨ w ∈ s.woken ∨ w ∈ s.removed
  bounded : ∀ t, Bounded s (s.pc t)

omit [DecidableEq α] in
theorem Inv.init : Inv (init : Futexes α κ) := ⟨.init, nofun, fun _ => trivial⟩

theorem Inv.of_effect (h : Inv s) (he : Effect t M s s') : Inv s' where
  agree := he.agree
  kept w hw := by
    by_cases hold : w < s.nextWaiter
    · rcases h.kept w hold with ⟨l, hl⟩ | ⟨u, hu⟩ | hw | hw
      · rcases he.location w hold with hsame | ⟨-, hheld | hrem⟩ | ⟨l', -, hl'⟩
        · exact .inl ⟨l, hsame.trans hl⟩
        · exact .inr (.inl ⟨t, hheld⟩)
        · exact .inr (.inr (.inr hrem))
        · exact .inl ⟨l', hl'⟩
      · by_cases hut : u = t
        · subst hut
          rcases he.held w hu with hheld | hwoken
          · exact .inr (.inl ⟨u, hheld⟩)
          · exact .inr (.inr (.inl hwoken))
        · exact .inr (.inl ⟨u, by rwa [he.pc u hut]⟩)
      · exact .inr (.inr (.inl (he.woken w hw)))
      · exact .inr (.inr (.inr (he.removed w hw)))
    · exact .inl (he.entered w (Nat.le_of_not_lt hold) hw)
  bounded u := by
    by_cases hut : u = t
    · exact hut ▸ he.bounded
    · rw [he.pc u hut]
      exact (h.bounded u).mono he.nextWaiter he.nextQueue

variable [DecidableEq κ]

theorem blockCurrentOnFutexIf_effect (h : Agree s) (hpc : s.pc t = .idle) (key : κ) (bitset : BitVec 32) (b : Bool) :
    Effect t M s (s.blockCurrentOnFutexIf t key bitset b) := by
  have hs := getOrInsert_same key s
  have htable := getOrInsert_table key s
  have hA := h.getOrInsert key
  unfold blockCurrentOnFutexIf
  generalize s.getOrInsert key = p at hs htable hA
  obtain ⟨r, q⟩ := p
  dsimp only at hs htable hA ⊢
  cases b with
  | true =>
    rw [if_pos rfl]
    have hnone : r.location r.nextWaiter = none := by
      cases hl : r.location r.nextWaiter with
      | none => rfl
      | some l => exact absurd (hA.bound _ l hl) (lt_irrefl _)
    have hA' : Agree { r with nextWaiter := r.nextWaiter + 1, bitset := update r.bitset r.nextWaiter bitset } :=
      ⟨hA.tableLt, hA.tableInj, hA.fresh, hA.nodup, hA.located, hA.queued, fun w l hl => lt_succ_of_lt (hA.bound w l hl)⟩
    refine .goto (hA'.putIn htable (nodup_singleton _) fun w hw => ?_) hs.pc hs.nextQueue
      (hs.nextWaiter ▸ le_succ _) (hs.woken ▸ fun _ hm => hm) (hs.removed ▸ fun _ hm => hm) (by rw [hpc]; nofun)
      (fun w hw => .inl ?_) (fun w hle hlt => ?_) (lt_succ_self _) trivial
    · rw [mem_singleton.1 hw]
      exact ⟨hnone, lt_succ_self _⟩
    · refine (if_neg fun hm => ?_).trans (congrFun hs.location w)
      rw [mem_singleton.1 hm, hs.nextWaiter] at hw
      exact lt_irrefl _ hw
    · have hw : w ∈ [r.nextWaiter] := by
        have hlt' : w < r.nextWaiter + 1 := hlt
        have := hs.nextWaiter
        rw [mem_singleton]
        omega
      exact ⟨⟨key, q⟩, if_pos hw⟩
  | false =>
    rw [if_neg nofun]
    by_cases hempty : r.queue q = []
    · rw [if_pos hempty]
      have hA' : Agree (r.removeKey key) := hA.removeKey fun q' hq' => by
        rw [← Option.some.inj (htable.symm.trans hq'), hempty]
      exact .stay (hA'.dropRef q) ((hs.trans (removeKey_same key r)).dropRef q) hpc
    · rw [if_neg hempty]
      exact .stay (hA.dropRef q) (hs.dropRef q) hpc

theorem requeueFutexWaiters_effect (h : Agree s) (hpc : s.pc t = .idle) (src dst : κ) (wakeCount requeueCount : Nat)
    (b : Bool) : Effect t (Moved s (.requeue src dst wakeCount requeueCount b)) s
      (s.requeueFutexWaiters t src dst wakeCount requeueCount b) := by
  have hheld : (s.pc t).held = [] := by rw [hpc]; rfl
  have hperm : ∀ l : List Nat, (l.take wakeCount ++ l.drop wakeCount).Perm l := fun l => by rw [take_append_drop]
  unfold requeueFutexWaiters
  cases hsrc : s.table src with
  | none => exact .quiet h (.refl s) hheld trivial trivial
  | some srcQueue =>
    have hA := h.addRef srcQueue
    dsimp only
    by_cases hpos : requeueCount > 0
    · rw [if_pos hpos]
      have hs := (Same.addRef srcQueue).trans (getOrInsert_same dst (s.addRef srcQueue))
      have htable := getOrInsert_table dst (s.addRef srcQueue)
      have hdst := getOrInsert_snd dst (s.addRef srcQueue)
      have hqueue := getOrInsert_queue dst hA
      have hA' := hA.getOrInsert dst
      generalize (s.addRef srcQueue).getOrInsert dst = p at hs htable hA' hdst hqueue
      obtain ⟨r, dstQueue⟩ := p
      dsimp only at hs htable hA' hdst hqueue ⊢
      cases b with
      | false => exact .quiet hA' hs hheld trivial trivial
      | true =>
        rw [if_pos rfl]
        by_cases hsame : srcQueue = dstQueue
        · rw [if_pos hsame]
          exact .taking hA' (hperm _) hs hheld
        · rw [if_neg hsame]
          have hstate : Agree ((((r.setQueue srcQueue (((r.queue srcQueue).drop wakeCount).drop requeueCount)).clearLocations
              ((r.queue srcQueue).take wakeCount)).setLocations (((r.queue srcQueue).drop wakeCount).take requeueCount)
              ⟨dst, dstQueue⟩).setQueue dstQueue
              (r.queue dstQueue ++ ((r.queue srcQueue).drop wakeCount).take requeueCount)) := by
            refine hA'.move hsame htable ?_
            rw [append_assoc, take_append_drop, take_append_drop]
          refine .goto (hstate.congr rfl ?_ rfl rfl rfl) hs.pc hs.nextQueue (le_of_eq hs.nextWaiter.symm)
            (hs.woken ▸ fun _ hm => hm) (hs.removed ▸ fun _ hm => hm) (by rw [hheld]; nofun) (fun w hw => ?_)
            (fun w hle hlt => (hs.not_entered w hle hlt).elim) trivial trivial
          · show update (update (update r.queue srcQueue _) srcQueue _) dstQueue
              (update (update r.queue srcQueue _) srcQueue _ dstQueue ++ _) = update
              (update r.queue srcQueue _) dstQueue _
            rw [update_idem, update_of_ne (Ne.symm hsame)]
          · by_cases hm : w ∈ ((r.queue srcQueue).drop wakeCount).take requeueCount
            · refine .inr (.inr ⟨⟨dst, dstQueue⟩, ⟨rfl, hdst, srcQueue, hsrc, hsame, ?_⟩, if_pos hm⟩)
              have hq : r.queue srcQueue = s.queue srcQueue := congrFun hqueue srcQueue
              rwa [← hq]
            · by_cases hwake : w ∈ (r.queue srcQueue).take wakeCount
              · exact .inr (.inl ⟨(if_neg hm).trans (if_pos hwake), .inl hwake⟩)
              · exact .inl ((if_neg hm).trans ((if_neg hwake).trans (congrFun hs.location w)))
    · rw [if_neg hpos]
      cases b with
      | false => exact .quiet hA (.addRef _) hheld trivial trivial
      | true => exact .taking hA (hperm _) (.addRef _) hheld

theorem next_effect (h : Inv s) (hn : s.next t = some s') : Effect t M s s' := by
  have hb := h.bounded t
  have hA := h.agree
  cases hpc : s.pc t <;> have hheld := congrArg Pc.held hpc <;> rw [hpc] at hb <;> simp only [Futexes.next, hpc] at hn
  case idle | panicked => cases hn
  case waiting b =>
    cases hn
    exact .quiet hA (.refl s) hheld hb trivial
  case locating b =>
    cases hl : s.location b.waiter <;> rw [hl] at hn <;> cases hn
    case none => exact .quiet hA (.refl s) hheld trivial trivial
    case some l => exact .quiet hA (.refl s) hheld ⟨hb, hA.tableLt _ _ (hA.table_of_location hl)⟩ trivial
  case upgrading b l =>
    split at hn <;> cases hn
    · exact .quiet hA (.refl s) hheld trivial trivial
    · exact .quiet (hA.addRef _) (.addRef _) hheld hb trivial
  case locking b l =>
    by_cases hm : b.waiter ∈ s.queue l.queue
    · rw [if_pos hm] at hn
      cases hn
      have hperm : ([b.waiter] ++ (s.queue l.queue).erase b.waiter).Perm (s.queue l.queue) :=
        (perm_cons_erase hm).symm
      refine .goto ((hA.takeOut hperm).congr rfl rfl rfl rfl rfl) rfl (le_refl _) (le_refl _) (fun _ hw => hw)
        (fun _ hw => mem_cons_of_mem _ hw) (by rw [hheld]; nofun) (fun w _ => ?_)
        (fun w hle hlt => absurd hlt (not_lt.2 hle)) trivial trivial
      by_cases hw : w ∈ [b.waiter]
      · exact .inr (.inl ⟨if_pos hw, .inr (mem_singleton.1 hw ▸ mem_cons_self)⟩)
      · exact .inl (if_neg hw)
    · rw [if_neg hm] at hn
      cases hn
      exact .quiet hA (.refl s) hheld hb fun hl => hm (hA.queued _ _ hl)
  case rechecking b l =>
    cases hl : s.location b.waiter with
    | none =>
      rw [hl] at hn
      cases hn
      exact .quiet (hA.dropRef _) ((Same.refl s).dropRef _) hheld trivial trivial
    | some current =>
      rw [hl] at hn
      dsimp only at hn
      split at hn <;> cases hn
      next hc => exact .quiet hA (.refl s) hheld trivial ⟨b, l, hpc, hc ▸ hl⟩
      next => exact .quiet (hA.dropRef _) ((Same.refl s).dropRef _) hheld hb.1 trivial
  case wakeLocking key q count bitset =>
    cases hn
    exact .taking hA (popMatching_perm _ _ _) (.refl s) hheld
  case acting ws acts =>
    match ws, acts with
    | w :: ws, acts =>
      cases hn
      refine .goto (hA.congr rfl rfl rfl rfl rfl) rfl (le_refl _) (le_refl _)
        (fun _ hw => mem_cons_of_mem _ hw) (fun _ hw => hw) (fun w' hw' => ?_) (fun w' _ => .inl rfl)
        (fun w' hle hlt => absurd hlt (not_lt.2 hle)) trivial trivial
      rw [hheld] at hw'
      rcases mem_cons.1 hw' with rfl | hw'
      · exact .inr mem_cons_self
      · exact .inl hw'
    | [], a :: acts =>
      cases hn
      rcases act_cases s a with ⟨key, q, hkey, hempty, hact⟩ | hact | ⟨q, hact⟩ <;> rw [hact]
      · refine .quiet (hA.removeKey fun q' hq' => ?_) (removeKey_same key s) hheld trivial trivial
        rw [← Option.some.inj (hkey.symm.trans hq'), hempty]
      · exact .quiet hA (.refl s) hheld trivial trivial
      · exact .quiet (hA.dropRef q) ((Same.refl s).dropRef q) hheld trivial trivial
    | [], [] =>
      cases hn
      exact .quiet hA (.refl s) hheld trivial trivial

theorem step_effect (h : Inv s) {c : Cmd κ} (hs : s.step t c = some s') : Effect t (Moved s c) s s' := by
  cases c with
  | next => exact next_effect h hs
  | wait key bitset b =>
    obtain ⟨hpc, rfl⟩ := of_guard hs
    exact blockCurrentOnFutexIf_effect h.agree hpc key bitset b
  | requeue src dst wakeCount requeueCount b =>
    obtain ⟨hpc, rfl⟩ := of_guard hs
    exact requeueFutexWaiters_effect h.agree hpc src dst wakeCount requeueCount b
  | wake key count bitset =>
    obtain ⟨hpc, hs⟩ := Option.ite_none_right_eq_some.1 hs
    split at hs <;> cases hs
    · exact .stay h.agree (.refl s) hpc
    · exact .quiet (h.agree.addRef _) (.addRef _) (by rw [hpc]; rfl) trivial trivial

/-! ## The assertion -/

/-- No removal that has looked for its waiter in a queue in vain is overtaken by a requeue that moves
the waiter into that queue. -/
def Orderly (s : Futexes α κ) (c : Cmd κ) : Prop := ∀ u b l, s.pc u = .rechecking b l → ¬ Moved s c b.waiter l

/-- A step before which the condition holds. -/
def OrderlyStep (s s' : Futexes α κ) : Prop := ∃ t c, Orderly s c ∧ s.step t c = some s'

/-- A removal that is about to read its waiter's location again will not find the one it knows. -/
structure Clear (s : Futexes α κ) : Prop where
  recheck : ∀ t b l, s.pc t = .rechecking b l → s.location b.waiter ≠ some l
  noPanic : ∀ t, s.pc t ≠ .panicked

theorem Clear.of_step (h : Inv s) (hc : Clear s) {c : Cmd κ} (ho : Orderly s c) (hs : s.step t c = some s') :
    Clear s' := by
  have he := step_effect h hs
  refine ⟨fun u b l hu hl => ?_, fun u hu => ?_⟩
  · by_cases hut : u = t
    · have ha := he.arrives
      rw [← hut, hu] at ha
      exact ha hl
    · rw [he.pc u hut] at hu
      have hb := h.bounded u
      rw [hu] at hb
      rcases he.location b.waiter hb.1 with hsame | ⟨hnone, -⟩ | ⟨l', hmoved, hl'⟩
      · exact hc.recheck u b l hu (hsame ▸ hl)
      · cases hnone.symm.trans hl
      · obtain rfl : l = l' := Option.some.inj (hl.symm.trans hl')
        exact ho u b l hu hmoved
  · by_cases hut : u = t
    · have ha := he.arrives
      rw [← hut, hu] at ha
      obtain ⟨b, l, hpc, hl⟩ := ha
      exact hc.recheck u b l hpc hl
    · exact hc.noPanic u (he.pc u hut ▸ hu)

omit [DecidableEq α] [DecidableEq κ] in
theorem Clear.init : Clear (init : Futexes α κ) := ⟨nofun, nofun⟩

/-- What the queues and the locations of the waiters are meant to satisfy at every time. -/
structure Consistent (s : Futexes α κ) : Prop where
  once : ∀ q, (s.queue q).Nodup
  oneQueue : ∀ q q' w, w ∈ s.queue q → w ∈ s.queue q' → q = q'
  located : ∀ w q, w ∈ s.queue q ↔ ∃ k, s.location w = some ⟨k, q⟩
  inTable : ∀ w l, s.location w = some l → s.table l.key = some l.queue
  notLost : ∀ w, w < s.nextWaiter →
    (∃ q, w ∈ s.queue q) ∨ (∃ t, w ∈ (s.pc t).held) ∨ w ∈ s.woken ∨ w ∈ s.removed
  assertion : ∀ t, s.pc t ≠ .panicked

omit [DecidableEq α] [DecidableEq κ] in
theorem Inv.consistent (h : Inv s) (hc : Clear s) : Consistent s where
  once := h.agree.nodup
  oneQueue _ _ _ hw hw' := h.agree.unique hw hw'
  located w q := by
    constructor
    · intro hw
      obtain ⟨k, hk, -⟩ := h.agree.located q w hw
      exact ⟨k, hk⟩
    · rintro ⟨k, hk⟩
      exact h.agree.queued w _ hk
  inTable _ _ hl := h.agree.table_of_location hl
  notLost w hw := by
    rcases h.kept w hw with ⟨l, hl⟩ | hrest
    · exact .inl ⟨l.queue, h.agree.queued w l hl⟩
    · exact .inr hrest
  assertion := hc.noPanic

/-- In every interleaving whose requeues are orderly the queues are consistent in every state. -/
theorem consistent_of_orderly (h : ReflTransGen OrderlyStep (init : Futexes α κ) s) :
    Consistent s := by
  have hboth : Inv s ∧ Clear s := by
    induction h with
    | refl => exact ⟨.init, .init⟩
    | tail _ hlast ih =>
      obtain ⟨t, c, ho, hs⟩ := hlast
      exact ⟨ih.1.of_effect (step_effect ih.1 hs), ih.2.of_step ih.1 ho hs⟩
  exact hboth.1.consistent hboth.2

/-- A waiter on futex 0 is timed out and looks for itself there in vain, because it has been moved to futex 1. It reads its
location again and is removed. -/
def followed : List (Fin 3 × Cmd (Fin 2)) :=
  [(0, .wait 0 1 true), (0, .next), (0, .next), (1, .requeue 0 1 0 1 true)] ++ List.replicate 6 (0, .next)

def Pc.isRechecking : Pc κ → Bool
  | rechecking .. => true
  | _ => false

theorem consistent_of_orderly_followed : ∃ s : Futexes (Fin 3) (Fin 2), s.removed = [0] ∧ Consistent s := by
  obtain ⟨s, hrun, hs⟩ : ∃ s,
      -- no call begins while a removal is about to read a location again
      runGuarded (fun s _ c => c = .next ∨ ∀ u, (s.pc u).isRechecking = false) step init followed = some s ∧ s.removed = [0] :=
    exists_of_any (by decide +kernel)
  refine ⟨s, hs, consistent_of_orderly (reaches_of_runGuarded (fun s t c s' hok hstep => ?_) hrun)⟩
  refine ⟨t, c, fun u b l hu => ?_, hstep⟩
  rcases hok with hnext | hnone
  · rw [hnext]
    exact id
  · have := hnone u
    rw [hu] at this
    cases this

/-- A waiter on futex 0 is timed out and reads its location; it is moved to futex 1, so it is not
found in the queue of futex 0; before its location is read again it is moved back. -/
def movedThereAndBack : List (Fin 3 × Cmd (Fin 2)) :=
  [(0, .wait 0 1 true), (0, .next), (0, .next), (1, .requeue 0 1 0 1 true), (0, .next), (0, .next),
    (2, .requeue 1 0 0 1 true), (0, .next)]

theorem movedThereAndBack_panicked : ∃ s : Futexes (Fin 3) (Fin 2), ReflTransGen Step init s ∧ s.pc 0 = .panicked :=
  exists_steps_of_any movedThereAndBack (by decide +kernel)

/-- The waiter finds itself queued again and panics. -/
theorem assertion_fails_moved_back : ∃ s : Futexes (Fin 3) (Fin 2),
    ReflTransGen Step init s ∧ ¬ Consistent s := by
  obtain ⟨s, hs, hpc⟩ := movedThereAndBack_panicked
  exact ⟨s, hs, fun h => h.assertion 0 hpc⟩

/-- Whether or not the assertion fails, the queues agree with the locations and no waiter is lost. -/
theorem agree_of_steps (h : ReflTransGen Step (init : Futexes α κ) s) : Agree s ∧ ∀ w, w < s.nextWaiter →
    (∃ q, w ∈ s.queue q) ∨ (∃ t, w ∈ (s.pc t).held) ∨ w ∈ s.woken ∨ w ∈ s.removed := by
  have hi : Inv s := inv_of_reachable .init (fun _ _ hi ⟨_, _, hs⟩ => hi.of_effect (step_effect hi hs)) h
  refine ⟨hi.agree, fun w hw => ?_⟩
  rcases hi.kept w hw with ⟨l, hl⟩ | hrest
  · exact .inl ⟨l.queue, hi.agree.queued w l hl⟩
  · exact .inr hrest

theorem agree_of_steps_moved_back : ∃ s : Futexes (Fin 3) (Fin 2), s.pc 0 = .panicked ∧ Agree s := by
  obtain ⟨s, hs, hpc⟩ := movedThereAndBack_panicked
  exact ⟨s, hpc, (agree_of_steps hs).1⟩

end ShellCore.Sched.Futex
