import Mathlib

/-!
# The index of file pages

`CacheIdMap` finds the physical block of a page of a file, and for a block the pages that it backs. The
two directions are kept together: `Agrees` says that each is the inverse of the other and that no empty
set of pages is stored.
-/

namespace ShellCore.Block

open Function

/-- An inode number and the number of a page in the file. -/
abbrev LogicalPageKey := Nat × Nat

structure CacheIdMap where
  logicalToPhysical : LogicalPageKey → Option Nat
  physicalToLogical : Nat → Option (Finset LogicalPageKey)

namespace CacheIdMap

def new : CacheIdMap := ⟨fun _ => none, fun _ => none⟩

variable (m : CacheIdMap)

def get (key : LogicalPageKey) : Option Nat := m.logicalToPhysical key

def removeReverse (b : Nat) (key : LogicalPageKey) : CacheIdMap :=
  match m.physicalToLogical b with
  | some keys =>
    let rest := if keys.erase key = ∅ then none else some (keys.erase key)
    { m with physicalToLogical := update m.physicalToLogical b rest }
  | none => m

def insert (m : CacheIdMap) (key : LogicalPageKey) (b : Nat) : CacheIdMap :=
  let old := m.logicalToPhysical key
  let m₁ := { m with logicalToPhysical := update m.logicalToPhysical key (some b) }
  let m₂ :=
    match old with
    | some c => if c ≠ b then m₁.removeReverse c key else m₁
    | none => m₁
  { m₂ with
    physicalToLogical :=
      update m₂.physicalToLogical b (some (Insert.insert key ((m₂.physicalToLogical b).getD ∅))) }

def removeBlock (b : Nat) : CacheIdMap :=
  match m.physicalToLogical b with
  | none => m
  | some keys =>
    { logicalToPhysical := fun key =>
        if key ∈ keys ∧ m.logicalToPhysical key = some b then none else m.logicalToPhysical key
      physicalToLogical := update m.physicalToLogical b none }

/-- The pages that the reverse index stores for a block. -/
def keysOf (b : Nat) : Finset LogicalPageKey := (m.physicalToLogical b).getD ∅

structure Agrees (m : CacheIdMap) : Prop where
  inverse : ∀ key b, key ∈ m.keysOf b ↔ m.get key = some b
  nonempty : ∀ b keys, m.physicalToLogical b = some keys → keys ≠ ∅

variable {m : CacheIdMap} {key key' : LogicalPageKey} {b c : Nat}

theorem agrees_new : new.Agrees where
  inverse key b := by simp [new, keysOf, get]
  nonempty b keys h := by simp [new] at h

theorem get_removeReverse : (m.removeReverse b key).get key' = m.get key' := by
  unfold removeReverse
  split <;> rfl

theorem keysOf_removeReverse :
    (m.removeReverse b key).keysOf c = if c = b then (m.keysOf b).erase key else m.keysOf c := by
  unfold removeReverse
  cases hb : m.physicalToLogical b with
  | none =>
    by_cases hc : c = b
    · subst hc
      simp [keysOf, hb]
    · simp [hc]
  | some keys =>
    by_cases hc : c = b
    · subst hc
      by_cases he : keys.erase key = ∅ <;> simp [keysOf, hb, he]
    · simp [keysOf, hc]

theorem nonempty_removeReverse (h : ∀ b keys, m.physicalToLogical b = some keys → keys ≠ ∅) {keys}
    (hk : (m.removeReverse b key).physicalToLogical c = some keys) : keys ≠ ∅ := by
  unfold removeReverse at hk
  cases hb : m.physicalToLogical b with
  | none =>
    rw [hb] at hk
    exact h c keys hk
  | some old =>
    rw [hb] at hk
    by_cases hc : c = b
    · subst hc
      by_cases he : old.erase key = ∅
      · simp [he] at hk
      · simp only [he, if_false, update_self, Option.some.injEq] at hk
        exact hk ▸ he
    · simp only [update_of_ne hc] at hk
      exact h c keys hk

theorem get_insert : (m.insert key b).get key' = if key' = key then some b else m.get key' := by
  have hset : (update m.logicalToPhysical key (some b)) key' = if key' = key then some b else m.get key' := by
    by_cases hk : key' = key
    · subst hk
      simp
    · simp [hk, get]
  unfold insert
  cases hold : m.logicalToPhysical key with
  | none => exact hset
  | some c =>
    by_cases hc : c = b
    · simpa [hc, get] using hset
    · simp only [ne_eq, hc, not_false_eq_true, if_true]
      refine Eq.trans ?_ hset
      exact get_removeReverse

theorem keysOf_insert : (m.insert key b).keysOf c =
    if c = b then Insert.insert key (m.keysOf b)
    else if m.get key = some c then (m.keysOf c).erase key else m.keysOf c := by
  unfold insert
  cases hold : m.logicalToPhysical key with
  | none =>
    by_cases hc : c = b
    · subst hc
      simp [keysOf]
    · simp [keysOf, hc, get, hold]
  | some d =>
    by_cases hd : d = b
    · subst hd
      by_cases hc : c = d
      · subst hc
        simp [keysOf]
      · simp [keysOf, hc, get, hold, Ne.symm hc]
    · simp only [ne_eq, hd, not_false_eq_true, if_true]
      have hrev := @keysOf_removeReverse { m with logicalToPhysical := update m.logicalToPhysical key (some b) } key d
      by_cases hc : c = b
      · subst hc
        have := @hrev c
        rw [if_neg (Ne.symm hd)] at this
        simp only [keysOf, update_self, Option.getD_some, if_true] at this ⊢
        rw [this]
      · have := @hrev c
        simp only [keysOf, hc, if_false, update_of_ne, ne_eq, not_false_eq_true, get, hold, Option.some.injEq] at this ⊢
        rw [this]
        by_cases hcd : c = d
        · subst hcd
          simp
        · simp [hcd, Ne.symm hcd]

theorem Agrees.insert (h : m.Agrees) : (m.insert key b).Agrees where
  inverse key' c := by
    rw [keysOf_insert, get_insert]
    by_cases hc : c = b
    · subst hc
      by_cases hk : key' = key
      · subst hk
        simp
      · simp [hk, h.inverse]
    · rw [if_neg hc]
      by_cases hk : key' = key
      · subst hk
        by_cases hg : m.get key' = some c
        · simp [hg, Ne.symm hc]
        · simp [hg, h.inverse, Ne.symm hc]
      · by_cases hg : m.get key = some c
        · simp [hg, hk, h.inverse]
        · simp [hg, hk, h.inverse]
  nonempty c keys hk := by
    unfold CacheIdMap.insert at hk
    by_cases hc : c = b
    · subst hc
      simp only [update_self, Option.some.injEq] at hk
      rw [← hk]
      exact Finset.insert_ne_empty _ _
    · simp only [update_of_ne hc] at hk
      cases hold : m.logicalToPhysical key with
      | none =>
        rw [hold] at hk
        exact h.nonempty c keys hk
      | some d =>
        rw [hold] at hk
        by_cases hd : d = b
        · simp only [hd, ne_eq, not_true_eq_false, if_false] at hk
          exact h.nonempty c keys hk
        · simp only [ne_eq, hd, not_false_eq_true, if_true] at hk
          refine nonempty_removeReverse ?_ hk
          exact h.nonempty

/-- Removing a block forgets every page that it backs, and nothing else. -/
theorem Agrees.get_removeBlock (h : m.Agrees) :
    (m.removeBlock b).get key = if m.get key = some b then none else m.get key := by
  have hinv := h.inverse key b
  unfold removeBlock
  cases hb : m.physicalToLogical b with
  | none =>
    simp only [keysOf, hb, Option.getD_none, Finset.notMem_empty, false_iff] at hinv
    rw [if_neg hinv]
  | some keys =>
    simp only [keysOf, hb, Option.getD_some] at hinv
    by_cases hg : m.get key = some b
    · have hk := hinv.2 hg
      have hg' : m.logicalToPhysical key = some b := hg
      simp [get, hk, hg']
    · have hg' : m.logicalToPhysical key ≠ some b := hg
      simp [get, hg']

theorem keysOf_removeBlock : (m.removeBlock b).keysOf c = if c = b then ∅ else m.keysOf c := by
  unfold removeBlock
  by_cases hc : c = b
  · subst hc
    cases hb : m.physicalToLogical c <;> simp [keysOf, hb]
  · cases hb : m.physicalToLogical b <;> simp [keysOf, hc]

theorem Agrees.removeBlock (h : m.Agrees) : (m.removeBlock b).Agrees where
  inverse key c := by
    rw [keysOf_removeBlock, h.get_removeBlock]
    by_cases hc : c = b
    · subst hc
      by_cases hg : m.get key = some c <;> simp [hg]
    · rw [if_neg hc, h.inverse]
      by_cases hg : m.get key = some b
      · simp [hg, Ne.symm hc]
      · simp [hg]
  nonempty c keys hk := by
    unfold CacheIdMap.removeBlock at hk
    cases hb : m.physicalToLogical b with
    | none =>
      rw [hb] at hk
      exact h.nonempty c keys hk
    | some old =>
      rw [hb] at hk
      by_cases hc : c = b
      · subst hc
        simp at hk
      · simp only [update_of_ne hc] at hk
        exact h.nonempty c keys hk

/-! ## Runs -/

inductive Call where
  | insert (key : LogicalPageKey) (b : Nat)
  | get (key : LogicalPageKey)
  | removeBlock (b : Nat)

/-- The map after the calls. -/
def run (calls : List Call) : CacheIdMap :=
  calls.foldl (fun m call => match call with
    | .insert key b => m.insert key b
    | .get _ => m
    | .removeBlock b => m.removeBlock b) new

/-- The call unbinds the page from the block or binds it anew. -/
def Call.Unbinds (key : LogicalPageKey) (b : Nat) : Call → Prop
  | insert key' _ => key' = key
  | get _ => False
  | removeBlock c => c = b

/-- The last insertion for the page binds it to the block, which has not been removed since. -/
def LastBound (calls : List Call) (key : LogicalPageKey) (b : Nat) : Prop :=
  ∃ before after, calls = before ++ .insert key b :: after ∧ ∀ call ∈ after, ¬call.Unbinds key b

theorem lastBound_append {calls : List Call} {call : Call} : LastBound (calls ++ [call]) key b ↔
    call = .insert key b ∨ LastBound calls key b ∧ ¬call.Unbinds key b := by
  constructor
  · rintro ⟨before, after, heq, hafter⟩
    rcases after.eq_nil_or_concat with rfl | ⟨init, last, rfl⟩
    · exact .inl (List.append_singleton_inj.1 heq).2
    · rw [List.concat_eq_append] at heq hafter
      obtain ⟨rfl, rfl⟩ := List.append_singleton_inj.1 (heq.trans (List.append_assoc before (_ :: init) [last]).symm)
      exact .inr ⟨⟨before, init, rfl, fun c hc => hafter c (List.mem_append_left _ hc)⟩, hafter _ (by simp)⟩
  · rintro (rfl | ⟨⟨before, after, rfl, hafter⟩, hcall⟩)
    · exact ⟨calls, [], rfl, by simp⟩
    · refine ⟨before, after ++ [call], by simp, fun c hc => ?_⟩
      rcases List.mem_append.1 hc with hold | hnew
      · exact hafter c hold
      · rwa [List.mem_singleton.1 hnew]

theorem run_append {calls : List Call} {call : Call} : run (calls ++ [call]) = match call with
    | .insert key b => (run calls).insert key b
    | .get _ => run calls
    | .removeBlock b => (run calls).removeBlock b := by
  rw [run, List.foldl_append]
  rfl

theorem agrees_run (calls : List Call) : (run calls).Agrees := by
  induction calls using List.reverseRecOn with
  | nil => exact agrees_new
  | append_singleton calls call ih =>
    rw [run_append]
    cases call with
    | insert key b => exact ih.insert
    | get key => exact ih
    | removeBlock b => exact ih.removeBlock

theorem get_run_iff (calls : List Call) : (run calls).get key = some b ↔ LastBound calls key b := by
  induction calls using List.reverseRecOn with
  | nil => simp [run, new, get, LastBound]
  | append_singleton calls call ih =>
    rw [run_append, lastBound_append, ← ih]
    cases call with
    | insert key' c =>
      rw [get_insert]
      by_cases hk : key = key'
      · subst hk
        simp [Call.Unbinds]
      · simp [Call.Unbinds, hk, Ne.symm hk]
    | get key' => simp [Call.Unbinds]
    | removeBlock c =>
      rw [(agrees_run calls).get_removeBlock]
      by_cases hb : (run calls).get key = some c
      · simp [Call.Unbinds, hb]
      · simp only [hb, if_false, reduceCtorEq, false_or, Call.Unbinds, iff_self_and]
        rintro h rfl
        exact hb h

/-- After any calls the two directions agree. An insertion leaves the page at no other block, a removal unbinds the pages of
the block alone, and a page is bound as the last insertion for it says. -/
theorem index_of_calls (calls : List Call) : (run calls).Agrees ∧
    (∀ key b c, c ≠ b → key ∉ ((run calls).insert key b).keysOf c) ∧
    (∀ key b, ((run calls).removeBlock b).get key = if (run calls).get key = some b then none else (run calls).get key) ∧
    ∀ key b, (run calls).get key = some b ↔ LastBound calls key b := by
  have hagrees := agrees_run calls
  refine ⟨hagrees, fun key b c hc => ?_, fun key b => hagrees.get_removeBlock, fun key b => get_run_iff calls⟩
  rw [hagrees.insert.inverse, get_insert, if_pos rfl, Option.some.injEq]
  exact Ne.symm hc

end CacheIdMap

end ShellCore.Block
