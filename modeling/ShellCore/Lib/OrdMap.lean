import Mathlib.Data.List.Basic
import Mathlib.Data.List.Pairwise

/-!
# Ordered finite maps

A map from natural-number keys kept as a list of bindings in strictly increasing key order, the
order in which it is iterated. Every map is determined by its lookups (`ext`), and each edit is
specified by one lookup lemma (`get?_insert`, `get?_erase`, `get?_splitOff`).
-/

/-- Bindings in strictly increasing key order. -/
structure OrdMap (ν : Type) where
  entries : List (Nat × ν)
  sorted : entries.Pairwise fun a b => a.1 < b.1
deriving DecidableEq

namespace OrdMap

open List

variable {ν : Type} {m m₁ m₂ : OrdMap ν} {k k' : Nat} {v w : ν}

def empty : OrdMap ν := ⟨[], Pairwise.nil⟩

def get? (m : OrdMap ν) (k : Nat) : Option ν := m.entries.lookup k

/-- Binds `k` to `v` at its place, over an older binding of `k`. -/
def insertEntry (k : Nat) (v : ν) : List (Nat × ν) → List (Nat × ν)
  | [] => [(k, v)]
  | e :: l => if k < e.1 then (k, v) :: e :: l else if k = e.1 then (k, v) :: l else e :: insertEntry k v l

variable {l : List (Nat × ν)}

theorem mem_insertEntry {e} (h : e ∈ insertEntry k v l) : e = (k, v) ∨ e ∈ l := by
  induction l with
  | nil => simpa [insertEntry] using h
  | cons x l ih =>
    unfold insertEntry at h
    split at h
    · simpa using h
    · split at h
      · rcases mem_cons.1 h with h | h
        · exact Or.inl h
        · exact Or.inr (mem_cons_of_mem _ h)
      · rcases mem_cons.1 h with h | h
        · exact Or.inr (h ▸ mem_cons_self)
        · exact (ih h).imp_right (mem_cons_of_mem _)

theorem insertEntry_sorted (h : l.Pairwise fun a b => a.1 < b.1) :
    (insertEntry k v l).Pairwise fun a b => a.1 < b.1 := by
  induction l with
  | nil => simp [insertEntry]
  | cons x l ih =>
    obtain ⟨hx, hl⟩ := pairwise_cons.1 h
    unfold insertEntry
    split
    · rename_i hlt
      refine pairwise_cons.2 ⟨?_, h⟩
      intro e he
      rcases mem_cons.1 he with rfl | he
      · exact hlt
      · exact Nat.lt_trans hlt (hx e he)
    · split
      · rename_i heq
        exact pairwise_cons.2 ⟨fun e he => heq ▸ hx e he, hl⟩
      · refine pairwise_cons.2 ⟨?_, ih hl⟩
        intro e he
        rcases mem_insertEntry he with rfl | he
        · show x.1 < k
          omega
        · exact hx e he

variable (m)

def insert (k : Nat) (v : ν) : OrdMap ν :=
  ⟨insertEntry k v m.entries, insertEntry_sorted m.sorted⟩

def erase (k : Nat) : OrdMap ν :=
  ⟨m.entries.filter fun e => e.1 ≠ k, m.sorted.filter _⟩

def keys : List Nat := m.entries.map Prod.fst

/-- The bindings with a key below `k`. -/
def below (k : Nat) : OrdMap ν :=
  ⟨m.entries.filter fun e => e.1 < k, m.sorted.filter _⟩

/-- The bindings with a key of at least `k`: what splitting the map at `k` moves out of it. -/
def splitOff (k : Nat) : OrdMap ν :=
  ⟨m.entries.filter fun e => k ≤ e.1, m.sorted.filter _⟩

/-- The bindings with a key outside `[lo, hi)`. -/
def without (lo hi : Nat) : OrdMap ν :=
  ⟨m.entries.filter fun e => ¬(lo ≤ e.1 ∧ e.1 < hi), m.sorted.filter _⟩

/-- The binding with the largest key that is at most `k`. -/
def lastLe (k : Nat) : Option (Nat × ν) :=
  (m.entries.filter fun e => e.1 ≤ k).getLast?

variable {m}

/-- The same keys, each value replaced by its image. -/
def mapVal (g : ν → ν) (m : OrdMap ν) : OrdMap ν :=
  ⟨m.entries.map fun e => (e.1, g e.2), pairwise_map.2 m.sorted⟩

theorem lookup_cons_if {e} : (e :: l).lookup k = if k = e.1 then some e.2 else l.lookup k := by
  rw [lookup_cons]
  by_cases hk : k = e.1
  · rw [if_pos hk, hk, beq_self_eq_true]
  · rw [if_neg hk, beq_false_of_ne hk]

theorem lookup_eq_some_iff (h : l.Pairwise fun a b => a.1 < b.1) : l.lookup k = some v ↔ (k, v) ∈ l := by
  induction l with
  | nil => simp
  | cons x l ih =>
    obtain ⟨hx, hl⟩ := pairwise_cons.1 h
    rw [lookup_cons_if]
    by_cases hk : k = x.1
    · have hno : (k, v) ∉ l := fun hmem => absurd (hx (k, v) hmem) (hk ▸ Nat.lt_irrefl k)
      have hmem : (k, v) ∈ x :: l ↔ v = x.2 := by
        rw [mem_cons, or_iff_left hno, Prod.ext_iff, and_iff_right hk]
      rw [if_pos hk, hmem, Option.some_inj, eq_comm]
    · have hne : (k, v) ≠ x := fun h => hk (congrArg Prod.fst h)
      rw [if_neg hk, ih hl, mem_cons, or_iff_right hne]

theorem mem_entries : (k, v) ∈ m.entries ↔ m.get? k = some v :=
  (lookup_eq_some_iff m.sorted).symm

theorem lastLe_eq_none : m.lastLe k = none ↔ ∀ k' ≤ k, m.get? k' = none := by
  simp only [lastLe, getLast?_eq_none_iff, filter_eq_nil_iff, Prod.forall, mem_entries, decide_eq_true_eq, Nat.not_le]
  refine ⟨fun h k' hk => ?_, fun h k' v hv => ?_⟩
  · cases hv : m.get? k' with
    | none => rfl
    | some v => exact absurd (h k' v hv) (by omega)
  · by_contra hk
    rw [h k' (by omega)] at hv
    cases hv

theorem mem_keys : k ∈ m.keys ↔ ∃ v, m.get? k = some v := by
  simp only [keys, mem_map, Prod.exists, exists_and_right, exists_eq_right, mem_entries]

@[ext] theorem ext (h : ∀ k, m₁.get? k = m₂.get? k) : m₁ = m₂ := by
  have hmem : ∀ e, e ∈ m₁.entries ↔ e ∈ m₂.entries := fun ⟨k, v⟩ => by
    rw [mem_entries, mem_entries, h]
  have heq : m₁.entries = m₂.entries := by
    have hnd : ∀ m : OrdMap ν, m.entries.Nodup := by
      intro m
      refine m.sorted.imp ?_
      rintro a b hab rfl
      exact Nat.lt_irrefl _ hab
    exact ((perm_ext_iff_of_nodup (hnd m₁) (hnd m₂)).2 hmem).eq_of_pairwise
      (fun a b _ _ hab hba => absurd hba (Nat.lt_asymm hab)) m₁.sorted m₂.sorted
  cases m₁
  cases m₂
  simpa using heq

/-- A lookup in a filtered map, for a filter that reads only the key. -/
theorem lookup_filter_key (p : Nat → Bool) :
    (l.filter fun e => p e.1).lookup k = if p k then l.lookup k else none := by
  induction l with
  | nil => simp
  | cons x l ih =>
    by_cases hp : p x.1 = true
    · rw [filter_cons, if_pos hp, lookup_cons_if, lookup_cons_if, ih]
      by_cases hk : k = x.1
      · rw [if_pos hk, if_pos hk, hk, if_pos hp]
      · rw [if_neg hk, if_neg hk]
    · rw [filter_cons, if_neg hp, lookup_cons_if, ih]
      by_cases hk : k = x.1
      · rw [if_pos hk, hk, if_neg hp, if_neg hp]
      · rw [if_neg hk]

@[simp] theorem get?_empty : (empty : OrdMap ν).get? k = none := rfl

theorem lookup_insertEntry : (insertEntry k v l).lookup k' = if k' = k then some v else l.lookup k' := by
  induction l with
  | nil => exact lookup_cons_if
  | cons x l ih =>
    unfold insertEntry
    by_cases hlt : k < x.1
    · rw [if_pos hlt, lookup_cons_if]
    · by_cases heq : k = x.1
      · rw [if_neg hlt, if_pos heq, lookup_cons_if, lookup_cons_if, ← heq]
        by_cases hk : k' = k
        · rw [if_pos hk, if_pos hk]
        · rw [if_neg hk, if_neg hk, if_neg hk]
      · rw [if_neg hlt, if_neg heq, lookup_cons_if, lookup_cons_if, ih]
        by_cases hk : k' = k
        · rw [if_pos hk, if_pos hk, hk, if_neg heq]
        · rw [if_neg hk, if_neg hk]

theorem get?_insert : (m.insert k v).get? k' = if k' = k then some v else m.get? k' :=
  lookup_insertEntry

@[simp] theorem get?_insert_self : (m.insert k v).get? k = some v := by
  rw [get?_insert, if_pos rfl]

theorem get?_insert_of_ne (h : k' ≠ k) : (m.insert k v).get? k' = m.get? k' := by
  rw [get?_insert, if_neg h]

theorem get?_erase : (m.erase k).get? k' = if k' = k then none else m.get? k' := by
  have := @lookup_filter_key ν k' m.entries fun x => decide (x ≠ k)
  simp only [decide_eq_true_eq] at this
  unfold get? erase
  simp only
  rw [this]
  by_cases hk : k' = k <;> simp [hk]

theorem get?_below : (m.below k).get? k' = if k' < k then m.get? k' else none := by
  have := @lookup_filter_key ν k' m.entries fun x => decide (x < k)
  simp only [decide_eq_true_eq] at this
  exact this

theorem get?_without {lo hi} : (m.without lo hi).get? k = if lo ≤ k ∧ k < hi then none else m.get? k := by
  have := @lookup_filter_key ν k m.entries fun x => decide (¬(lo ≤ x ∧ x < hi))
  simp only [decide_eq_true_eq] at this
  unfold get? without
  simp only
  rw [this]
  by_cases hk : lo ≤ k ∧ k < hi <;> simp [hk]

variable {g : ν → ν}

theorem get?_mapVal : (m.mapVal g).get? k = (m.get? k).map g := by
  unfold get? mapVal
  simp only
  induction m.entries with
  | nil => rfl
  | cons x l ih =>
    rw [map_cons, lookup_cons_if, lookup_cons_if, ih]
    by_cases hk : k = x.1
    · rw [if_pos hk, if_pos hk, Option.map_some]
    · rw [if_neg hk, if_neg hk]

/-- Overwriting the chosen bindings of a list one after the other. -/
theorem get?_foldl_insert {p : ν → Bool} (hl : l.Pairwise fun a b => a.1 < b.1) :
    (l.foldl (fun m e => if p e.2 then m.insert e.1 (g e.2) else m) m).get? k =
      match l.lookup k with
      | some v => if p v then some (g v) else m.get? k
      | none => m.get? k := by
  induction l generalizing m with
  | nil => rfl
  | cons x l ih =>
    obtain ⟨hx, hl⟩ := pairwise_cons.1 hl
    rw [foldl_cons, ih hl, lookup_cons_if]
    by_cases hk : k = x.1
    · have hno : l.lookup k = none := by
        rw [Option.eq_none_iff_forall_not_mem]
        intro v hv
        exact absurd (hx _ ((lookup_eq_some_iff hl).1 hv)) (hk ▸ Nat.lt_irrefl k)
      rw [if_pos hk, hno]
      subst hk
      by_cases hp : p x.2 = true
      · simp only [hp, if_true, get?_insert_self]
      · simp only [hp, if_false, Bool.false_eq_true]
    · rw [if_neg hk]
      by_cases hp : p x.2 = true
      · simp only [hp, if_true, get?_insert_of_ne hk]
      · simp only [hp, if_false, Bool.false_eq_true]

/-- Overwriting the chosen bindings of a map. -/
theorem foldl_insert_entries_if {p : ν → Bool} :
    m.entries.foldl (fun m e => if p e.2 then m.insert e.1 (g e.2) else m) m =
      m.mapVal fun v => if p v then g v else v := by
  ext1 k
  rw [get?_foldl_insert m.sorted, get?_mapVal, get?]
  cases m.entries.lookup k with
  | none => rfl
  | some v => cases hp : p v <;> simp [hp]

theorem get?_foldl_erase {ks : List Nat} : (ks.foldl erase m).get? k = if k ∈ ks then none else m.get? k := by
  induction ks generalizing m with
  | nil => simp
  | cons x ks ih =>
    rw [foldl_cons, ih, get?_erase]
    by_cases h1 : k ∈ ks
    · simp [h1]
    · by_cases h2 : k = x <;> simp [h1, h2]

end OrdMap
