import Mathlib.Data.List.Nodup
import Mathlib.Logic.Function.Basic

/-!
# Lists of bindings as finite maps

`Represents l m` says that the bindings of `l` have distinct keys and are the graph of `m`. The
three edits of a store kept as a list (insert anywhere, drop a binding, overwrite a binding) are
`update` on the map.
-/

namespace FiniteMap

open Function List

variable {κ ν : Type}

/-- The bindings `l` are the graph of `m`, each key bound once. -/
structure Represents (l : List (κ × ν)) (m : κ → Option ν) : Prop where
  nodup : (l.map Prod.fst).Nodup
  mem_iff : ∀ k v, m k = some v ↔ (k, v) ∈ l

namespace Represents

variable {l a b : List (κ × ν)} {m : κ → Option ν} {k : κ} {v w : ν}

theorem lookup_eq_none_iff (h : Represents l m) : m k = none ↔ ∀ e ∈ l, e.1 ≠ k := by
  constructor
  · rintro hk ⟨k', v'⟩ he rfl
    rw [(h.mem_iff k' v').2 he] at hk
    cases hk
  · intro hk
    cases hm : m k with
    | none => rfl
    | some v => exact absurd rfl (hk (k, v) ((h.mem_iff k v).1 hm))

variable (h : Represents (a ++ (k, v) :: b) m)

include h

theorem lookup_mid : m k = some v :=
  (h.mem_iff k v).2 (by simp)

/-- Around a binding, no other binding has its key. -/
theorem ne_key_of_mid : ∀ e ∈ a ++ b, e.1 ≠ k := by
  have hnd := h.nodup
  rw [map_append, map_cons, nodup_middle, nodup_cons, ← map_append] at hnd
  rintro e he hek
  exact hnd.1 (mem_map.2 ⟨e, he, hek⟩)

variable [DecidableEq κ]

omit h in
theorem insert (h : Represents (a ++ b) m) (hk : m k = none) :
    Represents (a ++ (k, v) :: b) (update m k (some v)) := by
  have hfresh := h.lookup_eq_none_iff.1 hk
  refine ⟨?_, ?_⟩
  · rw [map_append, map_cons, nodup_middle, nodup_cons, ← map_append]
    refine ⟨?_, h.nodup⟩
    rw [mem_map]
    rintro ⟨e, he, hek⟩
    exact hfresh e he hek
  · intro k' v'
    by_cases hkk : k' = k
    · subst hkk
      have hno : (k', v') ∉ a ++ b := fun he => hfresh _ he rfl
      rw [update_self]
      simp only [mem_append, mem_cons, Prod.mk.injEq, true_and] at hno ⊢
      constructor
      · rintro ⟨⟩; exact Or.inr (Or.inl rfl)
      · rintro (h1 | rfl | h1)
        · exact absurd (Or.inl h1) hno
        · rfl
        · exact absurd (Or.inr h1) hno
    · rw [update_of_ne hkk, h.mem_iff]
      simp [hkk]

theorem erase : Represents (a ++ b) (update m k none) := by
  have hne := h.ne_key_of_mid
  refine ⟨?_, ?_⟩
  · have hnd := h.nodup
    rw [map_append, map_cons, nodup_middle, nodup_cons, ← map_append] at hnd
    exact hnd.2
  · intro k' v'
    by_cases hkk : k' = k
    · subst hkk
      rw [update_self]
      constructor
      · intro hc; cases hc
      · intro he; exact absurd rfl (hne _ he)
    · rw [update_of_ne hkk, h.mem_iff]
      simp [hkk]

theorem overwrite : Represents (a ++ (k, w) :: b) (update m k (some w)) := by
  have herased := h.erase
  have hnone : update m k none k = none := update_self ..
  simpa using herased.insert (v := w) hnone

end Represents

end FiniteMap
