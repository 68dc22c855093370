import Mathlib

/-!
# Partitions of a range into intervals

`coverage l p` is how many intervals of `l` hold the point `p`. It is additive, so moving, splitting
and joining intervals are equations between coverages. A list partitions a range if it covers every
point of the range once and no other point.
-/

namespace ShellCore

/-- The points `base, …, base + size - 1`. -/
structure Span where
  base : Nat
  size : Nat
deriving DecidableEq

namespace Span

def Contains (i : Span) (p : Nat) : Prop := i.base ≤ p ∧ p < i.base + i.size

instance (i : Span) (p : Nat) : Decidable (i.Contains p) := inferInstanceAs (Decidable (_ ∧ _))

/-- 1 on the points of the interval. -/
def indicator (i : Span) (p : Nat) : Nat := if i.Contains p then 1 else 0

variable {i : Span} {p : Nat}

theorem indicator_of (h : i.Contains p) : i.indicator p = 1 := if_pos h

theorem indicator_of_not (h : ¬i.Contains p) : i.indicator p = 0 := if_neg h

end Span

open ShellCore.Span Finset

variable {l l₁ l₂ : List Span} {i j : Span} {p lo hi : Nat}

def coverage (l : List Span) (p : Nat) : Nat := (l.map fun i => i.indicator p).sum

@[simp] theorem coverage_nil : coverage [] p = 0 := rfl

@[simp] theorem coverage_cons : coverage (i :: l) p = i.indicator p + coverage l p := rfl

@[simp] theorem coverage_append : coverage (l₁ ++ l₂) p = coverage l₁ p + coverage l₂ p := by
  simp [coverage]

theorem coverage_perm (h : l₁.Perm l₂) : coverage l₁ p = coverage l₂ p := (h.map _).sum_eq

theorem coverage_pos : 0 < coverage l p ↔ ∃ i ∈ l, i.Contains p := by
  induction l with
  | nil => simp
  | cons i l ih =>
    rw [coverage_cons, List.exists_mem_cons_iff, ← ih]
    unfold indicator
    split <;> rename_i h <;> simp [h, Nat.pos_iff_ne_zero]

/-- An interval cut in two. -/
theorem indicator_split {b n m} : indicator ⟨b, n + m⟩ p = indicator ⟨b, n⟩ p + indicator ⟨b + n, m⟩ p := by
  by_cases h1 : (⟨b, n⟩ : Span).Contains p
  · have h2 : ¬(⟨b + n, m⟩ : Span).Contains p := by
      simp only [Contains] at *
      omega
    have h3 : (⟨b, n + m⟩ : Span).Contains p := by
      simp only [Contains] at *
      omega
    rw [indicator_of h1, indicator_of_not h2, indicator_of h3]
  · rw [indicator_of_not h1, Nat.zero_add]
    refine if_congr ?_ rfl rfl
    simp only [Contains] at *
    omega

/-- An interval cut into `n` pieces of one size. -/
theorem coverage_pieces {b u n} :
    coverage ((List.range n).map fun k => ⟨b + k * u, u⟩) p = indicator ⟨b, n * u⟩ p := by
  induction n with
  | zero =>
    have hno : ¬(⟨b, 0 * u⟩ : Span).Contains p := by simp [Contains]
    rw [indicator_of_not hno]
    rfl
  | succ n ih =>
    rw [List.range_succ, List.map_append, coverage_append, ih, Nat.succ_mul, indicator_split]
    simp

/-- The intervals cover each point of `[lo, hi)` once and no other point. -/
def Partitions (lo hi : Nat) (l : List Span) : Prop := ∀ p, coverage l p = if lo ≤ p ∧ p < hi then 1 else 0

namespace Partitions

variable (h : Partitions lo hi l)

include h

theorem disjoint : l.Pairwise fun i j => ∀ p, ¬(i.Contains p ∧ j.Contains p) := by
  have hle : ∀ p, coverage l p ≤ 1 := fun p => by
    rw [h p]
    split <;> omega
  clear h
  induction l with
  | nil => exact .nil
  | cons i l ih =>
    refine List.pairwise_cons.2 ⟨fun j hj p hp => ?_, ih fun p => ?_⟩
    · have hpos := coverage_pos.2 ⟨j, hj, hp.2⟩
      have := hle p
      rw [coverage_cons, indicator_of hp.1] at this
      omega
    · have := hle p
      rw [coverage_cons] at this
      omega

theorem subset (hi' : i ∈ l) (hp : i.Contains p) : lo ≤ p ∧ p < hi := by
  have hpos := coverage_pos.2 ⟨i, hi', hp⟩
  rw [h p] at hpos
  by_contra hout
  rw [if_neg hout] at hpos
  omega

theorem covers (hp : lo ≤ p ∧ p < hi) : ∃ i ∈ l, i.Contains p := by
  rw [← coverage_pos, h p, if_pos hp]
  exact Nat.one_pos

end Partitions

/-- The number of points of `[lo, hi)`, counted with how often they are covered. -/
theorem sum_indicator (h : ∀ p, i.Contains p → lo ≤ p ∧ p < hi) : ∑ p ∈ Ico lo hi, i.indicator p = i.size := by
  unfold indicator
  rw [← card_filter]
  have hset : (Ico lo hi).filter (fun p => i.Contains p) = Ico i.base (i.base + i.size) := by
    ext p
    rw [mem_filter, mem_Ico, mem_Ico]
    exact ⟨fun hp => hp.2, fun hp => ⟨h p hp, hp⟩⟩
  rw [hset, Nat.card_Ico]
  omega

theorem sum_coverage (h : ∀ i ∈ l, ∀ p, i.Contains p → lo ≤ p ∧ p < hi) :
    ∑ p ∈ Ico lo hi, coverage l p = (l.map Span.size).sum := by
  induction l with
  | nil => simp
  | cons i l ih =>
    simp only [coverage_cons, sum_add_distrib, List.map_cons, List.sum_cons]
    rw [sum_indicator (h i List.mem_cons_self), ih fun j hj => h j (List.mem_cons_of_mem _ hj)]

/-- In a partition, the points that the second part leaves uncovered are as many as the first part has. -/
theorem Partitions.card_uncovered (h : Partitions lo hi (l₁ ++ l₂)) :
    ((Ico lo hi).filter fun p => coverage l₂ p = 0).card = (l₁.map Span.size).sum := by
  have hsub : ∀ i ∈ l₁, ∀ p, i.Contains p → lo ≤ p ∧ p < hi :=
    fun i hi' p hp => h.subset (List.mem_append_left _ hi') hp
  rw [← sum_coverage hsub, card_filter]
  refine sum_congr rfl fun p hp => ?_
  have hone := h p
  rw [coverage_append, if_pos (mem_Ico.1 hp)] at hone
  split <;> omega

end ShellCore
