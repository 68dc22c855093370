import Mathlib.Order.Basic

/-!
# Binary search for a partition point

The loop `while lo < hi { mid = (lo + hi) / 2; if p(mid) { lo = mid + 1 } else { hi = mid } }`. On a
predicate that holds on an initial segment it returns the end of that segment.
-/

namespace BinarySearch

/-- The loop; the answer is the final `lo`. -/
def partitionPoint (p : Nat → Bool) (lo hi : Nat) : Nat :=
  if lo < hi then
    if p ((lo + hi) / 2) then partitionPoint p ((lo + hi) / 2 + 1) hi
    else partitionPoint p lo ((lo + hi) / 2)
  else lo
termination_by hi - lo

variable {p q : Nat → Bool} {lo hi : Nat}

theorem partitionPoint_congr (h : ∀ i, lo ≤ i → i < hi → p i = q i) :
    partitionPoint p lo hi = partitionPoint q lo hi := by
  fun_induction partitionPoint p lo hi with
  | case1 lo hi hlt hp ih =>
    rw [partitionPoint.eq_def q, if_pos hlt, ← h _ (by omega) (by omega), if_pos hp]
    exact ih fun i h1 h2 => h i (by omega) h2
  | case2 lo hi hlt hp ih =>
    rw [partitionPoint.eq_def q, if_pos hlt, ← h _ (by omega) (by omega), if_neg hp]
    exact ih fun i h1 h2 => h i h1 (by omega)
  | case3 lo hi hlt => rw [partitionPoint.eq_def q, if_neg hlt]

theorem partitionPoint_bounds (h : lo ≤ hi) : lo ≤ partitionPoint p lo hi ∧ partitionPoint p lo hi ≤ hi := by
  fun_induction partitionPoint p lo hi with
  | case1 lo hi hlt hp ih => have := ih (by omega); omega
  | case2 lo hi hlt hp ih => have := ih (by omega); omega
  | case3 lo hi hlt => omega

/-- On a downward closed predicate the answer separates the two halves. -/
theorem partitionPoint_iff (hmono : ∀ i j, i ≤ j → j < hi → p j = true → p i = true) {i}
    (hlo : lo ≤ i) (hhi : i < hi) : p i = true ↔ i < partitionPoint p lo hi := by
  fun_induction partitionPoint p lo hi with
  | case1 lo hi hlt hp ih =>
    by_cases hi' : (lo + hi) / 2 + 1 ≤ i
    · exact ih hmono hi' hhi
    · have hb := @partitionPoint_bounds p ((lo + hi) / 2 + 1) hi (by omega)
      have := hmono i ((lo + hi) / 2) (by omega) (by omega) hp
      constructor
      · intro _; omega
      · intro _; exact this
  | case2 lo hi hlt hp ih =>
    by_cases hi' : i < (lo + hi) / 2
    · exact ih (fun a b hab hb => hmono a b hab (by omega)) hlo hi'
    · have hb := @partitionPoint_bounds p lo ((lo + hi) / 2) (by omega)
      constructor
      · intro hpi; exact absurd (hmono ((lo + hi) / 2) i (by omega) hhi hpi) hp
      · intro hlt'; omega
  | case3 lo hi hlt => omega

end BinarySearch
