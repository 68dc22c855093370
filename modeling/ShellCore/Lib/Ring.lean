import Mathlib

/-!
# Rings

The cells of a ring of size `n` are numbered, and cell `i` is found at `i % n`. `window n cells head len` is what
`len` cells from `head` on hold.
-/

namespace ShellCore

open Function

variable {α : Type*} {n head len : Nat} {cells : Nat → α}

def window (n : Nat) (cells : Nat → α) (head : Nat) : Nat → List α
  | 0 => []
  | len + 1 => cells (head % n) :: window n cells (head + 1) len

theorem window_mod : window n cells (head % n) len = window n cells head len := by
  induction len generalizing head with
  | zero => rfl
  | succ len ih =>
    rw [window, window, Nat.mod_mod, ← ih, Nat.mod_add_mod, ih]

theorem window_succ : window n cells head (len + 1) = window n cells head len ++ [cells ((head + len) % n)] := by
  induction len generalizing head with
  | zero => rfl
  | succ len ih =>
    rw [window, ih, window, List.cons_append]
    congr 5
    omega

/-- Cells that are less than a full turn apart are different ones. -/
theorem ring_add_mod_ne {i j} (hij : i < j) (hj : j < n) : (head + i) % n ≠ (head + j) % n := by
  intro h
  have hmod : i % n = j % n := Nat.ModEq.add_left_cancel' head h
  rw [Nat.mod_eq_of_lt (hij.trans hj), Nat.mod_eq_of_lt hj] at hmod
  omega

theorem window_congr {other : Nat → α} (h : ∀ i < len, cells ((head + i) % n) = other ((head + i) % n)) :
    window n cells head len = window n other head len := by
  induction len with
  | zero => rfl
  | succ len ih => rw [window_succ, window_succ, ih fun i hi => h i (by omega), h len (by omega)]

/-- The cell after the window is written. -/
theorem window_push (h : len < n) (v : α) :
    window n (update cells ((head + len) % n) v) head (len + 1) = window n cells head len ++ [v] := by
  rw [window_succ, update_self]
  congr 1
  exact window_congr fun i hi => update_of_ne (ring_add_mod_ne hi h) ..

end ShellCore
