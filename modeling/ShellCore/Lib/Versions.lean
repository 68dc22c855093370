import Mathlib

/-!
# The values a location has had

`Versions` numbers the values that each location of a store has had, the latest one last. A copy of the
store that lags behind is described by how old its value is: `Since b n x` says that `x` was the value of
`b` at version `n` or later.
-/

namespace ShellCore

open Function

structure Versions (β α : Type) where
  version : β → Nat
  value : β → Nat → α

namespace Versions

variable {β α : Type}

def init (d : β → α) : Versions β α := ⟨fun _ => 0, fun b _ => d b⟩

def current (h : Versions β α) (b : β) : α := h.value b (h.version b)

/-- `x` has been the value of `b` since version `n`. -/
def Since (h : Versions β α) (b : β) (n : Nat) (x : α) : Prop := ∃ k, n ≤ k ∧ k ≤ h.version b ∧ h.value b k = x

/-- `h'` continues `h`. -/
structure Extends (h h' : Versions β α) : Prop where
  version : ∀ b, h.version b ≤ h'.version b
  value : ∀ b k, k ≤ h.version b → h'.value b k = h.value b k

variable {h h' : Versions β α} {b c : β} {n : Nat} {x : α}

@[simp] theorem current_init {d : β → α} : (init d).current b = d b := rfl

theorem Extends.refl : Extends h h := ⟨fun _ => le_refl _, fun _ _ _ => rfl⟩

theorem since_current (hn : n ≤ h.version b) : h.Since b n (h.current b) := ⟨h.version b, hn, le_refl _, rfl⟩

theorem Since.extends (hs : h.Since b n x) (he : Extends h h') : h'.Since b n x := by
  obtain ⟨k, hn, hk, hx⟩ := hs
  exact ⟨k, hn, hk.trans (he.version b), (he.value b k hk).trans hx⟩

/-- The only value since the latest version is the current one. -/
theorem Since.eq_current (hs : h.Since b n x) (hn : n = h.version b) : x = h.current b := by
  obtain ⟨k, hle, hk, hx⟩ := hs
  obtain rfl : k = h.version b := by omega
  exact hx.symm

variable [DecidableEq β]

def write (h : Versions β α) (b : β) (x : α) : Versions β α where
  version := update h.version b (h.version b + 1)
  value := update h.value b (update (h.value b) (h.version b + 1) x)

@[simp] theorem current_write_self : (h.write b x).current b = x := by
  simp [current, write]

@[simp] theorem current_write_of_ne (hc : c ≠ b) : (h.write b x).current c = h.current c := by
  simp [current, write, hc]

theorem extends_write : Extends h (h.write b x) where
  version c := by
    by_cases hc : c = b
    · subst hc
      simp [write]
    · simp [write, hc]
  value c k hk := by
    by_cases hc : c = b
    · subst hc
      have hne : k ≠ h.version c + 1 := by omega
      simp [write, hne]
    · simp [write, hc]

end Versions

end ShellCore
