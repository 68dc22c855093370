import Mathlib

/-!
# Addresses, page numbers and machine arithmetic

Addresses are `usize` values. A virtual address keeps the low `VA_WIDTH` bits of one; a page number
is a plain index. An unchecked `+` or `-` of the source either wraps or panics, depending on how the
kernel is built: `Arith` is that choice, and a panic is `none`.
-/

namespace ShellCore.Mm

def PAGE_SIZE : Nat := 4096
def VA_WIDTH : Nat := 39
def VPN_WIDTH : Nat := 27

/-- What the build does with an overflowing `+` or `-`. -/
inductive Arith where
  | wrapping
  | checked
deriving DecidableEq

/-- `a + b` on `usize`. -/
def Arith.add (m : Arith) (a b : Nat) : Option Nat :=
  if a + b < 2 ^ 64 then some (a + b)
  else match m with
    | .wrapping => some ((a + b) % 2 ^ 64)
    | .checked => none

/-- `a - b` on `usize`. -/
def Arith.sub (m : Arith) (a b : Nat) : Option Nat :=
  if b ≤ a then some (a - b)
  else match m with
    | .wrapping => some (a + 2 ^ 64 - b)
    | .checked => none

/-- `a.checked_add(b)`. -/
def checkedAdd (a b : Nat) : Option Nat := if a + b < 2 ^ 64 then some (a + b) else none

namespace VirtAddr

/-- `VirtAddr::from(usize)`: silently drops the bits above `VA_WIDTH`. -/
def ofUsize (v : Nat) : Nat := v % 2 ^ VA_WIDTH

def stdFloor (va : Nat) : Nat := va / PAGE_SIZE

/-- `(self.0 - 1 + PAGE_SIZE) / PAGE_SIZE`, in that order of evaluation. -/
def stdCeil (m : Arith) (va : Nat) : Option Nat := do
  let pred ← m.sub va 1
  let up ← m.add pred PAGE_SIZE
  return up / PAGE_SIZE

end VirtAddr

/-- `VirtPageNum::from(usize)`. -/
def VirtPageNum.ofUsize (v : Nat) : Nat := v % 2 ^ VPN_WIDTH

/-- `VPNRange::new` asserts that its bounds are ordered. -/
def VPNRange.new (start stop : Nat) : Option (Nat × Nat) := if start ≤ stop then some (start, stop) else none

variable {m : Arith} {a b c : Nat}

theorem Arith.add_eq (h : a + b < 2 ^ 64) : m.add a b = some (a + b) := if_pos h

theorem Arith.sub_eq (h : b ≤ a) : m.sub a b = some (a - b) := if_pos h

theorem VPNRange.new_some {r} : VPNRange.new a b = some r ↔ a ≤ b ∧ r = (a, b) := by
  unfold VPNRange.new
  by_cases h : a ≤ b
  · rw [if_pos h, and_iff_right h, Option.some_inj, eq_comm]
  · rw [if_neg h]
    exact ⟨nofun, fun hc => absurd hc.1 h⟩

namespace VirtAddr

theorem ofUsize_lt : ofUsize a < 2 ^ 39 := Nat.mod_lt _ (by decide)

theorem stdCeil_pos (h0 : 0 < a) (h : a < 2 ^ 40) : stdCeil m a = some ((a + 4095) / 4096) := by
  have h1 : a - 1 + 4096 < 2 ^ 64 := by omega
  simp only [stdCeil, PAGE_SIZE, Arith.sub_eq h0, Option.bind_eq_bind, Option.bind_some, Arith.add_eq h1,
    pure]
  congr 2
  omega

theorem stdCeil_zero : stdCeil .wrapping 0 = some 0 := by decide

/-- Whenever rounding up returns, it returns the rounded-up page number. -/
theorem stdCeil_some (h : a < 2 ^ 40) (hc : stdCeil m a = some c) : c = (a + 4095) / 4096 := by
  rcases Nat.eq_zero_or_pos a with rfl | h0
  · cases m with
    | wrapping => exact (Option.some.inj (stdCeil_zero.symm.trans hc)).symm
    | checked => cases (show stdCeil .checked 0 = none by decide).symm.trans hc
  · rw [stdCeil_pos h0 h] at hc
    exact (Option.some.inj hc).symm

theorem stdCeil_ofUsize (hc : stdCeil m (ofUsize a) = some c) : c = (a % 2 ^ 39 + 4095) / 4096 :=
  stdCeil_some (Nat.lt_trans ofUsize_lt (by decide)) hc

end VirtAddr

end ShellCore.Mm
