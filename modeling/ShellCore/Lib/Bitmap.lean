import Mathlib.Data.Nat.Bitwise
import Mathlib.Data.List.Count
import Mathlib.Tactic.IntervalCases

/-!
# Bitmaps

Bit `i` of a byte string is bit `i % 8` of byte `i / 8`.
-/

namespace Bitmap

open List

/-- The byte with only the bit of `i`. -/
def mask (i : Nat) : UInt8 :=
  1 <<< UInt8.ofNat (i % 8)

variable (bm : List UInt8) (i : Nat)

def test : Bool :=
  bm.getD (i / 8) 0 &&& mask i != 0

def set : List UInt8 :=
  bm.modify (i / 8) (· ||| mask i)

def clear : List UInt8 :=
  bm.modify (i / 8) (· &&& ~~~mask i)

/-- The number of clear bits among the first `n`. -/
def countFree (n : Nat) : Nat :=
  (range n).countP fun i => !test bm i

/-- The first clear bit among the first `n`. -/
def firstFree (n : Nat) : Option Nat :=
  (range n).find? fun i => !test bm i

theorem toNat_mask : (mask i).toNat = 2 ^ (i % 8) := by
  have h : i % 8 < 8 := Nat.mod_lt _ (by decide)
  unfold mask
  generalize i % 8 = k at h
  interval_cases k <;> rfl

theorem test_eq : test bm i = (bm.getD (i / 8) 0).toNat.testBit (i % 8) := by
  unfold test
  have hne : ∀ v : UInt8, (v != 0) = (v.toNat != 0) := by
    intro v
    rw [Bool.eq_iff_iff, bne_iff_ne, bne_iff_ne, ne_eq, ne_eq, ← UInt8.toNat_inj]
    rfl
  rw [hne, UInt8.toNat_and, toNat_mask, Nat.and_two_pow]
  cases Nat.testBit (bm.getD (i / 8) 0).toNat (i % 8) <;> simp

@[simp] theorem length_set : (set bm i).length = bm.length := by
  simp [set]

@[simp] theorem length_clear : (clear bm i).length = bm.length := by
  simp [clear]

variable {bm : List UInt8}

theorem getD_modify {f : UInt8 → UInt8} {i j} (hi : i < bm.length) :
    (bm.modify i f).getD j 0 = if i = j then f (bm.getD j 0) else bm.getD j 0 := by
  simp only [getD_eq_getElem?_getD, getElem?_modify]
  by_cases h : i = j
  · subst h
    simp [hi]
  · simp [h]

theorem test_set {i} (hi : i / 8 < bm.length) (j : Nat) :
    test (set bm i) j = (decide (i = j) || test bm j) := by
  rw [test_eq, test_eq, set, getD_modify hi]
  by_cases hbyte : i / 8 = j / 8
  · rw [if_pos hbyte, UInt8.toNat_or, Nat.testBit_or, toNat_mask, Nat.testBit_two_pow, Bool.or_comm]
    congr 1
    rw [decide_eq_decide]
    omega
  · rw [if_neg hbyte, decide_eq_false (by rintro rfl; exact hbyte rfl), Bool.false_or]

theorem test_clear {i} (hi : i / 8 < bm.length) (j : Nat) :
    test (clear bm i) j = (!decide (i = j) && test bm j) := by
  rw [test_eq, test_eq, clear, getD_modify hi]
  by_cases hbyte : i / 8 = j / 8
  · have hnot : (~~~mask i).toNat = 2 ^ 8 - (2 ^ (i % 8) + 1) := by
      rw [UInt8.toNat_not, toNat_mask, Nat.add_comm, Nat.sub_add_eq]
      rfl
    rw [if_pos hbyte, UInt8.toNat_and, Nat.testBit_and, hnot,
      Nat.testBit_two_pow_sub_succ (Nat.pow_lt_pow_right (by decide) (Nat.mod_lt _ (by decide))),
      Nat.testBit_two_pow, decide_eq_true (Nat.mod_lt j (by decide)), Bool.true_and, Bool.and_comm]
    congr 2
    rw [decide_eq_decide]
    omega
  · rw [if_neg hbyte, decide_eq_false (by rintro rfl; exact hbyte rfl), Bool.not_false, Bool.true_and]

variable {i n : Nat}

/-- Two bitmaps that differ in bit `i` only. -/
theorem countFree_of_differ {a b} (hin : i < n) (ha : test a i = true)
    (hb : test b i = false) (h : ∀ j, j ≠ i → test a j = test b j) : countFree a n + 1 = countFree b n := by
  unfold countFree
  induction n with
  | zero => omega
  | succ n ih =>
    rw [range_succ, countP_append, countP_append, countP_singleton, countP_singleton]
    by_cases hn : i = n
    · subst hn
      have hsame : (range i).countP (fun j => !test a j) = (range i).countP fun j => !test b j := by
        refine countP_congr fun j hj => ?_
        rw [h j (by have := mem_range.1 hj; omega)]
      rw [hsame, ha, hb]
      rfl
    · have := ih (by omega)
      rw [h n (Ne.symm hn)]
      omega

theorem countFree_set (hi : i / 8 < bm.length) (hin : i < n)
    (h : test bm i = false) : countFree (set bm i) n + 1 = countFree bm n := by
  refine countFree_of_differ hin ?_ h fun j hj => ?_
  · rw [test_set hi]; simp
  · rw [test_set hi, decide_eq_false (Ne.symm hj), Bool.false_or]

theorem countFree_clear (hi : i / 8 < bm.length) (hin : i < n)
    (h : test bm i = true) : countFree (clear bm i) n = countFree bm n + 1 := by
  refine (countFree_of_differ hin h ?_ fun j hj => ?_).symm
  · rw [test_clear hi]; simp
  · rw [test_clear hi, decide_eq_false (Ne.symm hj), Bool.not_false, Bool.true_and]

theorem firstFree_spec (h : firstFree bm n = some i) : i < n ∧ test bm i = false := by
  refine ⟨mem_range.1 (mem_of_find?_eq_some h), ?_⟩
  simpa using find?_some h

theorem countFree_le (bm : List UInt8) (n : Nat) : countFree bm n ≤ n := by
  have := @countP_le_length _ (fun i => !test bm i) (range n)
  rwa [length_range] at this

end Bitmap
