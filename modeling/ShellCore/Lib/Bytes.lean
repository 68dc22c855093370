import Mathlib.Data.List.Basic
import Mathlib.Tactic.Ring
import Mathlib.Tactic.NormNum

/-!
# Byte buffers

Little-endian fields and in-place stores on `List UInt8`. `slice` and `splice` are the two
operations a fixed buffer is accessed with (`buf[off..off+n]` and `copy_from_slice`); both are
described on buffers given as concatenations, which is how the layouts above this module state
their contents.
-/

namespace ByteBuf

open List

section Slices

variable {α : Type} {a x c b s : List α} {off o n : Nat}

/-- `buf[off .. off + n]`. -/
def slice (b : List α) (off n : Nat) : List α := (b.drop off).take n

/-- `buf[off .. off + s.len()].copy_from_slice(s)`. -/
def splice (b : List α) (off : Nat) (s : List α) : List α :=
  b.take off ++ (s ++ b.drop (off + s.length))

theorem length_slice (h : off + n ≤ b.length) : (slice b off n).length = n := by
  simp [slice]; omega

theorem length_splice (h : off + s.length ≤ b.length) : (splice b off s).length = b.length := by
  simp [splice]; omega

/-- A store over the middle part of a concatenation. -/
theorem splice_append (h : x.length = s.length) : splice (a ++ (x ++ c)) a.length s = a ++ (s ++ c) := by
  unfold splice
  rw [take_left, ← drop_drop, drop_left, ← h, drop_left]

theorem splice_append_at (ha : off = a.length)
    (h : x.length = s.length) : splice (a ++ (x ++ c)) off s = a ++ (s ++ c) := by
  subst ha
  exact splice_append h

/-- A store into the second part of a concatenation. -/
theorem splice_append_right (ha : off = a.length + o) : splice (a ++ x) off s = a ++ splice x o s := by
  subst ha
  unfold splice
  rw [take_length_add_append, Nat.add_assoc, drop_length_add_append, append_assoc]

theorem slice_append : slice (a ++ (x ++ c)) a.length x.length = x := by
  unfold slice
  rw [drop_left, take_left]

theorem slice_append_at (ha : off = a.length) (hn : n = x.length) : slice (a ++ (x ++ c)) off n = x := by
  subst ha; subst hn
  exact slice_append

theorem slice_append_left (h : off + n ≤ a.length) : slice (a ++ c) off n = slice a off n := by
  unfold slice
  rw [drop_append_of_le_length (by omega), take_append_of_le_length (by simp; omega)]

theorem slice_append_mid (ha : off = a.length + o)
    (hn : o + n ≤ x.length) : slice (a ++ (x ++ c)) off n = slice x o n := by
  subst ha
  rw [slice, drop_length_add_append]
  exact slice_append_left hn

theorem splice_append_mid (ha : off = a.length + o)
    (hs : o + s.length ≤ x.length) : splice (a ++ (x ++ c)) off s = a ++ (splice x o s ++ c) := by
  rw [splice_append_right ha]
  unfold splice
  rw [take_append_of_le_length (by omega), drop_append_of_le_length (by omega)]
  simp

/-- Moving a block of elements right by `e.length` and storing `e` in the gap. -/
theorem splice_splice_shift {r e} (hr : e.length ≤ r.length) :
    splice (splice (a ++ (x ++ r)) (a.length + e.length) x) a.length e =
      a ++ (e ++ (x ++ r.drop e.length)) := by
  have hmove : splice (x ++ r) e.length x = (x ++ r).take e.length ++ (x ++ r.drop e.length) := by
    unfold splice
    rw [Nat.add_comm, drop_length_add_append]
  rw [splice_append_right rfl, hmove]
  exact splice_append (by simp; omega)

/-- Reading back what was just stored. -/
theorem slice_splice_self (h : off + s.length ≤ b.length) : slice (splice b off s) off s.length = s := by
  have hlen : off = (b.take off).length := by simp; omega
  unfold splice
  exact slice_append_at hlen rfl

theorem getElem?_splice (h : off + s.length ≤ b.length) (i : Nat) :
    (splice b off s)[i]? = if off ≤ i ∧ i < off + s.length then s[i - off]? else b[i]? := by
  have hlen : (b.take off).length = off := by simp; omega
  unfold splice
  split
  · rename_i hi
    rw [getElem?_append_right (by omega), hlen, getElem?_append_left (by omega)]
  · rename_i hi
    by_cases hlt : i < off
    · rw [getElem?_append_left (by omega), getElem?_take_of_lt hlt]
    · rw [getElem?_append_right (by omega), hlen,
        getElem?_append_right (by omega), getElem?_drop]
      congr 1; omega

theorem getElem?_slice {i} (h : i < n) : (slice b off n)[i]? = b[off + i]? := by
  unfold slice
  rw [getElem?_take_of_lt h, getElem?_drop]

/-- A store leaves every slice it does not overlap unchanged. -/
theorem slice_splice_disjoint (h : off + s.length ≤ b.length)
    (hd : o + n ≤ off ∨ off + s.length ≤ o) : slice (splice b off s) o n = slice b o n := by
  apply ext_getElem?
  intro i
  by_cases hi : i < n
  · rw [getElem?_slice hi, getElem?_slice hi, getElem?_splice h, if_neg (by omega)]
  · unfold slice
    rw [getElem?_eq_none (by simp; omega), getElem?_eq_none (by simp; omega)]

end Slices

section LittleEndian

/-- The `w` little-endian bytes of `n`; bits above `8 * w` are dropped. -/
def leBytes : Nat → Nat → List UInt8
  | 0, _ => []
  | w + 1, n => UInt8.ofNat n :: leBytes w (n / 256)

/-- The number with the given little-endian bytes. -/
def leNat : List UInt8 → Nat
  | [] => 0
  | b :: bs => b.toNat + 256 * leNat bs

@[simp] theorem length_leBytes (w n : Nat) : (leBytes w n).length = w := by
  induction w generalizing n with
  | zero => rfl
  | succ w ih => simp [leBytes, ih]

theorem leNat_leBytes (w n : Nat) : leNat (leBytes w n) = n % 256 ^ w := by
  induction w generalizing n with
  | zero => simp [leBytes, leNat, Nat.mod_one]
  | succ w ih =>
    have hb : (UInt8.ofNat n).toNat = n % 256 := UInt8.toNat_ofNat'
    rw [leBytes, leNat, ih, hb, pow_succ', Nat.mod_mul]

theorem leNat_lt (bs : List UInt8) : leNat bs < 256 ^ bs.length := by
  induction bs with
  | nil => simp [leNat]
  | cons b bs ih =>
    have hb : b.toNat < 256 := b.toNat_lt
    rw [leNat, length_cons, pow_succ]
    omega

theorem leBytes_leNat (bs : List UInt8) : leBytes bs.length (leNat bs) = bs := by
  induction bs with
  | nil => rfl
  | cons b bs ih =>
    have hb : b.toNat < 256 := b.toNat_lt
    have hdiv : (b.toNat + 256 * leNat bs) / 256 = leNat bs := by omega
    have hmod : UInt8.ofNat (b.toNat + 256 * leNat bs) = b := by
      apply UInt8.toNat_inj.1
      rw [UInt8.toNat_ofNat']
      omega
    rw [length_cons, leBytes, leNat, hdiv, hmod, ih]

theorem leBytes_mod {w v m} (hm : m = 256 ^ w) : leBytes w (v % m) = leBytes w v := by
  have h := leBytes_leNat (leBytes w v)
  rwa [length_leBytes, leNat_leBytes, ← hm] at h

end LittleEndian

section Fields

/-- The `w`-byte little-endian field at `off`. -/
def getLe (b : List UInt8) (off w : Nat) : Nat := leNat (slice b off w)

/-- Store `v` in the `w`-byte little-endian field at `off`. -/
def setLe (b : List UInt8) (off w v : Nat) : List UInt8 := splice b off (leBytes w v)

variable {b : List UInt8} {off o w n v : Nat} (hw : off + w ≤ b.length)

include hw

theorem length_setLe : (setLe b off w v).length = b.length :=
  length_splice (by simpa using hw)

theorem slice_setLe_self : slice (setLe b off w v) off w = leBytes w v := by
  have hs := @slice_splice_self _ b (leBytes w v) off (by simpa using hw)
  rwa [length_leBytes] at hs

theorem getLe_setLe_self : getLe (setLe b off w v) off w = v % 256 ^ w := by
  rw [getLe, slice_setLe_self hw, leNat_leBytes]

theorem getLe_setLe_disjoint (hd : o + n ≤ off ∨ off + w ≤ o) :
    getLe (setLe b off w v) o n = getLe b o n := by
  rw [getLe, setLe, slice_splice_disjoint (by simpa using hw) (by simpa using hd), getLe]

omit hw

/-- A field of the first of two buffers. -/
theorem getLe_append_left {off w a c} (h : off + w ≤ a.length) :
    getLe (a ++ c) off w = getLe a off w := by
  rw [getLe, slice_append_left h, getLe]

/-- The field at the junction of a concatenation. -/
theorem getLe_append {a c} (ha : off = a.length) :
    getLe (a ++ (leBytes w v ++ c)) off w = v % 256 ^ w := by
  rw [getLe, slice_append_at ha (length_leBytes w v).symm, leNat_leBytes]

theorem setLe_append_right {a x} (ha : off = a.length + o) :
    setLe (a ++ x) off w v = a ++ setLe x o w v :=
  splice_append_right ha

theorem setLe_append {a x c} (ha : off = a.length) (hx : x.length = w) :
    setLe (a ++ (x ++ c)) off w v = a ++ (leBytes w v ++ c) := by
  rw [setLe, splice_append_at ha (by simpa using hx)]

/-- Stores of several fields of `w` bytes, one after the other. -/
def setFields (w : Nat) (fields : List (Nat × Nat)) (b : List UInt8) : List UInt8 :=
  fields.foldl (fun b f => setLe b f.1 w f.2) b

section

variable {fields : List (Nat × Nat)} (h : ∀ f ∈ fields, f.1 + w ≤ b.length)
include h

theorem length_setFields : (setFields w fields b).length = b.length := by
  induction fields generalizing b with
  | nil => rfl
  | cons f fields ih =>
    have hf := h f mem_cons_self
    rw [setFields, foldl_cons]
    refine (ih fun x hx => ?_).trans (length_setLe hf)
    rw [length_setLe hf]
    exact h x (mem_cons_of_mem _ hx)

/-- A part of the buffer that no field overlaps stays. -/
theorem slice_setFields (hd : ∀ f ∈ fields, o + n ≤ f.1 ∨ f.1 + w ≤ o) :
    slice (setFields w fields b) o n = slice b o n := by
  induction fields generalizing b with
  | nil => rfl
  | cons f fields ih =>
    have hf := h f mem_cons_self
    rw [setFields, foldl_cons]
    refine (ih (fun x hx => ?_) fun x hx => hd x (mem_cons_of_mem _ hx)).trans ?_
    · rw [length_setLe hf]
      exact h x (mem_cons_of_mem _ hx)
    · exact slice_splice_disjoint (by simpa using hf) (by simpa using hd f mem_cons_self)

theorem getLe_setFields_disjoint (hd : ∀ f ∈ fields, o + n ≤ f.1 ∨ f.1 + w ≤ o) :
    getLe (setFields w fields b) o n = getLe b o n := by
  rw [getLe, slice_setFields h hd, getLe]

theorem take_setFields (hd : ∀ f ∈ fields, n ≤ f.1) : (setFields w fields b).take n = b.take n :=
  slice_setFields (o := 0) h fun f hf => .inl ((Nat.zero_add n).trans_le (hd f hf))

theorem drop_setFields (hd : ∀ f ∈ fields, f.1 + w ≤ n) : (setFields w fields b).drop n = b.drop n := by
  have hall := slice_setFields (n := b.length) h fun f hf => .inr (hd f hf)
  unfold slice at hall
  rwa [take_of_length_le (by simp [length_setFields h]), take_of_length_le (by simp)] at hall

variable (hp : fields.Pairwise fun f f' => f.1 + w ≤ f'.1 ∨ f'.1 + w ≤ f.1)

include hp

/-- Fields that do not overlap keep what is stored in them. -/
theorem slice_setFields_mem {f}
    (hf : f ∈ fields) : slice (setFields w fields b) f.1 w = leBytes w f.2 := by
  induction fields generalizing b with
  | nil => cases hf
  | cons x fields ih =>
    have hx := h x mem_cons_self
    have hrest : ∀ y ∈ fields, y.1 + w ≤ (setLe b x.1 w x.2).length := by
      intro y hy
      rw [length_setLe hx]
      exact h y (mem_cons_of_mem _ hy)
    obtain ⟨hxp, hp⟩ := pairwise_cons.1 hp
    rw [setFields, foldl_cons]
    rcases mem_cons.1 hf with rfl | hf
    · exact (slice_setFields hrest hxp).trans (slice_setLe_self hx)
    · exact ih hrest hp hf

theorem getLe_setFields_mem {f}
    (hf : f ∈ fields) : getLe (setFields w fields b) f.1 w = f.2 % 256 ^ w := by
  rw [getLe, slice_setFields_mem h hp hf, leNat_leBytes]

end

theorem getLe_lt (b : List UInt8) (off w : Nat) : getLe b off w < 256 ^ w := by
  have hlen : (slice b off w).length ≤ w := by simp [slice]
  exact lt_of_lt_of_le (leNat_lt _) (Nat.pow_le_pow_right (by decide) hlen)

end Fields

end ByteBuf
