import Mathlib

/-!
# Following pointers

A walk reads a pointer at the place where it is and goes to what the pointer leads to. With finitely many pointers it comes
to an end if and only if it meets none of them twice.
-/

namespace ShellCore.Walk

variable {σ β : Type} (point : σ → Option β) (load : β → Option σ)

/-- The place of the walk after `k` rounds. -/
def place (x : σ) : Nat → Option σ
  | 0 => some x
  | k + 1 => ((place x k).bind point).bind load

/-- The pointer that round `k` follows. -/
def pointer (x : σ) (k : Nat) : Option β := (place point load x k).bind point

variable {point load} {x : σ} {i j k : Nat} {b : β}

theorem place_succ_of_pointer (h : pointer point load x k = some b) : place point load x (k + 1) = load b := by
  rw [place, show (place point load x k).bind point = some b from h, Option.bind_some]

/-- A walk from the place after the first round is one round behind. -/
theorem place_succ {b y} (hx : point x = some b) (hb : load b = some y) :
    ∀ k, place point load x (k + 1) = place point load y k
  | 0 => by simp [place, hx, hb]
  | k + 1 => by rw [place, place_succ hx hb k, place]

theorem pointer_none_mono (h : pointer point load x i = none) (hij : i ≤ j) : pointer point load x j = none := by
  induction j, hij using Nat.le_induction with
  | base => exact h
  | succ j _ ih => rw [pointer, place, show (place point load x j).bind point = none from ih]; rfl

/-- Two rounds that follow one pointer go on alike. -/
theorem pointer_add_eq (hi : pointer point load x i = some b) (hj : pointer point load x j = some b) (n : Nat) :
    pointer point load x (i + 1 + n) = pointer point load x (j + 1 + n) := by
  have hplace : place point load x (i + 1 + n) = place point load x (j + 1 + n) := by
    induction n with
    | zero => exact (place_succ_of_pointer hi).trans (place_succ_of_pointer hj).symm
    | succ n ih => rw [← Nat.add_assoc, ← Nat.add_assoc, place, place, ih]
  rw [pointer, pointer, hplace]

theorem ends_iff_acyclic {s : Set β} (hs : s.Finite) (hmem : ∀ y b, point y = some b → b ∈ s) :
    (∃ k, pointer point load x k = none) ↔
      ∀ i j b, pointer point load x i = some b → pointer point load x j = some b → i = j := by
  constructor
  · intro hend
    -- the first round that follows nothing: the later of two equal pointers would send the walk past it
    have hlast := Nat.find_spec hend
    have hlt : ∀ i j b, i < j → pointer point load x i = some b → pointer point load x j ≠ some b := by
      intro i j b hij hi hj
      have hjk : j < Nat.find hend := by
        by_contra hle
        rw [pointer_none_mono hlast (not_lt.1 hle)] at hj
        cases hj
      have hback := pointer_add_eq hi hj (Nat.find hend - (j + 1))
      rw [show j + 1 + (Nat.find hend - (j + 1)) = Nat.find hend by omega, hlast] at hback
      exact Nat.find_min hend (by omega) hback
    intro i j b hi hj
    rcases Nat.lt_trichotomy i j with hij | hij | hij
    · exact absurd hj (hlt i j b hij hi)
    · exact hij
    · exact absurd hi (hlt j i b hij hj)
  · intro hinj
    by_contra hnone
    have hsome : ∀ k, ∃ b, pointer point load x k = some b :=
      fun k => Option.ne_none_iff_exists'.1 fun hk => hnone ⟨k, hk⟩
    choose f hf using hsome
    refine Set.infinite_of_injective_forall_mem (f := f) (fun i j hij => hinj i j _ (hf i) (hij ▸ hf j)) (fun k => ?_) hs
    obtain ⟨y, -, hy⟩ := Option.bind_eq_some_iff.1 (hf k)
    exact hmem y _ hy

end ShellCore.Walk
