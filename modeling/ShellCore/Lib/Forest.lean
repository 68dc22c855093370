import Mathlib

/-!
# Parent links

Nodes with at most one parent each. `Above parent d n` says that following the links from `n` leads to `d`. A node
may be given a new parent without closing a cycle if it is not above that parent.
-/

namespace ShellCore.Forest

open Function Relation ReflTransGen

variable {ν : Type*} {parent : ν → Option ν} {d m n q root : ν} {x : Option ν}

/-- `d` is `n` or one of its ancestors. -/
def Above (parent : ν → Option ν) (d n : ν) : Prop := ReflTransGen (fun a b => parent a = some b) n d

theorem Above.refl : Above parent n n := ReflTransGen.refl

theorem Above.of_parent (h : parent n = some q) (ha : Above parent d q) : Above parent d n :=
  head h ha

theorem above_iff : Above parent d n ↔ d = n ∨ ∃ q, parent n = some q ∧ Above parent d q := by
  constructor
  · intro h
    rcases cases_head h with rfl | ⟨q, hq, htail⟩
    · exact .inl rfl
    · exact .inr ⟨q, hq, htail⟩
  · rintro (rfl | ⟨q, hq, htail⟩)
    · exact .refl
    · exact htail.of_parent hq

/-- A node that is above another one is that node or somebody's parent. -/
theorem Above.eq_or_parent (h : Above parent d n) : d = n ∨ ∃ a, parent a = some d := by
  rcases cases_tail h with rfl | ⟨a, -, ha⟩
  · exact .inl rfl
  · exact .inr ⟨a, ha⟩

/-- What leads to a root is on no cycle. -/
theorem Above.acyclic (h : Above parent root n) (hroot : parent root = none) :
    ¬TransGen (fun a b => parent a = some b) n n := by
  induction h using head_induction_on with
  | refl =>
    intro hcycle
    obtain ⟨b, hb, -⟩ := TransGen.head'_iff.1 hcycle
    cases hroot.symm.trans hb
  | @head a c hstep _ ih =>
    intro hcycle
    obtain ⟨b, hb, hback⟩ := TransGen.head'_iff.1 hcycle
    obtain rfl : c = b := Option.some.inj (hstep.symm.trans hb)
    exact ih (TransGen.tail' hback hstep)

/-- Nodes that point at each other lead nowhere else. -/
theorem Above.mem_of_closed {S : Set ν} (h : Above parent d n) (hclosed : ∀ a ∈ S, ∀ b, parent a = some b → b ∈ S)
    (hn : n ∈ S) : d ∈ S := by
  induction h with
  | refl => exact hn
  | tail _ hstep ih => exact hclosed _ ih _ hstep

variable [DecidableEq ν]

/-- A link that no chain from `n` passes does not matter to `n`. -/
theorem Above.update (h : Above parent d n) (hm : ¬Above parent m n) : Above (update parent m x) d n := by
  induction h using head_induction_on with
  | refl => exact .refl
  | @head a c hstep _ ih =>
    have hne : a ≠ m := by
      rintro rfl
      exact hm .refl
    refine .of_parent ?_ (ih fun hc => hm (hc.of_parent hstep))
    rw [update_of_ne hne, hstep]

/-- Nor does the link of a node without children matter to the others. -/
theorem above_update_leaf (hleaf : ∀ a, parent a ≠ some m) (hn : n ≠ m) :
    Above (update parent m x) d n ↔ Above parent d n := by
  constructor
  · intro h
    induction h using head_induction_on with
    | refl => exact .refl
    | @head a c hstep _ ih =>
      rw [update_of_ne hn] at hstep
      have hc : c ≠ m := by
        rintro rfl
        exact hleaf a hstep
      exact (ih hc).of_parent hstep
  · intro h
    refine h.update fun hm => ?_
    rcases hm.eq_or_parent with he | ⟨a, ha⟩
    · exact hn he.symm
    · exact hleaf a ha

/-- `m` gets the parent `q`: what led to the root still does, if `m` was not above `q`. -/
theorem rooted_update (hq : Above parent root q) (hm : ¬Above parent m q) (hn : Above parent root n) :
    Above (update parent m (some q)) root n := by
  have hq' : Above (update parent m (some q)) root q := hq.update hm
  induction hn using head_induction_on with
  | refl => exact .refl
  | @head a c hstep _ ih =>
    by_cases ha : a = m
    · subst ha
      exact hq'.of_parent (update_self ..)
    · exact ih.of_parent (by rw [update_of_ne ha, hstep])

end ShellCore.Forest
