import ShellCore.Mm.Layout

/-!
# Unmapping a range of pages

`unmapPages` takes the pages of a range out of an area and clears their entries in the page table;
what is left of an area below `s` is `leftPart`.
-/

namespace ShellCore.Mm

namespace MapArea

/-- The page table without the resident pages of `a` in `[lo, hi)`. -/
def clear (a : MapArea) (lo hi : Nat) (pt : PageTable) : PageTable :=
  fun v => if lo ≤ v ∧ v < hi ∧ (a.dataFrames.get? v).isSome = true then none else pt v

/-- The part of an area below `s`. -/
def leftPart (s : Nat) (a : MapArea) : MapArea := { a with stop := s, dataFrames := a.dataFrames.below s }

end MapArea

open MapArea Function

variable {pt : PageTable} {a : MapArea} {s e v : Nat}

/-- What unmapping needs of an area: its resident pages are mapped. -/
def Tracked (pt : PageTable) (a : MapArea) : Prop :=
  ∀ v f, a.dataFrames.get? v = some f → a.mapType ≠ .guard ∧ (pt v).isSome = true

theorem AreaOk.tracked (h : AreaOk pt a) : Tracked pt a := by
  intro v f hv
  obtain ⟨flags, hpt, _⟩ := h.mapped v f hv
  exact ⟨(h.resident v f hv).2.2, by rw [hpt]; rfl⟩

theorem erase_of_none {m : OrdMap Frame} (h : m.get? v = none) : m.erase v = m := by
  ext1 k
  rw [OrdMap.get?_erase]
  split
  · rename_i hk; rw [hk, h]
  · rfl

theorem unmapOne_eq (h : Tracked pt a) :
    a.unmapOne pt v = some ({ a with dataFrames := a.dataFrames.erase v }, a.clear v (v + 1) pt) := by
  have hclear : ∀ x, (x = v ∧ (a.dataFrames.get? v).isSome = true → none = pt x) →
      a.clear v (v + 1) pt x = pt x := by
    intro x hx
    unfold clear
    split
    · rename_i hc
      obtain rfl : x = v := by omega
      exact hx ⟨rfl, hc.2.2⟩
    · rfl
  unfold unmapOne
  cases hv : a.dataFrames.get? v with
  | none =>
    have hpt : a.clear v (v + 1) pt = pt := funext fun x => hclear x (by rw [hv]; simp)
    rw [erase_of_none hv, hpt]
    show _ = some (a, pt)
    cases ht : a.mapType <;> rfl
  | some f =>
    obtain ⟨hg, hp⟩ := h v f hv
    obtain ⟨p, hp⟩ := Option.isSome_iff_exists.1 hp
    have hpt : update pt v none = a.clear v (v + 1) pt := by
      funext x
      by_cases hx : x = v
      · rw [hx, update_self, clear, if_pos ⟨Nat.le_refl v, Nat.lt_succ_self v, by rw [hv]; rfl⟩]
      · rw [update_of_ne hx, hclear x fun hc => absurd hc.1 hx]
    cases ht : a.mapType with
    | guard => exact absurd ht hg
    | framed | file => simp [PageTable.unmap, hp, hpt]

theorem Tracked.erase (h : Tracked pt a) {n : Nat} :
    Tracked (a.clear n (n + 1) pt) { a with dataFrames := a.dataFrames.erase n } := by
  intro v f hv
  rw [OrdMap.get?_erase] at hv
  split at hv
  · cases hv
  · rename_i hne
    refine ⟨(h v f hv).1, ?_⟩
    rw [clear, if_neg (by omega)]
    exact (h v f hv).2

theorem unmapPages_eq (h : Tracked pt a) (lo n : Nat) :
    a.unmapPages pt lo n =
      some ({ a with dataFrames := a.dataFrames.without lo (lo + n) }, a.clear lo (lo + n) pt) := by
  induction n generalizing a pt lo with
  | zero =>
    have h1 : a.dataFrames.without lo (lo + 0) = a.dataFrames := by
      ext1 k
      rw [OrdMap.get?_without, if_neg (by omega)]
    have h2 : a.clear lo (lo + 0) pt = pt := funext fun v => if_neg (by omega)
    rw [unmapPages, h1, h2]
  | succ n ih =>
    have h1 : (a.dataFrames.erase lo).without (lo + 1) (lo + 1 + n) = a.dataFrames.without lo (lo + (n + 1)) := by
      ext1 k
      rw [OrdMap.get?_without, OrdMap.get?_without, OrdMap.get?_erase]
      grind
    have h2 : MapArea.clear { a with dataFrames := a.dataFrames.erase lo } (lo + 1) (lo + 1 + n)
        (a.clear lo (lo + 1) pt) = a.clear lo (lo + (n + 1)) pt := by
      funext v
      simp only [clear, OrdMap.get?_erase]
      grind
    rw [unmapPages, unmapOne_eq h, Option.bind_eq_bind, Option.bind_some]
    refine (ih h.erase (lo + 1)).trans ?_
    rw [h1, h2]

/-! ## Cutting one area -/

/-- Only the pages inside an area are resident in it. -/
theorem clear_congr (h : AreaOk pt a) {lo hi lo' hi' : Nat}
    (hin : ∀ v, a.start ≤ v → v < a.stop → (lo ≤ v ∧ v < hi ↔ lo' ≤ v ∧ v < hi')) :
    a.clear lo hi pt = a.clear lo' hi' pt := by
  funext v
  unfold clear
  cases hv : a.dataFrames.get? v with
  | none => simp
  | some f =>
    obtain ⟨h1, h2, _⟩ := h.resident v f hv
    have := hin v h1 h2
    simp only [Option.isSome_some, and_true]
    simp only [this]

theorem leftPart_frames (h : AreaOk pt a) (hs : s ≤ a.stop) :
    a.dataFrames.without s (s + (a.stop - s)) = a.dataFrames.below s := by
  ext1 k
  rw [OrdMap.get?_without, OrdMap.get?_below]
  cases hk : a.dataFrames.get? k with
  | none => simp
  | some f =>
    have := h.resident k f hk
    grind

theorem resize_eq {x y : Nat} (h : x ≤ y) :
    a.resize x y = some { a with
      start := x, stop := y
      backingFile := if x > a.start
        then a.backingFile.map fun (file, off) => (file, off + (x - a.start)) else a.backingFile } := by
  simp [resize, VPNRange.new, h]

/-- Clearing one area leaves the others in agreement with the page table. -/
theorem AreaOk.clear {b : MapArea} (h : AreaOk pt b) (ha : AreaOk pt a)
    (hdis : ∀ v, a.contains v = true → b.contains v = true → False) : AreaOk (a.clear s e pt) b := by
  refine ⟨h.bounds, h.resident, ?_⟩
  intro v f hv
  obtain ⟨h1, h2, _⟩ := h.resident v f hv
  have hno : ¬(s ≤ v ∧ v < e ∧ (a.dataFrames.get? v).isSome = true) := by
    rintro ⟨_, _, hsome⟩
    obtain ⟨g, hg⟩ := Option.isSome_iff_exists.1 hsome
    obtain ⟨h3, h4, _⟩ := ha.resident v g hg
    exact hdis v (contains_iff.2 ⟨h3, h4⟩) (contains_iff.2 ⟨h1, h2⟩)
  rw [MapArea.clear, if_neg hno]
  exact h.mapped v f hv

end ShellCore.Mm
