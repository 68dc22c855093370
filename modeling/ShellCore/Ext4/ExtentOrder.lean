import ShellCore.Ext4.ExtentTree

/-!
# Search order in extent trees

An ordered tree keeps its extents in increasing, disjoint order and every index key at or below the
extents it leads to. On such a tree the descent finds what a scan of all the extents finds, and an
insertion changes the sequence of extents in one place.
-/

namespace ShellCore.Ext4

open BinarySearch ExtentLeaf List Ext4.Tree

/-! ## Sequences of extents -/

/-- The extents are non-empty, disjoint, in increasing order and inside `[lo, hi)`. -/
def ExtentsIn (hi : Nat) : Nat → List ExtentLeaf → Prop
  | lo, [] => lo ≤ hi
  | lo, e :: es => lo ≤ e.eeBlock ∧ 1 ≤ e.actualLen ∧ ExtentsIn hi (e.eeBlock + e.actualLen) es

/-- The extent maps the block. -/
def ExtentLeaf.Covers (e : ExtentLeaf) (logical : Nat) : Prop :=
  e.eeBlock ≤ logical ∧ logical < e.eeBlock + e.actualLen

instance instDecidableExtentsIn (hi : Nat) : ∀ (lo : Nat) (es : List ExtentLeaf), Decidable (ExtentsIn hi lo es)
  | lo, [] => inferInstanceAs (Decidable (lo ≤ hi))
  | lo, e :: es =>
    have := instDecidableExtentsIn hi (e.eeBlock + e.actualLen) es
    inferInstanceAs (Decidable (lo ≤ e.eeBlock ∧ 1 ≤ e.actualLen ∧ ExtentsIn hi (e.eeBlock + e.actualLen) es))

instance (e : ExtentLeaf) (logical : Nat) : Decidable (e.Covers logical) :=
  inferInstanceAs (Decidable (_ ∧ _))

variable {hi : Nat}

theorem ExtentsIn.le : ∀ {lo : Nat} {es : List ExtentLeaf}, ExtentsIn hi lo es → lo ≤ hi
  | _, [], h => h
  | _, e :: _, ⟨h1, _, h3⟩ => by have := h3.le; omega

theorem ExtentsIn.mono {hi hi' lo'} (hhi : hi ≤ hi') :
    ∀ {lo : Nat} {es : List ExtentLeaf}, lo' ≤ lo → ExtentsIn hi lo es → ExtentsIn hi' lo' es
  | _, [], hlo, h => le_trans hlo (le_trans h hhi)
  | _, _ :: _, hlo, ⟨h1, h2, h3⟩ => ⟨le_trans hlo h1, h2, h3.mono hhi le_rfl⟩

variable {xs ys : List ExtentLeaf}

theorem extentsIn_append :
    ∀ {lo : Nat}, ExtentsIn hi lo (xs ++ ys) ↔ ∃ mid, ExtentsIn mid lo xs ∧ ExtentsIn hi mid ys := by
  induction xs with
  | nil =>
    intro lo
    constructor
    · intro h
      exact ⟨lo, le_rfl, h⟩
    · rintro ⟨mid, h1, h2⟩
      exact h2.mono le_rfl h1
  | cons x xs ih =>
    intro lo
    constructor
    · rintro ⟨h1, h2, h3⟩
      obtain ⟨mid, h4, h5⟩ := ih.1 h3
      exact ⟨mid, ⟨h1, h2, h4⟩, h5⟩
    · rintro ⟨mid, ⟨h1, h2, h4⟩, h5⟩
      exact ⟨h1, h2, ih.2 ⟨mid, h4, h5⟩⟩

theorem ExtentsIn.bounds : ∀ {lo : Nat} {es : List ExtentLeaf}, ExtentsIn hi lo es →
    ∀ e ∈ es, lo ≤ e.eeBlock ∧ 1 ≤ e.actualLen ∧ e.eeBlock + e.actualLen ≤ hi
  | _, e :: es, ⟨h1, h2, h3⟩, x, hx => by
    rcases mem_cons.1 hx with rfl | hx
    · exact ⟨h1, h2, h3.le⟩
    · have := h3.bounds x hx
      omega

theorem ExtentsIn.pairwise : ∀ {lo : Nat} {es : List ExtentLeaf}, ExtentsIn hi lo es →
    (es.map eeBlock).Pairwise (· < ·)
  | _, [], _ => Pairwise.nil
  | _, e :: es, ⟨_, h2, h3⟩ => by
    refine Pairwise.cons ?_ h3.pairwise
    intro k hk
    obtain ⟨x, hx, rfl⟩ := mem_map.1 hk
    have := h3.bounds x hx
    omega

variable {logical : Nat}

/-- The aim splits increasing keys at `logical`. -/
theorem aimPos_spec {keys : List Nat} (h : keys.Pairwise (· < ·)) (logical : Nat) :
    (∀ x ∈ keys.take (aimPos keys logical), x ≤ logical) ∧
      ∀ x ∈ keys.drop (aimPos keys logical), logical < x := by
  have hget : ∀ i (hi : i < keys.length), keys.getD i 0 = keys[i] := by
    intro i hi
    rw [getD_eq_getElem?_getD, getElem?_eq_getElem hi, Option.getD_some]
  have hmono : ∀ i j, i ≤ j → j < keys.length → decide (keys.getD j 0 ≤ logical) = true →
      decide (keys.getD i 0 ≤ logical) = true := by
    intro i j hij hj hle
    rcases Nat.eq_or_lt_of_le hij with rfl | hlt
    · exact hle
    · have := pairwise_iff_getElem.1 h i j (by omega) hj hlt
      rw [decide_eq_true_eq, hget j hj] at hle
      rw [decide_eq_true_eq, hget i (by omega)]
      omega
  have hiff := fun i (hi : i < keys.length) => partitionPoint_iff hmono (Nat.zero_le i) hi
  simp only [decide_eq_true_eq] at hiff
  constructor
  · intro x hx
    obtain ⟨i, hi, rfl⟩ := mem_take_iff_getElem.1 hx
    rw [← hget i (by omega)]
    exact (hiff i (by omega)).2 (by unfold aimPos at hi; omega)
  · intro x hx
    obtain ⟨i, hi, rfl⟩ := mem_drop_iff_getElem.1 hx
    rw [← hget _ (by omega), ← Nat.not_le, hiff _ (by omega)]
    unfold aimPos
    omega

/-! ## Ordered trees -/

/-- Every key leads to a subtree inside the part of `[lo, hi)` from the key to the next one. -/
def ChildrenIn {α : Type} (P : Nat → Nat → α → Prop) (hi : Nat) : Nat → List (ExtentIndex × α) → Prop
  | lo, [] => lo ≤ hi
  | lo, c :: cs => ∃ mid, lo ≤ c.1.eiBlock ∧ c.1.eiBlock < mid ∧ P mid c.1.eiBlock c.2 ∧ ChildrenIn P hi mid cs

/-- The extents of the tree are in order and inside `[lo, hi)`, and the keys lead to them. -/
def Tree.Ordered : (d : Nat) → Nat → Nat → Tree d → Prop
  | 0, hi, lo, ⟨_, es⟩ => ExtentsIn hi lo es
  | d + 1, hi, lo, ⟨_, cs⟩ => ChildrenIn (Ordered d) hi lo cs

section Children

variable {α : Type} {P : Nat → Nat → α → Prop} {hi lo : Nat}

theorem ChildrenIn.le : ∀ {lo : Nat} {cs : List (ExtentIndex × α)}, ChildrenIn P hi lo cs → lo ≤ hi
  | _, [], h => h
  | _, _ :: _, ⟨mid, h1, h2, _, h4⟩ => by have := h4.le; omega

theorem ChildrenIn.mono {lo' cs} (hlo : lo' ≤ lo) (h : ChildrenIn P hi lo cs) :
    ChildrenIn P hi lo' cs := by
  cases cs with
  | nil => exact le_trans hlo h
  | cons c cs =>
    obtain ⟨mid, h1, h⟩ := h
    exact ⟨mid, le_trans hlo h1, h⟩

theorem ChildrenIn.mono_right {hi'} (hhi : hi ≤ hi') :
    ∀ {lo : Nat} {cs : List (ExtentIndex × α)}, ChildrenIn P hi lo cs → ChildrenIn P hi' lo cs
  | _, [], h => le_trans h hhi
  | _, _ :: _, ⟨mid, h1, h2, h3, h4⟩ => ⟨mid, h1, h2, h3, h4.mono_right hhi⟩

theorem childrenIn_append {xs ys} :
    ∀ {lo : Nat}, ChildrenIn P hi lo (xs ++ ys) ↔ ∃ mid, ChildrenIn P mid lo xs ∧ ChildrenIn P hi mid ys := by
  induction xs with
  | nil =>
    intro lo
    constructor
    · intro h
      exact ⟨lo, le_rfl, h⟩
    · rintro ⟨mid, h1, h2⟩
      exact h2.mono h1
  | cons x xs ih =>
    intro lo
    constructor
    · rintro ⟨m, h1, h2, h3, h4⟩
      obtain ⟨mid, h5, h6⟩ := ih.1 h4
      exact ⟨mid, ⟨m, h1, h2, h3, h5⟩, h6⟩
    · rintro ⟨mid, ⟨m, h1, h2, h3, h5⟩, h6⟩
      exact ⟨m, h1, h2, h3, ih.2 ⟨mid, h5, h6⟩⟩

theorem ChildrenIn.bounds : ∀ {lo : Nat} {cs : List (ExtentIndex × α)}, ChildrenIn P hi lo cs →
    ∀ c ∈ cs, lo ≤ c.1.eiBlock ∧ c.1.eiBlock < hi ∧ ∃ mid, mid ≤ hi ∧ P mid c.1.eiBlock c.2
  | _, c :: cs, ⟨mid, h1, h2, h3, h4⟩, x, hx => by
    rcases mem_cons.1 hx with rfl | hx
    · have := h4.le
      exact ⟨h1, by omega, mid, this, h3⟩
    · obtain ⟨h5, h6, h7⟩ := h4.bounds x hx
      exact ⟨by omega, h6, h7⟩

theorem ChildrenIn.pairwise : ∀ {lo : Nat} {cs : List (ExtentIndex × α)}, ChildrenIn P hi lo cs →
    (cs.map fun c => c.1.eiBlock).Pairwise (· < ·)
  | _, [], _ => Pairwise.nil
  | _, c :: cs, ⟨mid, _, h2, _, h4⟩ => by
    refine Pairwise.cons ?_ h4.pairwise
    intro k hk
    obtain ⟨x, hx, rfl⟩ := mem_map.1 hk
    exact lt_of_lt_of_le h2 (h4.bounds x hx).1

end Children

theorem Tree.Ordered.mono_right {hi hi'} (hhi : hi ≤ hi') :
    ∀ {d lo : Nat} {t : Tree d}, Ordered d hi lo t → Ordered d hi' lo t
  | 0, _, ⟨_, _⟩, h => ExtentsIn.mono hhi le_rfl h
  | _ + 1, _, ⟨_, _⟩, h => ChildrenIn.mono_right hhi h

theorem Tree.Ordered.mono_left {hi lo'} :
    ∀ {d lo : Nat} {t : Tree d}, lo' ≤ lo → Ordered d hi lo t → Ordered d hi lo' t
  | 0, _, ⟨_, _⟩, hlo, h => ExtentsIn.mono le_rfl hlo h
  | _ + 1, _, ⟨_, _⟩, hlo, h => ChildrenIn.mono hlo h

/-- The extents of an ordered tree are in order. -/
theorem Tree.Ordered.flatten :
    ∀ {d lo : Nat} {t : Tree d}, Ordered d hi lo t → ExtentsIn hi lo (flatten d t) := by
  intro d
  induction d generalizing hi with
  | zero => intro lo t h; exact h
  | succ d ih =>
    intro lo t h
    obtain ⟨max, cs⟩ := t
    replace h : ChildrenIn (Ordered d) hi lo cs := h
    show ExtentsIn hi lo (cs.flatMap fun c => flatten d c.2)
    induction cs generalizing lo with
    | nil => exact h
    | cons c cs ihcs =>
      obtain ⟨mid, h1, h2, h3, h4⟩ := h
      rw [flatMap_cons, extentsIn_append]
      exact ⟨mid, (ih h3).mono le_rfl h1, ihcs h4⟩

/-! ## Lookup -/

/-- The extent a scan stops at: the end is computed in 32 bits. -/
theorem ExtentLeaf.logicalEnd_le (e : ExtentLeaf) : e.logicalEnd ≤ e.eeBlock + e.actualLen :=
  Nat.mod_le _ _

theorem leafLookup_eq_zero {es}
    (h : ∀ e ∈ es, ¬(logical ≥ e.eeBlock ∧ logical < e.logicalEnd)) : leafLookup logical es = 0 := by
  induction es with
  | nil => rfl
  | cons e es ih =>
    rw [leafLookup, if_neg (h e (by simp))]
    exact ih fun x hx => h x (mem_cons_of_mem _ hx)

theorem leafLookup_append_left (h : ∀ e ∈ ys, ¬(logical ≥ e.eeBlock ∧ logical < e.logicalEnd)) :
    leafLookup logical (xs ++ ys) = leafLookup logical xs := by
  induction xs with
  | nil => exact leafLookup_eq_zero h
  | cons x xs ih => rw [cons_append, leafLookup, leafLookup, ih]

theorem leafLookup_append_right (h : ∀ e ∈ xs, ¬(logical ≥ e.eeBlock ∧ logical < e.logicalEnd)) :
    leafLookup logical (xs ++ ys) = leafLookup logical ys := by
  induction xs with
  | nil => rfl
  | cons x xs ih =>
    rw [cons_append, leafLookup, if_neg (h x (by simp))]
    exact ih fun e he => h e (mem_cons_of_mem _ he)

/-- Extents away from the block do not map it. -/
theorem ExtentsIn.not_mapped {hi lo logical es} (h : ExtentsIn hi lo es)
    (hl : logical < lo ∨ hi ≤ logical) : ∀ e ∈ es, ¬(logical ≥ e.eeBlock ∧ logical < e.logicalEnd) := by
  rintro e he ⟨h1, h2⟩
  have hb := h.bounds e he
  have hend := e.logicalEnd_le
  omega

/-- The child the lookup descends to has all there is to find. -/
theorem childFor_spec {d hi logical} :
    ∀ {lo : Nat} {cs : List (ExtentIndex × Tree d)} {c₀ : Tree d}, ChildrenIn (Ordered d) hi lo cs →
      (∀ e ∈ flatten d c₀, e.eeBlock + e.actualLen ≤ lo) →
      ∃ c, childFor logical cs (some c₀) = some c ∧ (c = c₀ ∨ c ∈ cs.map Prod.snd) ∧
        leafLookup logical (flatten d c) =
          leafLookup logical (flatten d c₀ ++ cs.flatMap fun c => flatten d c.2) := by
  intro lo cs
  induction cs generalizing lo with
  | nil =>
    intro c₀ _ _
    exact ⟨c₀, rfl, Or.inl rfl, by simp⟩
  | cons c cs ih =>
    intro c₀ h hc₀
    have hflat := @Ordered.flatten hi (d + 1) lo ⟨0, c :: cs⟩ h
    obtain ⟨mid, h1, h2, h3, h4⟩ := h
    rw [childFor]
    by_cases hkey : logical ≥ c.1.eiBlock
    · rw [if_pos hkey]
      obtain ⟨c', hfor, hmem, hlook⟩ := ih h4 fun e he => (h3.flatten.bounds e he).2.2
      refine ⟨c', hfor, ?_, ?_⟩
      · rcases hmem with rfl | hmem
        · exact Or.inr (by simp)
        · exact Or.inr (by simp [mem_map.1 hmem])
      · rw [hlook, flatMap_cons]
        refine (leafLookup_append_right ?_).symm
        rintro e he ⟨h5, h6⟩
        have hend := e.logicalEnd_le
        have := hc₀ e he
        omega
    · rw [if_neg hkey]
      refine ⟨c₀, rfl, Or.inl rfl, (leafLookup_append_left ?_).symm⟩
      have hin : ExtentsIn hi c.1.eiBlock ((c :: cs).flatMap fun c => flatten d c.2) :=
        @Ordered.flatten hi (d + 1) c.1.eiBlock ⟨0, c :: cs⟩ ⟨mid, le_rfl, h2, h3, h4⟩
      exact hin.not_mapped (Or.inl (by omega))

/-- On an ordered tree the descent finds what a scan of all the extents finds. -/
theorem findTree_flatten : ∀ {d hi lo : Nat} {t : Tree d}, Ordered d hi lo t →
      findTree logical d t = leafLookup logical (flatten d t) := by
  intro d
  induction d with
  | zero => intro hi lo t _; rfl
  | succ d ih =>
    intro hi lo t h
    obtain ⟨max, cs⟩ := t
    replace h : ChildrenIn (Ordered d) hi lo cs := h
    have hflat : flatten (d + 1) (IndexNode.mk max cs) = cs.flatMap fun c => flatten d c.2 := rfl
    rw [hflat]
    cases cs with
    | nil => rfl
    | cons c cs =>
      have hb := h.bounds
      obtain ⟨mid, h1, h2, h3, h4⟩ := h
      have hmem : ∀ x ∈ c.2 :: cs.map Prod.snd, findTree logical d x = leafLookup logical (flatten d x) := by
        intro x hx
        obtain ⟨y, hy, rfl⟩ : ∃ y ∈ c :: cs, y.2 = x := by
          rcases mem_cons.1 hx with rfl | hx
          · exact ⟨c, by simp, rfl⟩
          · obtain ⟨y, hy, rfl⟩ := mem_map.1 hx
            exact ⟨y, mem_cons_of_mem _ hy, rfl⟩
        obtain ⟨-, -, m, -, hP⟩ := hb y hy
        exact ih hP
      obtain ⟨c', hfor, hc', hlook⟩ := @childFor_spec d hi logical _ _ c.2 h4
        fun e he => (h3.flatten.bounds e he).2.2
      -- the first child is the default, and the first key does not change that
      have hfirst : childFor logical (c :: cs) (some c.2) = some c' ∨
          logical < c.1.eiBlock ∧ childFor logical (c :: cs) (some c.2) = some c.2 := by
        rw [childFor]
        by_cases hkey : logical ≥ c.1.eiBlock
        · rw [if_pos hkey]; exact Or.inl hfor
        · rw [if_neg hkey]; exact Or.inr ⟨by omega, rfl⟩
      rw [flatMap_cons, ← hlook]
      simp only [findTree, head?_cons, Option.map_some]
      rcases hfirst with hf | ⟨hlt, hf⟩
      · rw [hf]
        exact hmem c' (by rcases hc' with rfl | h <;> simp_all)
      · rw [hf]
        show findTree logical d c.2 = _
        rw [hmem c.2 (by simp), hlook]
        refine (leafLookup_append_left ?_).symm
        have hrest : ExtentsIn hi mid (cs.flatMap fun c => flatten d c.2) :=
          @Ordered.flatten hi (d + 1) mid ⟨0, cs⟩ h4
        exact hrest.not_mapped (Or.inl (by omega))

/-! ## The change of an insertion -/

/-- One block was added to a sequence of extents: as an extent of its own, or at the end of one. -/
inductive Extended (logical physical : Nat) : List ExtentLeaf → List ExtentLeaf → Prop where
  | insert (xs ys : List ExtentLeaf) :
    Extended logical physical (xs ++ ys) (xs ++ mkLeaf logical physical :: ys)
  | merge (xs ys : List ExtentLeaf) (e : ExtentLeaf) (hle : e.eeBlock ≤ logical)
    (hm : e.mergeable logical physical = true) :
    Extended logical physical (xs ++ e :: ys) (xs ++ e.grow :: ys)

namespace Extended

variable {logical physical : Nat} {es es' : List ExtentLeaf}

theorem context (h : Extended logical physical es es') (xs ys : List ExtentLeaf) :
    Extended logical physical (xs ++ (es ++ ys)) (xs ++ (es' ++ ys)) := by
  cases h with
  | insert as bs =>
    have := @Extended.insert logical physical (xs ++ as) (bs ++ ys)
    simpa using this
  | merge as bs e hle hm =>
    have := @Extended.merge logical physical (xs ++ as) (bs ++ ys) e hle hm
    simpa using this

end Extended

theorem ExtentLeaf.actualLen_le (e : ExtentLeaf) : e.actualLen ≤ 32768 := by
  have := e.eeLen_lt
  unfold actualLen
  split <;> omega

/-- What a merge requires. -/
theorem ExtentLeaf.mergeable_spec {e : ExtentLeaf} {logical physical} (hl : logical < 2 ^ 32)
    (hle : e.eeBlock ≤ logical) (h : e.mergeable logical physical = true) :
    e.eeBlock + e.actualLen = logical ∧ e.physEnd = physical ∧ e.grow.actualLen = e.actualLen + 1 := by
  have hal := e.actualLen_le
  simp only [mergeable, Bool.and_eq_true, decide_eq_true_eq] at h
  obtain ⟨⟨h1, h2⟩, h3⟩ := h
  refine ⟨by omega, h3, ?_⟩
  by_cases hbig : e.eeLen > 32768
  · have hal : e.actualLen = e.eeLen - 32768 := if_pos hbig
    have hlen : e.grow.eeLen = e.eeLen + 1 := by
      simp only [grow, hal, if_pos hbig] at h1 ⊢
      omega
    rw [actualLen, hlen, if_pos (by omega), hal]
    omega
  · have hal : e.actualLen = e.eeLen := if_neg hbig
    rw [if_neg hbig, hal] at h1
    have hlen : e.grow.eeLen = e.eeLen + 1 := by
      simp only [grow, hal, if_neg hbig]
      omega
    rw [actualLen, hlen, if_neg (by omega), hal]

namespace Extended

variable {logical physical l : Nat} {es es' : List ExtentLeaf}

/-- The blocks the extended sequence maps to. -/
theorem lookup_self (h : Extended logical physical es es') (hl : logical + 1 < 2 ^ 32)
    (hp : physical < 2 ^ 32) (hun : ∀ e ∈ es, ¬e.Covers logical) : leafLookup logical es' = physical := by
  have hnot : ∀ e : ExtentLeaf, ¬e.Covers logical → ¬(logical ≥ e.eeBlock ∧ logical < e.logicalEnd) := by
    rintro e hc ⟨h1, h2⟩
    exact hc ⟨h1, lt_of_lt_of_le h2 e.logicalEnd_le⟩
  cases h with
  | insert xs ys =>
    rw [leafLookup_append_right fun e he => hnot e (hun e (mem_append_left _ he)), leafLookup]
    have h1 : (mkLeaf logical physical).eeBlock = logical := Nat.mod_eq_of_lt (by omega)
    have h2 : (mkLeaf logical physical).logicalEnd = logical + 1 := by
      have : (mkLeaf logical physical).actualLen = 1 := rfl
      rw [logicalEnd, h1, this, Nat.mod_eq_of_lt hl]
    have h3 : (mkLeaf logical physical).startPhys = physical := by
      simp only [startPhys, mkLeaf, Nat.zero_mul, Nat.zero_add]
      exact Nat.mod_eq_of_lt hp
    rw [if_pos (by omega), h1, h3, Nat.sub_self, Nat.add_zero, Nat.mod_eq_of_lt hp]
  | merge xs ys e hle hm =>
    obtain ⟨hend, hphys, hlen⟩ := mergeable_spec (by omega) hle hm
    rw [leafLookup_append_right fun e he => hnot e (hun e (mem_append_left _ he)), leafLookup]
    have h1 : e.grow.eeBlock = e.eeBlock := rfl
    have h2 : e.grow.logicalEnd = logical + 1 := by
      rw [logicalEnd, h1, hlen, ← Nat.add_assoc, hend, Nat.mod_eq_of_lt hl]
    have h3 : e.grow.startPhys = e.startPhys := rfl
    unfold physEnd at hphys
    rw [if_pos (by omega), h1, h3, show e.startPhys + (logical - e.eeBlock) = physical by omega,
      Nat.mod_eq_of_lt hp]

/-- The other blocks keep their mapping. -/
theorem lookup_other (h : Extended logical physical es es') (hl : logical + 1 < 2 ^ 32) (hne : l ≠ logical) :
    leafLookup l es' = leafLookup l es := by
  have hcongr : ∀ (xs : List ExtentLeaf) {ys zs : List ExtentLeaf}, leafLookup l ys = leafLookup l zs →
      leafLookup l (xs ++ ys) = leafLookup l (xs ++ zs) := by
    intro xs ys zs heq
    induction xs with
    | nil => exact heq
    | cons x xs ih => rw [cons_append, cons_append, leafLookup, leafLookup, ih]
  cases h with
  | insert xs ys =>
    refine hcongr xs ?_
    have h1 : (mkLeaf logical physical).eeBlock = logical := Nat.mod_eq_of_lt (by omega)
    have h2 : (mkLeaf logical physical).logicalEnd = logical + 1 := by
      have : (mkLeaf logical physical).actualLen = 1 := rfl
      rw [logicalEnd, h1, this, Nat.mod_eq_of_lt hl]
    rw [leafLookup, if_neg (by omega)]
  | merge xs ys e hle hm =>
    refine hcongr xs ?_
    obtain ⟨hend, -, hlen⟩ := mergeable_spec (by omega) hle hm
    have h1 : e.grow.eeBlock = e.eeBlock := rfl
    have h2 : e.grow.logicalEnd = logical + 1 := by
      rw [logicalEnd, h1, hlen, ← Nat.add_assoc, hend, Nat.mod_eq_of_lt hl]
    have h3 : e.logicalEnd = logical := by
      rw [logicalEnd, hend, Nat.mod_eq_of_lt (by omega)]
    have h4 : e.grow.startPhys = e.startPhys := rfl
    rw [leafLookup, leafLookup, h1, h2, h3, h4]
    by_cases hin : l ≥ e.eeBlock ∧ l < logical
    · rw [if_pos hin, if_pos (by omega)]
    · rw [if_neg hin, if_neg (by omega)]

/-- The last 32-bit block number is out of reach of a lookup: the end of its extent is 0. -/
theorem lookup_last (h : Extended (2 ^ 32 - 1) physical es es') (hun : ∀ e ∈ es, ¬e.Covers (2 ^ 32 - 1)) :
    leafLookup (2 ^ 32 - 1) es' = 0 := by
  refine leafLookup_eq_zero ?_
  have hnot : ∀ e : ExtentLeaf, ¬e.Covers (2 ^ 32 - 1) → ¬(2 ^ 32 - 1 ≥ e.eeBlock ∧ 2 ^ 32 - 1 < e.logicalEnd) := by
    rintro e hc ⟨h1, h2⟩
    exact hc ⟨h1, lt_of_lt_of_le h2 e.logicalEnd_le⟩
  cases h with
  | insert xs ys =>
    intro e he
    rcases mem_append.1 he with hx | hx
    · exact hnot e (hun e (mem_append_left _ hx))
    · rcases mem_cons.1 hx with rfl | hy
      · rintro ⟨-, h2⟩
        exact absurd h2 (by simp [logicalEnd, actualLen, mkLeaf])
      · exact hnot e (hun e (mem_append_right _ hy))
  | merge xs ys e hle hm =>
    obtain ⟨hend, -, hlen⟩ := mergeable_spec (by omega) hle hm
    intro x he
    rcases mem_append.1 he with hx | hx
    · exact hnot x (hun x (mem_append_left _ hx))
    · rcases mem_cons.1 hx with rfl | hy
      · rintro ⟨-, h2⟩
        have h1 : e.grow.eeBlock = e.eeBlock := rfl
        rw [logicalEnd, h1, hlen, ← Nat.add_assoc, hend] at h2
        exact absurd h2 (by decide)
      · exact hnot x (hun x (mem_append_right _ (mem_cons_of_mem _ hy)))

end Extended

end ShellCore.Ext4
