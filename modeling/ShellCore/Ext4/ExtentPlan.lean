import ShellCore.Ext4.ExtentOrder

/-!
# Insertion into ordered trees

Where an insertion works and how many blocks it takes is read off the tree before it. On an ordered
tree it keeps the order, unless the block comes before every extent of a full leaf: the split then puts
it behind the first extent.
-/

namespace ShellCore.Ext4

open IndexNode hiding max

open LeafNode hiding max

open List ExtentLeaf

/-! ## Where an insertion works -/

/-- The last entry with a key at most `logical`. -/
def lastAtMost {α : Type} (key : α → Nat) (logical : Nat) (xs : List α) : Option α :=
  (xs.filter fun x => key x ≤ logical).getLast?

/-- Every index node on the way down has a key at most `logical`, and the leaf at the end has one or
has room. -/
def Insertable (logical : Nat) : (d : Nat) → Tree d → Prop
  | 0, ⟨max, es⟩ => (∃ e ∈ es, e.eeBlock ≤ logical) ∨ es.length < max
  | d + 1, ⟨_, cs⟩ =>
    match lastAtMost (fun c => c.1.eiBlock) logical cs with
    | none => False
    | some c => Insertable logical d c.2

/-- The number of nodes that split: those full, from the leaf upwards without a gap. -/
def splitsNeeded (logical physical : Nat) : (d : Nat) → Tree d → Nat
  | 0, ⟨max, es⟩ =>
    if (lastAtMost eeBlock logical es).any (·.mergeable logical physical) then 0
    else if es.length < max then 0 else 1
  | d + 1, ⟨max, cs⟩ =>
    match lastAtMost (fun c => c.1.eiBlock) logical cs with
    | none => 0
    | some c =>
      let n := splitsNeeded logical physical d c.2
      if n = d + 1 ∧ max ≤ cs.length then n + 1 else n

theorem splitsNeeded_le (logical physical : Nat) :
    ∀ (d : Nat) (t : Tree d), splitsNeeded logical physical d t ≤ d + 1 := by
  intro d
  induction d with
  | zero =>
    rintro ⟨max, es⟩
    simp only [splitsNeeded]
    split
    · omega
    · split <;> omega
  | succ d ih =>
    rintro ⟨max, cs⟩
    simp only [splitsNeeded]
    split
    · omega
    · rename_i c _
      have := ih c.2
      split <;> omega

/-- On increasing keys the binary search finds the last entry at most `logical`. -/
theorem getLast?_take_aimPos {α : Type} {key : α → Nat} {logical xs}
    (h : (xs.map key).Pairwise (· < ·)) :
    (xs.take (aimPos (xs.map key) logical)).getLast? = lastAtMost key logical xs := by
  obtain ⟨h1, h2⟩ := aimPos_spec h logical
  set k := aimPos (xs.map key) logical
  unfold lastAtMost
  conv_rhs => rw [← take_append_drop k xs, filter_append]
  have ht : (xs.take k).filter (fun x => decide (key x ≤ logical)) = xs.take k := by
    rw [filter_eq_self]
    intro x hx
    rw [decide_eq_true_eq]
    exact h1 _ (by rw [← map_take]; exact mem_map_of_mem hx)
  have hd : (xs.drop k).filter (fun x => decide (key x ≤ logical)) = [] := by
    rw [filter_eq_nil_iff]
    intro x hx
    rw [decide_eq_true_eq, Nat.not_le]
    exact h2 _ (by rw [← map_drop]; exact mem_map_of_mem hx)
  rw [ht, hd, append_nil]

theorem lastAtMost_eq_none {α : Type} {key : α → Nat} {logical xs} :
    lastAtMost key logical xs = none ↔ ∀ x ∈ xs, logical < key x := by
  simp [lastAtMost]

/-- The aim among increasing keys: every entry is behind it, or it splits the entries around one. -/
theorem aim_cases {α : Type} {key : α → Nat} {xs} (h : (xs.map key).Pairwise (· < ·)) (logical : Nat) :
    xs.take (aimPos (xs.map key) logical) = [] ∧ lastAtMost key logical xs = none ∧ (∀ x ∈ xs, logical < key x) ∨
      ∃ A c B, xs = A ++ c :: B ∧ xs.take (aimPos (xs.map key) logical) = A ++ [c] ∧
        xs.drop (aimPos (xs.map key) logical) = B ∧ lastAtMost key logical xs = some c ∧ key c ≤ logical ∧
        ∀ x ∈ B, logical < key x := by
  obtain ⟨hbefore, hafter⟩ := aimPos_spec h logical
  rw [← getLast?_take_aimPos h]
  rw [← map_take] at hbefore
  rw [← map_drop] at hafter
  cases hlast : (xs.take (aimPos (xs.map key) logical)).getLast? with
  | none => exact .inl ⟨getLast?_eq_none_iff.1 hlast, rfl, lastAtMost_eq_none.1 (getLast?_take_aimPos h ▸ hlast)⟩
  | some c =>
    have htake := (dropLast_append_getLast? c hlast).symm
    refine .inr ⟨_, c, _, aim_split hlast, htake, rfl, rfl, ?_, fun x hx => hafter _ (mem_map_of_mem hx)⟩
    exact hbefore _ (mem_map_of_mem (mem_of_getLast? hlast))

/-- The first key of a node. -/
def Tree.firstKey : (d : Nat) → Tree d → Option Nat
  | 0, ⟨_, es⟩ => es.head?.map eeBlock
  | _ + 1, ⟨_, cs⟩ => cs.head?.map fun c => c.1.eiBlock

/-- The extents of an insertion result, in order. -/
def InsResult.flatten {d : Nat} : InsResult d → List ExtentLeaf
  | .done t => Tree.flatten d t
  | .split l _ _ r => Tree.flatten d l ++ Tree.flatten d r

/-- The node split. -/
def InsResult.isSplit {d : Nat} : InsResult d → Prop
  | .done _ => False
  | .split .. => True

/-- The parts of an insertion result are ordered, around the key reported to the parent. -/
def InsResult.Ordered {d : Nat} (hi lo : Nat) : InsResult d → Prop
  | .done t => Tree.Ordered d hi lo t
  | .split l _ key r => ∃ k, Tree.firstKey d l = some k ∧ lo ≤ k ∧ k < key ∧ key < hi ∧ key < 2 ^ 32 ∧
      Tree.Ordered d key k l ∧ Tree.Ordered d hi key r

/-- What an insertion leaves. -/
structure InsertSpec (logical physical : Nat) (d hi lo : Nat) (t : Tree d) (free : List Nat)
    (res : InsResult d) (free' : List Nat) : Prop where
  enough : splitsNeeded logical physical d t ≤ free.length
  rest : free' = free.drop (splitsNeeded logical physical d t)
  split : res.isSplit ↔ splitsNeeded logical physical d t = d + 1
  extended : Extended logical physical (Tree.flatten d t) res.flatten
  ordered : Insertable logical d t → res.Ordered hi lo
  misplaced : ¬Insertable logical d t →
    ∃ xs e ys, res.flatten = xs ++ e :: mkLeaf logical physical :: ys ∧ logical < e.eeBlock

section Place

variable {α : Type} {d max : Nat} {xs : List α} {mk : Nat → List α → Tree d} {key : α → Nat}
  {free free' : List Nat} {res : InsResult d}

theorem placeEntries_flatten {g : α → List ExtentLeaf} (hmk : ∀ m ys, Tree.flatten d (mk m ys) = ys.flatMap g)
    (h : placeEntries max xs mk key free = .ok (res, free')) : res.flatten = xs.flatMap g := by
  rcases placeEntries_cases h with ⟨rfl, -⟩ | ⟨blk, l, k, r, -, rfl, rfl, -⟩
  · exact hmk _ _
  · simp only [InsResult.flatten, hmk, flatMap_append]

/-- The allocations of `placeEntries`. -/
theorem placeEntries_alloc :
    match placeEntries max xs mk key free with
    | .error _ => free.length < if xs.length ≤ max then 0 else 1
    | .ok (res, free') => (if xs.length ≤ max then 0 else 1) ≤ free.length ∧
        free' = free.drop (if xs.length ≤ max then 0 else 1) ∧ (res.isSplit ↔ ¬xs.length ≤ max) := by
  unfold placeEntries
  by_cases hle : xs.length ≤ max
  · simp [hle, InsResult.isSplit]
  · cases free with
    | nil => simp [hle]
    | cons b free => simp [hle, InsResult.isSplit]

end Place

/-- Entry counts within the nodes' capacity, and no index node without entries. -/
def Tree.Sized : (d : Nat) → Tree d → Prop
  | 0, ⟨max, es⟩ => es.length ≤ max ∧ 1 ≤ max
  | d + 1, ⟨max, cs⟩ => cs ≠ [] ∧ cs.length ≤ max ∧ ∀ c ∈ cs, Tree.Sized d c.2

section Ordered

variable {max hi lo : Nat} {free free' : List Nat}

theorem placeExtents_ordered {xs res} (hmax : 1 ≤ max)
    (h : ExtentsIn hi lo xs)
    (hp : @placeEntries _ 0 max xs mk eeBlock free = .ok (res, free')) :
    res.Ordered hi lo := by
  rcases placeEntries_cases hp with ⟨rfl, -⟩ | ⟨blk, l, k, r, -, rfl, rfl, hcons⟩
  · exact h
  · obtain ⟨x, xs', y, ys, rfl, rfl, rfl⟩ := hcons hmax
    obtain ⟨mid, ⟨h1, h2, h3⟩, h4, h5, h6⟩ := extentsIn_append.1 h
    have hmid := h3.le
    have hend := h6.le
    exact ⟨x.eeBlock, rfl, h1, by omega, by omega, y.eeBlock_lt, ⟨le_rfl, h2, h3.mono h4 le_rfl⟩, le_rfl, h5, h6⟩

theorem placeChildren_ordered {d xs res}
    (hmax : 1 ≤ max) (h : ChildrenIn (Tree.Ordered d) hi lo xs)
    (hp : @placeEntries _ (d + 1) max xs mk (fun c => c.1.eiBlock) free = .ok (res, free')) :
    res.Ordered hi lo := by
  rcases placeEntries_cases hp with ⟨rfl, -⟩ | ⟨blk, l, k, r, -, rfl, rfl, hcons⟩
  · exact h
  · obtain ⟨x, xs', y, ys, rfl, rfl, rfl⟩ := hcons hmax
    obtain ⟨mid, ⟨m, h1, h2, h3, h4⟩, m', h5, h6, h7, h8⟩ := childrenIn_append.1 h
    have hmid := h4.le
    have hend := h8.le
    exact ⟨x.1.eiBlock, rfl, h1, by omega, by omega, y.1.eiBlock_lt, ⟨m, le_rfl, h2, h3, h4.mono_right h5⟩,
      m', le_rfl, h6, h7, h8⟩

end Ordered

/-- The outcome `out` of an insertion into the tree `t`. -/
def InsertOutcome (logical physical : Nat) (d hi lo : Nat) (t : Tree d) (free : List Nat)
    (out : Except ExtPanic (InsResult d × List Nat)) : Prop :=
  match out with
  | .error _ => ¬Insertable logical d t ∨ free.length < splitsNeeded logical physical d t
  | .ok (res, free') => InsertSpec logical physical d hi lo t free res free'

variable {logical physical : Nat}

/-- The outcome of storing one more extent in a leaf. -/
theorem placeExtents_outcome {hi lo max es ys free} (hmax : 1 ≤ max)
    (hlen : ys.length = es.length + 1)
    (hn : splitsNeeded logical physical 0 (mk max es) = if es.length < max then 0 else 1)
    (hext : Extended logical physical es ys)
    (hord : Insertable logical 0 (mk max es) → ExtentsIn hi lo ys)
    (hmis : ¬Insertable logical 0 (mk max es) →
      ∃ xs e zs, ys = xs ++ e :: mkLeaf logical physical :: zs ∧ logical < e.eeBlock) :
    InsertOutcome logical physical 0 hi lo (mk max es) free
      (placeEntries max ys mk eeBlock free) := by
  have halloc := @placeEntries_alloc _ 0 max ys mk eeBlock free
  have hcount : (if ys.length ≤ max then 0 else 1) = if es.length < max then 0 else 1 := by
    rw [hlen]; rfl
  rw [hcount, ← hn] at halloc
  cases hp : @placeEntries _ 0 max ys mk eeBlock free with
  | error e =>
    rw [hp] at halloc
    exact Or.inr halloc
  | ok r =>
    obtain ⟨res, free'⟩ := r
    rw [hp] at halloc
    obtain ⟨h1, h2, h3⟩ := halloc
    have hflat : res.flatten = ys := by
      have h := placeEntries_flatten (g := fun e => [e]) (fun m zs => by simp [Tree.flatten]) hp
      simpa using h
    constructor
    case enough => exact h1
    case rest => exact h2
    case split =>
      rw [h3, hn, hlen]
      split <;> omega
    case extended => rw [hflat]; exact hext
    case ordered => exact fun hi => placeExtents_ordered hmax (hord hi) hp
    case misplaced => rw [hflat]; exact hmis

/-- The extents behind the new block still start behind it. -/
theorem extentsIn_behind {hi mid es} (h : ExtentsIn hi mid es) (hhi : logical < hi)
    (hes : ∀ e ∈ es, logical < e.eeBlock) : ExtentsIn hi (logical + 1) es := by
  cases es with
  | nil => exact hhi
  | cons e es => exact ⟨hes e mem_cons_self, h.2⟩

theorem insTree_leaf {hi lo t free} (ht : Tree.Ordered 0 hi lo t)
    (hs : Tree.Sized 0 t) (hlo : lo ≤ logical) (hhi : logical < hi) (hmax : hi ≤ 2 ^ 32)
    (hun : ∀ e ∈ Tree.flatten 0 t, ¬e.Covers logical) :
    InsertOutcome logical physical 0 hi lo t free (insTree logical physical 0 t free) := by
  obtain ⟨max, es⟩ := t
  replace ht : ExtentsIn hi lo es := ht
  obtain ⟨hlen, hmax1⟩ := hs
  have hnew : (mkLeaf logical physical).eeBlock = logical := Nat.mod_eq_of_lt (by omega)
  have hnewlen : (mkLeaf logical physical).actualLen = 1 := rfl
  rcases aim_cases ht.pairwise logical with ⟨htake, hnone, hall⟩ | ⟨A, e, B, rfl, htake, hdrop, hsome, hele, hB⟩
  · have hins : Insertable logical 0 (mk max es) ↔ es.length < max := by
      constructor
      · rintro (⟨e, he, hle⟩ | h)
        · have := hall e he; omega
        · exact h
      · exact Or.inr
    simp only [insTree, htake, getLast?_nil]
    refine placeExtents_outcome hmax1 ?_ ?_ ?_ ?_ ?_
    · rw [length_append, length_cons, ← Nat.add_assoc, ← length_append, take_append_drop]
    · simp [splitsNeeded, hnone]
    · have h := @Extended.insert logical physical (es.take (if es.length < max then 0 else 1))
        (es.drop (if es.length < max then 0 else 1))
      rwa [take_append_drop] at h
    · intro h
      rw [if_pos (hins.1 h)]
      exact ⟨by omega, by omega, by rw [hnew, hnewlen]; exact extentsIn_behind ht hhi hall⟩
    · intro h
      rw [hins] at h
      rw [if_neg h]
      cases es with
      | nil => exact absurd (show 0 < max by omega) h
      | cons x xs => exact ⟨[], x, xs, rfl, hall x (by simp)⟩
  · have hemem : e ∈ A ++ e :: B := by simp
    have heend : e.eeBlock + e.actualLen ≤ logical := by
      have := hun e hemem
      unfold Covers at this
      omega
    have hins : Insertable logical 0 (mk max (A ++ e :: B)) := Or.inl ⟨e, hemem, hele⟩
    obtain ⟨mid, hA, h1, h2, hB'⟩ := extentsIn_append.1 ht
    have htail := extentsIn_behind hB' hhi hB
    simp only [insTree, htake, hdrop, getLast?_concat, dropLast_concat]
    by_cases hmerge : e.mergeable logical physical = true
    · simp only [if_pos hmerge]
      obtain ⟨hend, -, hgrow⟩ := mergeable_spec (by omega) hele hmerge
      have hn : splitsNeeded logical physical 0 (mk max (A ++ e :: B)) = 0 := by
        simp [splitsNeeded, hsome, hmerge]
      constructor
      case enough => rw [hn]; exact Nat.zero_le _
      case rest => rw [hn, drop_zero]
      case split => rw [hn]; simp [InsResult.isSplit]
      case extended => exact Extended.merge A B e hele hmerge
      case ordered =>
        intro _
        refine extentsIn_append.2 ⟨mid, hA, h1, by omega, ?_⟩
        have hkey : e.grow.eeBlock = e.eeBlock := rfl
        rw [hgrow, hkey, ← Nat.add_assoc, hend]
        exact htail
      case misplaced => exact fun h => absurd hins h
    · simp only [if_neg hmerge, append_assoc, singleton_append]
      refine placeExtents_outcome hmax1 ?_ ?_ ?_ ?_ fun h => absurd hins h
      · simp [Nat.add_assoc]
      · simp [splitsNeeded, hsome, hmerge]
      · simpa using @Extended.insert logical physical (A ++ [e]) B
      · intro _
        refine extentsIn_append.2 ⟨mid, hA, h1, h2, ?_⟩
        exact ⟨by omega, by omega, by rw [hnew, hnewlen]; exact htail⟩

/-- The keys behind the aim leave room for the new block. -/
theorem childrenIn_widen {d hi mid cs}
    (h : ChildrenIn (Tree.Ordered d) hi mid cs) (hhi : logical < hi) (hcs : ∀ c ∈ cs, logical < c.1.eiBlock) :
    ChildrenIn (Tree.Ordered d) hi (max mid (logical + 1)) cs := by
  cases cs with
  | nil =>
    have : mid ≤ hi := h
    exact max_le this hhi
  | cons c cs =>
    obtain ⟨m, h1, h⟩ := h
    exact ⟨m, max_le h1 (hcs c (by simp)), h⟩

/-- The outcome of an insertion into an ordered tree. -/
theorem insTree_outcome :
    ∀ {d hi lo : Nat} {t : Tree d} {free : List Nat}, Tree.Ordered d hi lo t → Tree.Sized d t →
      lo ≤ logical → logical < hi → hi ≤ 2 ^ 32 → (∀ e ∈ Tree.flatten d t, ¬e.Covers logical) →
      InsertOutcome logical physical d hi lo t free (insTree logical physical d t free) := by
  intro d
  induction d with
  | zero => intro hi lo t free ht hs hlo hhi hmax hun; exact insTree_leaf ht hs hlo hhi hmax hun
  | succ d ih =>
    intro hi lo t free ht hs hlo hhi hmax hun
    obtain ⟨max, cs⟩ := t
    replace ht : ChildrenIn (Tree.Ordered d) hi lo cs := ht
    obtain ⟨hne, hlen, hsized⟩ := hs
    have hpos : 0 < cs.length := length_pos_iff.2 hne
    rcases aim_cases ht.pairwise logical with ⟨htake, hnone, -⟩ | ⟨A, c, B, rfl, htake, hdrop, hsome, hcle, hB⟩
    · simp only [insTree, htake, getLast?_nil]
      left
      simp only [Insertable, hnone, not_false_eq_true]
    · have hins : Insertable logical (d + 1) (mk max (A ++ c :: B)) ↔ Insertable logical d c.2 := by
        simp only [Insertable, hsome]
      have hn : splitsNeeded logical physical (d + 1) (mk max (A ++ c :: B)) =
          if splitsNeeded logical physical d c.2 = d + 1 ∧ max ≤ (A ++ c :: B).length then
            splitsNeeded logical physical d c.2 + 1 else splitsNeeded logical physical d c.2 := by
        simp only [splitsNeeded, hsome]
      have hcmem : c ∈ A ++ c :: B := by simp
      obtain ⟨m, hA, mid, h1, h2, h3, h4⟩ := childrenIn_append.1 ht
      have hB' := childrenIn_widen h4 hhi hB
      have hmidle := hB'.le
      have hchild := @ih (Nat.max mid (logical + 1)) c.1.eiBlock c.2 free
        (h3.mono_right (Nat.le_max_left _ _)) (hsized c hcmem) hcle
        (lt_of_lt_of_le (Nat.lt_succ_self _) (Nat.le_max_right _ _)) (le_trans hmidle hmax)
        (fun e he => hun e (mem_flatMap.2 ⟨c, hcmem, he⟩))
      simp only [insTree, htake, hdrop, getLast?_concat, dropLast_concat]
      cases hrec : insTree logical physical d c.2 free with
      | error e =>
        rw [hrec] at hchild
        rcases hchild with h | h
        · exact Or.inl (hins.not.2 h)
        · refine Or.inr ?_
          rw [hn]
          split <;> omega
      | ok r =>
        obtain ⟨res, free₁⟩ := r
        rw [hrec] at hchild
        have hspec : InsertSpec logical physical d (Nat.max mid (logical + 1)) c.1.eiBlock c.2 free res free₁ :=
          hchild
        -- the parts around the child keep their extents
        have hlift : ∀ res' : InsResult (d + 1),
            res'.flatten = A.flatMap (fun c => Tree.flatten d c.2) ++ (res.flatten ++
              B.flatMap fun c => Tree.flatten d c.2) →
            Extended logical physical (Tree.flatten (d + 1) (mk max (A ++ c :: B))) res'.flatten ∧
              (¬Insertable logical (d + 1) (mk max (A ++ c :: B)) → ∃ xs e ys,
                res'.flatten = xs ++ e :: mkLeaf logical physical :: ys ∧ logical < e.eeBlock) := by
          intro res' hflat
          have h : Tree.flatten (d + 1) (mk max (A ++ c :: B)) =
              (A ++ c :: B).flatMap fun c => Tree.flatten d c.2 := rfl
          rw [hflat, h, flatMap_append, flatMap_cons]
          refine ⟨hspec.extended.context _ _, fun h => ?_⟩
          obtain ⟨xs, e, ys, heq, hlt⟩ := hspec.misplaced (hins.not.1 h)
          refine ⟨A.flatMap (fun c => Tree.flatten d c.2) ++ xs, e, ys ++ B.flatMap fun c => Tree.flatten d c.2,
            ?_, hlt⟩
          rw [heq]
          simp
        cases res with
        | done t' =>
          have hnot : ¬splitsNeeded logical physical d c.2 = d + 1 := fun h => hspec.split.2 h
          rw [if_neg fun h => hnot h.1] at hn
          obtain ⟨hextended, hmisplaced⟩ := hlift (.done (mk max (A ++ (c.1, t') :: B))) (by
            simp [InsResult.flatten, Tree.flatten])
          constructor
          case enough => rw [hn]; exact hspec.enough
          case rest => rw [hn]; exact hspec.rest
          case split =>
            have hle := splitsNeeded_le logical physical d c.2
            rw [hn]
            simp only [InsResult.isSplit, false_iff]
            omega
          case extended => exact hextended
          case ordered =>
            intro h
            refine childrenIn_append.2 ⟨m, hA, Nat.max mid (logical + 1), h1, ?_, hspec.ordered (hins.1 h), hB'⟩
            exact lt_of_lt_of_le h2 (Nat.le_max_left _ _)
          case misplaced => exact hmisplaced
        | split l blk key r =>
          have hsplit : splitsNeeded logical physical d c.2 = d + 1 := hspec.split.1 trivial
          set ys := A ++ (c.1, l) :: (mkIndex key blk, r) :: B with hys
          have hylen : ys.length = (A ++ c :: B).length + 1 := by simp [hys]; omega
          have halloc := @placeEntries_alloc _ (d + 1) max ys mk (fun c => c.1.eiBlock) free₁
          have hn' : splitsNeeded logical physical (d + 1) (mk max (A ++ c :: B)) =
              d + 1 + if ys.length ≤ max then 0 else 1 := by
            rw [hn, hsplit, hylen]
            split <;> split <;> omega
          have henough := hspec.enough
          have hrest := hspec.rest
          rw [hsplit] at henough hrest
          dsimp only
          rw [← hys]
          cases hp : @placeEntries _ (d + 1) max ys mk (fun c => c.1.eiBlock) free₁ with
          | error e =>
            rw [hp, hrest, length_drop] at halloc
            refine Or.inr ?_
            rw [hn']
            omega
          | ok q =>
            obtain ⟨res', free'⟩ := q
            rw [hp, hrest] at halloc
            obtain ⟨ha1, ha2, ha3⟩ := halloc
            rw [length_drop] at ha1
            rw [drop_drop] at ha2
            obtain ⟨hextended, hmisplaced⟩ := hlift res' (by
              rw [placeEntries_flatten (fun m zs => rfl) hp, hys]
              simp [InsResult.flatten])
            constructor
            case enough => rw [hn']; omega
            case rest => rw [hn', ha2]
            case split =>
              rw [ha3, hn']
              split <;> omega
            case extended => exact hextended
            case ordered =>
              intro h
              obtain ⟨k₀, -, hk1, hk2, hk3, hk4, hl, hr⟩ := hspec.ordered (hins.1 h)
              have hkey : (mkIndex key blk).eiBlock = key := Nat.mod_eq_of_lt hk4
              refine placeChildren_ordered (by omega) ?_ hp
              refine childrenIn_append.2 ⟨m, hA, key, h1, lt_of_le_of_lt hk1 hk2, hl.mono_left hk1, ?_⟩
              refine ⟨Nat.max mid (logical + 1), ?_, ?_, ?_, hB'⟩
              · exact hkey.ge
              · exact lt_of_eq_of_lt hkey hk3
              · rw [hkey]; exact hr
            case misplaced => exact hmisplaced

/-- The part of a split that stays is not empty. -/
theorem placeEntries_firstKey {α : Type} {d max blk k xs} {mk : Nat → List α → Tree d}
    {key : α → Nat} {free free' l r}
    (hmk : ∀ m x ys, Tree.firstKey d (mk m (x :: ys)) = some (key x)) (hmax : 1 ≤ max)
    (h : placeEntries max xs mk key free = .ok (.split l blk k r, free')) : ∃ k, Tree.firstKey d l = some k := by
  rcases placeEntries_cases h with ⟨h, -⟩ | ⟨blk, l, k, r, -, -, h, hcons⟩
  · cases h
  · cases h
    obtain ⟨x, xs', -, -, rfl, -⟩ := hcons hmax
    exact ⟨key x, hmk _ _ _⟩

theorem insTree_firstKey {d blk k t l r free free'} (hs : Tree.Sized d t)
    (h : insTree logical physical d t free = .ok (.split l blk k r, free')) : ∃ k, Tree.firstKey d l = some k := by
  cases d with
  | zero =>
    obtain ⟨max, es⟩ := t
    simp only [insTree] at h
    split at h
    · split at h
      · cases h
      · exact placeEntries_firstKey (fun _ _ _ => rfl) hs.2 h
    · exact placeEntries_firstKey (fun _ _ _ => rfl) hs.2 h
  | succ d =>
    obtain ⟨max, cs⟩ := t
    have hpos : 0 < cs.length := length_pos_iff.2 hs.1
    have hmax : 1 ≤ max := le_trans hpos hs.2.1
    simp only [insTree] at h
    split at h
    · cases h
    · split at h
      · cases h
      · cases h
      · exact placeEntries_firstKey (fun _ _ _ => rfl) hmax h

end ShellCore.Ext4
