import ShellCore.Block.CacheMoves

/-!
# The references to the pages

The count of a page is the number of references that the map and the activities have to it. So a count
of one at an activity that holds the page means that nobody else can reach it, and a count of two at
`try_evict` that only the map and the evicting activity can.
-/

namespace ShellCore.Block

open List

def Cont.batch : Cont → List Nat
  | flush batch _ => batch
  | _ => []

/-- The pages that the activity has references to. -/
def Pc.held : Pc → List Nat
  | publish _ p _ | clear p | hold p | evictSync _ p | evictFrame _ p | evictRemove _ p => [p]
  | backSync p k | release p k => p :: k.batch
  | drop _ k | backId _ k | back _ k => k.batch
  | flush batch _ => batch
  | _ => []

theorem Cont.held_pc {k : Cont} : k.pc.held = k.batch := by
  cases k <;> rfl

variable {x y : Pc} {b p : Nat}

theorem Starts.held {γ α : Type} {cmd : Cmd γ α} (h : Starts cmd x) : x.held = [] := by
  cases h <;> rfl

theorem Passes.held (h : Passes x y) : y.held = x.held := by
  cases h with
  | backNoId | backNone => exact Cont.held_pc
  | _ => rfl

theorem Clones.held (h : Clones b p x y) : y.held = p :: x.held := by
  cases h <;> rfl

theorem Syncs.held (h : Syncs p x y) : y.held = x.held := by
  cases h with
  | drop => exact Cont.held_pc
  | _ => rfl

/-- The activity is neither about to publish a page nor to drop one. -/
def Pc.Plain : Pc → Prop
  | publish _ _ _ | drop _ _ => False
  | _ => True

theorem Cont.plain_pc {k : Cont} : k.pc.Plain := by
  cases k <;> trivial

theorem Starts.plain {γ α : Type} {cmd : Cmd γ α} (h : Starts cmd x) : x.Plain := by
  cases h <;> trivial

theorem Passes.plain (h : Passes x y) : y.Plain := by
  cases h with
  | backNoId | backNone => exact Cont.plain_pc
  | _ => trivial

theorem Clones.plain (h : Clones b p x y) : y.Plain := by
  cases h <;> trivial

theorem Syncs.plain (h : Syncs p x y) : y.Plain := by
  cases h with
  | drop => exact Cont.plain_pc
  | _ => trivial

namespace PageCacheManager

variable {γ α : Type}

/-- The page is the entry of the map for its block. -/
def Listed (s : PageCacheManager γ α) (p : Nat) : Prop := s.pageCacheMap.get? (s.page p).blockId = some p

/-- The references of the map to the page. -/
def entries (s : PageCacheManager γ α) (p : Nat) : Nat :=
  if s.pageCacheMap.get? (s.page p).blockId = some p then 1 else 0

structure Counted [Fintype γ] (s : PageCacheManager γ α) : Prop where
  strong : ∀ p, (s.page p).strong = s.entries p + ∑ a, (s.pc a).held.count p
  entry : ∀ b p, s.pageCacheMap.get? b = some p → (s.page p).blockId = b ∧ p < s.next
  born : ∀ a p, p ∈ (s.pc a).held → p < s.next
  publishing : ∀ a b p fresh, s.pc a = .publish b p fresh → (s.page p).blockId = b ∧ (s.page p).strong = 1
  dropped : ∀ a p k, s.pc a = .drop p k → p < s.next ∧ (s.page p).strong = 0

section

variable {s : PageCacheManager γ α} {p : Nat} {a c : γ}

theorem entries_of_listed (h : s.Listed p) : s.entries p = 1 := if_pos h

theorem entries_of_not_listed (h : ¬s.Listed p) : s.entries p = 0 := if_neg h

variable [Fintype γ] {b : Nat}

theorem Counted.listed_entry (h : s.Counted) (hb : s.pageCacheMap.get? b = some p) : s.Listed p := by
  unfold Listed
  rw [(h.entry b p hb).1]
  exact hb

theorem count_le_sum [DecidableEq γ] : (s.pc a).held.count p ≤ ∑ x, (s.pc x).held.count p :=
  Finset.single_le_sum (fun x _ => Nat.zero_le ((s.pc x).held.count p)) (Finset.mem_univ a)

theorem count_add_le_sum [DecidableEq γ] (hac : a ≠ c) :
    (s.pc a).held.count p + (s.pc c).held.count p ≤ ∑ x, (s.pc x).held.count p := by
  have hpair : ∑ x ∈ {a, c}, (s.pc x).held.count p = (s.pc a).held.count p + (s.pc c).held.count p :=
    Finset.sum_pair hac
  rw [← hpair]
  exact Finset.sum_le_sum_of_subset (Finset.subset_univ _)

variable [DecidableEq γ] (h : s.Counted)

include h

theorem Counted.strong_pos (hp : p ∈ (s.pc a).held) : 1 ≤ (s.page p).strong := by
  have hcount := count_pos_iff.2 hp
  have hle := count_le_sum (s := s) (p := p) (a := a)
  have := h.strong p
  omega

/-- The last reference: the page is not in the map, and no other activity holds it. -/
theorem Counted.alone (hone : (s.page p).strong = 1) (hp : p ∈ (s.pc a).held) :
    ¬s.Listed p ∧ ∀ c, c ≠ a → p ∉ (s.pc c).held := by
  have hcount := count_pos_iff.2 hp
  have hstrong := h.strong p
  constructor
  · intro hl
    have hle := count_le_sum (s := s) (p := p) (a := a)
    rw [entries_of_listed hl] at hstrong
    omega
  · intro c hc hpc
    have hcount' := count_pos_iff.2 hpc
    have hle := count_add_le_sum (s := s) (p := p) hc.symm
    omega

/-- A page that has been created is in the hands of its creator alone until it is published. -/
theorem Counted.unpublished {b fresh} (hpc : s.pc a = .publish b p fresh) : (s.page p).blockId = b ∧ (s.page p).strong = 1 ∧
    p ∈ (s.pc a).held ∧ ¬s.Listed p ∧ ∀ c, c ≠ a → p ∉ (s.pc c).held := by
  obtain ⟨hblock, hone⟩ := h.publishing a b p fresh hpc
  have hmem : p ∈ (s.pc a).held := by
    rw [hpc]
    exact mem_singleton_self p
  exact ⟨hblock, hone, hmem, h.alone hone hmem⟩

/-- The last reference besides that of the map. -/
theorem Counted.alone_listed (htwo : (s.page p).strong = 2) (hl : s.Listed p)
    (hp : p ∈ (s.pc a).held) : ∀ c, c ≠ a → p ∉ (s.pc c).held := by
  intro c hc hpc
  have hcount := count_pos_iff.2 hp
  have hcount' := count_pos_iff.2 hpc
  have hle := count_add_le_sum (s := s) (p := p) hc.symm
  have hstrong := h.strong p
  rw [entries_of_listed hl] at hstrong
  omega

/-- A page that nobody has a reference to. -/
theorem Counted.unreachable (hzero : (s.page p).strong = 0) : ¬s.Listed p ∧ ∀ c, p ∉ (s.pc c).held := by
  have hstrong := h.strong p
  constructor
  · intro hl
    rw [entries_of_listed hl] at hstrong
    omega
  · intro c hp
    have := h.strong_pos hp
    omega

omit [DecidableEq γ] in
theorem Counted.unborn (hp : s.next ≤ p) : ¬s.Listed p ∧ ∀ c, p ∉ (s.pc c).held := by
  constructor
  · intro hl
    have := (h.entry _ p hl).2
    omega
  · intro c hc
    have := h.born c p hc
    omega

omit [DecidableEq γ] in
theorem Counted.strong_unborn (hp : s.next ≤ p) : (s.page p).strong = 0 := by
  obtain ⟨hl, hheld⟩ := h.unborn hp
  rw [h.strong p, entries_of_not_listed hl, Nat.zero_add]
  exact Finset.sum_eq_zero fun c _ => count_eq_zero_of_not_mem (hheld c)

/-! ## One step -/

variable {s₁ : PageCacheManager γ α} {q : Pc}

/-- A step that changes the count of a page only if the page is in the map or held by the activity. -/
theorem Counted.step (hpc : s₁.pc = s.pc) (hstrong : ∀ p, (s₁.page p).strong + s.entries p + (s.pc a).held.count p =
      (s.page p).strong + s₁.entries p + q.held.count p)
    (hentry : ∀ b p, s₁.pageCacheMap.get? b = some p → (s₁.page p).blockId = b ∧ p < s₁.next)
    (hnext : s.next ≤ s₁.next) (hborn : ∀ p ∈ q.held, p < s₁.next)
    (hid : ∀ p, p < s.next → (s₁.page p).blockId = (s.page p).blockId)
    (htouch : ∀ p, p < s.next → (s₁.page p).strong = (s.page p).strong ∨ s.Listed p ∨ p ∈ (s.pc a).held)
    (hpublish : ∀ b p fresh, q = .publish b p fresh → (s₁.page p).blockId = b ∧ (s₁.page p).strong = 1)
    (hdrop : ∀ p k, q = .drop p k → p < s₁.next ∧ (s₁.page p).strong = 0) : (s₁.goto a q).Counted where
  strong p := by
    have hsum : ∑ x, ((s₁.goto a q).pc x).held.count p + (s.pc a).held.count p =
        ∑ x, (s.pc x).held.count p + q.held.count p := by
      rw [← hpc]
      exact sum_actors_update fun (r : Pc) _ => r.held.count p
    have hold := h.strong p
    have hnew := hstrong p
    show (s₁.page p).strong = s₁.entries p + _
    omega
  entry := hentry
  born c p hp := by
    by_cases hc : c = a
    · subst hc
      rw [goto_pc_self] at hp
      exact hborn p hp
    · rw [goto_pc_of_ne hc, hpc] at hp
      exact (h.born c p hp).trans_le hnext
  publishing c b p fresh hc := by
    by_cases hca : c = a
    · subst hca
      rw [goto_pc_self] at hc
      exact hpublish b p fresh hc
    · rw [goto_pc_of_ne hca, hpc] at hc
      have hp : p ∈ (s.pc c).held := by
        rw [hc]
        exact mem_singleton_self p
      obtain ⟨hblock, hone, -, hl, hothers⟩ := h.unpublished hc
      refine ⟨(hid p (h.born c p hp)).trans hblock, ?_⟩
      rcases htouch p (h.born c p hp) with heq | hl' | ha
      · exact heq.trans hone
      · exact absurd hl' hl
      · exact absurd ha (hothers a (Ne.symm hca))
  dropped c p k hc := by
    by_cases hca : c = a
    · subst hca
      rw [goto_pc_self] at hc
      exact hdrop p k hc
    · rw [goto_pc_of_ne hca, hpc] at hc
      obtain ⟨hlt, hzero⟩ := h.dropped c p k hc
      obtain ⟨hl, hheld⟩ := h.unreachable hzero
      refine ⟨hlt.trans_le hnext, ?_⟩
      rcases htouch p hlt with heq | hl' | ha
      · exact heq.trans hzero
      · exact absurd hl' hl
      · exact absurd ha (hheld a)

omit h [Fintype γ] [DecidableEq γ] in
theorem entries_congr (hmap : s₁.pageCacheMap = s.pageCacheMap) (hid : (s₁.page p).blockId = (s.page p).blockId) :
    s₁.entries p = s.entries p := by
  unfold entries
  rw [hmap, hid]

/-- A step that keeps the map and the blocks of the pages. -/
theorem Counted.recount (hpc : s₁.pc = s.pc) (hmap : s₁.pageCacheMap = s.pageCacheMap) (hnext : s₁.next = s.next)
    (hid : ∀ p, (s₁.page p).blockId = (s.page p).blockId)
    (hstrong : ∀ p, (s₁.page p).strong + (s.pc a).held.count p = (s.page p).strong + q.held.count p)
    (htouch : ∀ p, p ∈ q.held → s.Listed p ∨ p ∈ (s.pc a).held) (hpublish : ∀ b p fresh, q ≠ .publish b p fresh)
    (hdrop : ∀ p k, q = .drop p k → p < s.next ∧ (s₁.page p).strong = 0) : (s₁.goto a q).Counted := by
  refine h.step hpc (fun p => ?_) (fun b p hb => ?_) hnext.ge (fun p hp => ?_) (fun p _ => hid p) (fun p _ => ?_)
    (fun b p fresh heq => absurd heq (hpublish b p fresh)) (hnext ▸ hdrop)
  · have := hstrong p
    rw [entries_congr hmap (hid p)]
    omega
  · rw [hid, hnext]
    exact h.entry b p (hmap ▸ hb)
  · rw [hnext]
    exact (htouch p hp).elim (fun hl => (h.entry _ p hl).2) (h.born a p)
  · by_cases ha : p ∈ (s.pc a).held
    · exact .inr (.inr ha)
    by_cases hq : p ∈ q.held
    · exact .inr (.inl ((htouch p hq).resolve_right ha))
    · have := hstrong p
      rw [count_eq_zero_of_not_mem ha, count_eq_zero_of_not_mem hq] at this
      exact .inl this

/-- A step that changes no count. -/
theorem Counted.quiet (hpc : s₁.pc = s.pc) (hmap : s₁.pageCacheMap = s.pageCacheMap)
    (hnext : s₁.next = s.next) (hpage : ∀ p, (s₁.page p).strong = (s.page p).strong ∧ (s₁.page p).blockId = (s.page p).blockId)
    (hheld : q.held = (s.pc a).held) (hq : q.Plain) : (s₁.goto a q).Counted := by
  refine h.recount hpc hmap hnext (fun p => (hpage p).2) (fun p => ?_) (fun p hp => .inr (hheld ▸ hp)) ?_ ?_
  · rw [(hpage p).1, hheld]
  · rintro b p fresh rfl
    exact hq
  · rintro p k rfl
    exact hq.elim

/-! ## Each kind of step -/

omit h [Fintype γ] [DecidableEq γ] in
/-- A change of a page that keeps its count and its block. -/
theorem setPage_counts {y} (hs : y.strong = (s.page p).strong) (hb : y.blockId = (s.page p).blockId) (r : Nat) :
    ((s.setPage p y).page r).strong = (s.page r).strong ∧ ((s.setPage p y).page r).blockId = (s.page r).blockId :=
  ⟨setPage_field (·.strong) hs r, setPage_field (·.blockId) hb r⟩

omit h [Fintype γ] [DecidableEq γ] in
theorem sync_counts (p r : Nat) :
    ((s.sync p).page r).strong = (s.page r).strong ∧ ((s.sync p).page r).blockId = (s.page r).blockId := by
  unfold sync
  split
  · exact ⟨rfl, rfl⟩
  · refine setPage_counts ?_ ?_ r <;> rfl

theorem Counted.sync (hheld : q.held = (s.pc a).held) (hq : q.Plain) (p : Nat) : ((s.sync p).goto a q).Counted := by
  obtain ⟨hpc, hmap, hnext, -⟩ := sync_frame (s := s) p
  exact h.quiet hpc hmap hnext (sync_counts p) hheld hq

theorem Counted.clone (hb : s.pageCacheMap.get? b = some p) (hheld : q.held = p :: (s.pc a).held)
    (hq : q.Plain) : ((s.clonePage p).goto a q).Counted := by
  refine h.recount rfl rfl rfl (setPage_field (·.blockId) rfl) (fun r => ?_) (fun r hr => ?_) ?_ ?_
  · rw [hheld, count_cons]
    by_cases hr : r = p
    · subst hr
      simp [clonePage]
      omega
    · simp [clonePage, hr, Ne.symm hr]
  · rw [hheld] at hr
    rcases mem_cons.1 hr with rfl | hr
    · exact .inl (h.listed_entry hb)
    · exact .inr hr
  · rintro c r fresh rfl
    exact hq
  · rintro r k rfl
    exact hq.elim

attribute [simp] Pc.held

theorem Counted.create [Zero α] {fresh} (hpc : s.pc a = .create b fresh) : (s.create a b fresh).Counted := by
  obtain ⟨hl, -⟩ := h.unborn (le_refl s.next)
  have hne : ∀ r, r < s.next → r ≠ s.next := fun r hr => by omega
  refine h.step rfl (fun r => ?_) (fun c r hc => ?_) (Nat.le_succ _) ?_ (fun r hr => ?_) (fun r hr => ?_) ?_ (by simp)
  · by_cases hr : r = s.next
    · subst hr
      have hzero := h.strong_unborn (le_refl s.next)
      have hnone : s.pageCacheMap.get? b ≠ some s.next := fun hb => hl (h.listed_entry hb)
      rw [entries_of_not_listed hl, hzero, hpc]
      simp [entries, newLoading, hnone]
    · simp [entries, hpc, hr, Ne.symm hr]
  · obtain ⟨hblock, hlt⟩ := h.entry c r hc
    refine ⟨?_, hlt.trans (Nat.lt_succ_self _)⟩
    show ((s.setPage s.next _).page r).blockId = c
    rw [setPage_page_of_ne (hne r hlt)]
    exact hblock
  · simp
  · show ((s.setPage s.next _).page r).blockId = (s.page r).blockId
    rw [setPage_page_of_ne (hne r hr)]
  · left
    show ((s.setPage s.next _).page r).strong = (s.page r).strong
    rw [setPage_page_of_ne (hne r hr)]
  · rintro c r fresh' heq
    obtain ⟨rfl, rfl, rfl⟩ := Pc.publish.inj heq
    show ((s.setPage s.next _).page s.next).blockId = b ∧ ((s.setPage s.next _).page s.next).strong = 1
    rw [setPage_page_self]
    exact ⟨rfl, rfl⟩

theorem Counted.publish {fresh} (hpc : s.pc a = .publish b p fresh)
    (hb : s.pageCacheMap.get? b = none) (hheld : q.held = [p]) (hq : q.Plain) :
    (((s.clonePage p).setMap (s.pageCacheMap.insert b p)).goto a q).Counted := by
  obtain ⟨hblock, hone, hmem, hl, -⟩ := h.unpublished hpc
  have hid : ∀ r, ((s.clonePage p).page r).blockId = (s.page r).blockId := setPage_field (·.blockId) rfl
  have hentry : ∀ c r, (s.pageCacheMap.insert b p).get? c = some r →
      (s.page r).blockId = c ∧ r < s.next := by
    intro c r hc
    rw [OrdMap.get?_insert] at hc
    split at hc
    · rename_i hcb
      cases hc
      exact ⟨hblock.trans hcb.symm, h.born a p hmem⟩
    · exact h.entry c r hc
  refine h.step rfl (fun r => ?_) (fun c r hc => ?_) (le_refl _) (fun r hr => ?_) (fun r _ => hid r) (fun r _ => ?_) ?_ ?_
  · have hold : (s.pc a).held = [p] := by rw [hpc]; rfl
    rw [hold, hheld]
    by_cases hr : r = p
    · subst hr
      simp [entries, clonePage, hblock, hb]
    · have hsame : ((s.clonePage p).setMap (s.pageCacheMap.insert b p)).entries r = s.entries r := by
        simp only [entries, setMap_map, setMap_page, hid, OrdMap.get?_insert]
        by_cases hrb : (s.page r).blockId = b
        · simp [hrb, hb, Ne.symm hr]
        · simp [hrb]
      rw [hsame]
      simp [clonePage, hr]
  · show ((s.clonePage p).page r).blockId = c ∧ r < s.next
    rw [hid]
    exact hentry c r hc
  · rw [hheld, mem_singleton] at hr
    subst hr
    exact h.born a r hmem
  · by_cases hr : r = p
    · subst hr
      exact .inr (.inr hmem)
    · exact .inl (by simp [clonePage, hr])
  · rintro c r fresh' rfl
    exact hq.elim
  · rintro r k rfl
    exact hq.elim

theorem Counted.duplicate {b r fresh} (hpc : s.pc a = .publish b p fresh)
    (hb : s.pageCacheMap.get? b = some r) :
    (((s.discardPage p).clonePage r).goto a (.hold r)).Counted := by
  obtain ⟨-, hone, hmem, hl, -⟩ := h.unpublished hpc
  have hrp : r ≠ p := by
    rintro rfl
    exact hl (h.listed_entry hb)
  refine h.recount rfl rfl rfl (fun t => ?_) (fun t => ?_) (fun t ht => ?_) (by simp) (by simp)
  · refine (setPage_field (·.blockId) ?_ t).trans (setPage_field (·.blockId) ?_ t) <;> rfl
  · rw [hpc]
    by_cases ht : t = p
    · subst ht
      simp [clonePage, Ne.symm hrp, hone, hrp]
    · by_cases htr : t = r
      · subst htr
        simp [clonePage, ht, Ne.symm ht]
      · simp [clonePage, ht, htr, Ne.symm ht, Ne.symm htr]
  · rw [Pc.held, mem_singleton] at ht
    exact .inl (ht ▸ h.listed_entry hb)

theorem Counted.drop {k : Cont} (hpc : s.pc a = .release p k) :
    ((s.dropPage p).goto a (if (s.page p).strong = 1 then .drop p k else k.pc)).Counted := by
  have hmem : p ∈ (s.pc a).held := by
    rw [hpc]
    exact mem_cons_self
  have hpos := h.strong_pos hmem
  generalize hq : (if (s.page p).strong = 1 then Pc.drop p k else k.pc) = q
  have hheld : q.held = k.batch := by
    rw [← hq]
    split
    · rfl
    · exact Cont.held_pc
  refine h.recount rfl rfl rfl (setPage_field (·.blockId) rfl) (fun r => ?_) (fun r hr => .inr ?_) ?_ ?_
  · rw [hheld, hpc, Pc.held, count_cons]
    by_cases hr : r = p
    · subst hr
      simp [dropPage]
      omega
    · simp [dropPage, hr, Ne.symm hr]
  · rw [hheld] at hr
    rw [hpc]
    exact mem_cons_of_mem p hr
  · rintro c r fresh rfl
    split at hq
    · cases hq
    · cases k <;> cases hq
  · rintro r k' rfl
    split at hq
    next hone =>
      obtain ⟨rfl, rfl⟩ := Pc.drop.inj hq
      exact ⟨h.born a p hmem, by simp [dropPage, hone]⟩
    · cases k <;> cases hq

/-- The entry of a block is taken out of the map, and its reference with it. -/
theorem Counted.erase (hb : s.pageCacheMap.get? b = some p) (hpc : s₁.pc = s.pc)
    (hmap : s₁.pageCacheMap = s.pageCacheMap.erase b) (hnext : s₁.next = s.next)
    (hp : (s₁.page p).strong = (s.page p).strong - 1 ∧ (s₁.page p).blockId = (s.page p).blockId)
    (hpage : ∀ r, r ≠ p → s₁.page r = s.page r) (hheld : q.held = (s.pc a).held) (hq : q.Plain) : (s₁.goto a q).Counted := by
  have hl := h.listed_entry hb
  obtain ⟨hblock, -⟩ := h.entry b p hb
  have hid : ∀ r, (s₁.page r).blockId = (s.page r).blockId := by
    intro r
    by_cases hr : r = p
    · exact hr ▸ hp.2
    · rw [hpage r hr]
  refine h.step hpc (fun r => ?_) (fun c r hc => ?_) hnext.ge (fun r hr => ?_) (fun r _ => hid r) (fun r _ => ?_) ?_ ?_
  · rw [hheld]
    by_cases hr : r = p
    · subst hr
      have hstrong := h.strong r
      have hgone : s₁.entries r = 0 := by simp [entries, hmap, hid, hblock, OrdMap.get?_erase]
      rw [entries_of_listed hl] at hstrong ⊢
      rw [hgone, hp.1]
      omega
    · have hsame : s₁.entries r = s.entries r := by
        simp only [entries, hmap, hid, OrdMap.get?_erase]
        by_cases hrb : (s.page r).blockId = b
        · simp [hrb, hb, Ne.symm hr]
        · simp [hrb]
      rw [hsame, hpage r hr]
  · rw [hmap, OrdMap.get?_erase] at hc
    split at hc
    · cases hc
    · rw [hid, hnext]
      exact h.entry c r hc
  · rw [hheld] at hr
    rw [hnext]
    exact h.born a r hr
  · by_cases hr : r = p
    · subst hr
      exact .inr (.inl hl)
    · exact .inl (by rw [hpage r hr])
  · rintro c r fresh rfl
    exact hq.elim
  · rintro r k rfl
    exact hq.elim

omit h [Fintype γ] [DecidableEq γ] in
theorem mem_after {cursor e} :
    e ∈ s.after cursor ↔ s.pageCacheMap.get? e.1 = some e.2 ∧ ∀ c, cursor = some c → c < e.1 := by
  cases cursor <;> simp [after, ← OrdMap.mem_entries]

omit [DecidableEq γ] in
/-- The pages of a batch are distinct. -/
theorem Counted.nodup_batch (cursor : Option Nat) : ((s.nextBatch cursor).map Prod.snd).Nodup := by
  have hsorted : (s.nextBatch cursor).Pairwise fun x y => x.1 < y.1 :=
    (s.pageCacheMap.sorted.filter _).sublist (take_sublist _ _)
  refine pairwise_map.2 (hsorted.imp_of_mem ?_)
  intro x y hx hy hlt heq
  obtain ⟨hx', -⟩ := mem_after.1 (mem_of_mem_take hx)
  obtain ⟨hy', -⟩ := mem_after.1 (mem_of_mem_take hy)
  have h1 := (h.entry x.1 x.2 hx').1
  have h2 := (h.entry y.1 y.2 hy').1
  rw [heq, h2] at h1
  omega

theorem Counted.collect {cursor c'} (hpc : s.pc a = .collect cursor) {batch}
    (hbatch : (s.nextBatch cursor).map Prod.snd = batch) :
    ((s.cloneAll batch).goto a (.flush batch c')).Counted := by
  have hnodup : batch.Nodup := hbatch ▸ h.nodup_batch cursor
  refine h.recount rfl rfl rfl (fun r => ?_) (fun r => ?_) (fun r hr => .inl ?_) (by simp) (by simp)
  · simp only [cloneAll]
    split <;> rfl
  · rw [hpc]
    by_cases hr : r ∈ batch
    · simp [cloneAll, hr, count_eq_one_of_mem hnodup hr]
    · simp [cloneAll, hr, count_eq_zero_of_not_mem hr]
  · rw [Pc.held, ← hbatch] at hr
    obtain ⟨e, he, rfl⟩ := mem_map.1 hr
    exact h.listed_entry (mem_after.1 (mem_of_mem_take he)).1

omit h [DecidableEq γ] in
theorem counted_init [Zero α] {d : Nat → α} : (init d : PageCacheManager γ α).Counted where
  strong p := by simp [init, entries]
  entry b p h := by simp [init] at h
  born a p h := by simp [init] at h
  publishing a b p fresh h := by simp [init] at h
  dropped a p k h := by simp [init] at h

/-- Every step keeps the counts. -/
theorem Counted.move [Zero α] {s' : PageCacheManager γ α} {cmd} (hm : Move s a cmd s') : s'.Counted := by
  cases hm with
  | start hpc hq => exact h.quiet rfl rfl rfl (fun _ => ⟨rfl, rfl⟩) (by rw [hq.held, hpc]; rfl) hq.plain
  | syncAll hpc | ownFrame hpc _ | letGo hpc | unmap hpc | forget hpc | insertId hpc | invalidateNone hpc _ | finish hpc _ =>
    exact h.quiet rfl rfl rfl (fun _ => ⟨rfl, rfl⟩) (by rw [hpc]; rfl) trivial
  | pass hq => exact h.quiet rfl rfl rfl (fun _ => ⟨rfl, rfl⟩) hq.held hq.plain
  | clone hq hb => exact h.clone hb hq.held hq.plain
  | callSync hpc =>
    rw [← goto_self (s := s.sync _) (a := a) (congrFun (sync_frame _).1 a)]
    exact h.sync (by rw [hpc]) (by rw [hpc]; trivial) _
  | sync hq => exact h.sync hq.held hq.plain _
  | create hpc => exact h.create hpc
  | @publish b p fresh hpc hb =>
    refine h.publish hpc hb ?_ ?_
    · cases fresh <;> rfl
    · cases fresh <;> trivial
  | duplicate hpc hb => exact h.duplicate hpc hb
  | clear hpc | map hpc | unmapped hpc | share hpc _ =>
    exact h.quiet rfl rfl rfl (setPage_counts rfl rfl) (by rw [hpc]; rfl) trivial
  | modify hpc =>
    rw [← goto_self (s := s.write _ _) (a := a) hpc]
    exact h.quiet rfl rfl rfl (setPage_counts rfl rfl) (by rw [hpc]) trivial
  | store hpc =>
    rw [← goto_self (s := s.store _ _) (a := a) hpc]
    exact h.quiet rfl rfl rfl (setPage_counts rfl rfl) (by rw [hpc]) trivial
  | drop hpc => exact h.drop hpc
  | remove hpc hb _ =>
    refine h.erase hb rfl rfl rfl ?_ ?_ (by rw [hpc]; rfl) trivial
    · simp [dropPage]
    · intro r hr
      simp [dropPage, hr]
  | invalidate hpc hb =>
    refine h.erase hb rfl rfl rfl ?_ ?_ (by rw [hpc]; rfl) trivial
    · simp
    · intro r hr
      simp [hr]
  | collect hpc _ => exact h.collect hpc rfl

end

end PageCacheManager

end ShellCore.Block
