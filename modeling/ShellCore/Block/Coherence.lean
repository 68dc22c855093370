import ShellCore.Block.CacheCounts
import ShellCore.Lib.Versions

/-!
# What the cache and the device hold

`Versions` keeps, outside the code, what the completed writes have made of each block. The page of a block
in the map holds the current contents; the device holds them if the page is clean or there is none. A page
that a caller has got is the one in the map until it is discarded.

Three steps break this, and `Timely` excludes them: an eviction that takes away a page which was written
after its write-back, a page that was loaded from the device before the block changed there, and the second
zeroing of a new page which has been written in between.
-/

namespace ShellCore.Block

open Versions

/-- The pages that the activity was given by the map. -/
def Pc.used : Pc → List Nat
  | clear p | hold p | evictSync _ p | evictFrame _ p | evictRemove _ p => [p]
  | backSync p k => p :: k.batch
  | release _ k | drop _ k | backId _ k | back _ k => k.batch
  | flush batch _ => batch
  | _ => []

def Pc.evicts : Pc → Option (Nat × Nat)
  | evictSync b p | evictFrame b p | evictRemove b p => some (b, p)
  | _ => none

variable {e : Nat × Nat} {k : Cont}

section

variable {x y : Pc} {b p r : Nat}

theorem Pc.held_of_used (h : p ∈ x.used) : p ∈ x.held := by
  cases x with
  | release => exact List.mem_cons_of_mem _ h
  | publish => cases h
  | _ => exact h

theorem Cont.used_pc : k.pc.used = k.batch := by
  cases k <;> rfl

theorem Cont.evicts_pc : k.pc.evicts = none := by
  cases k <;> rfl

theorem Passes.used (h : Passes x y) (hr : r ∈ y.held) : r ∈ x.used := by
  rw [h.held] at hr
  cases h <;> exact hr

theorem Syncs.used (h : Syncs p x y) (hr : r ∈ y.held) : r ∈ x.used := by
  rw [h.held] at hr
  cases h <;> exact hr

theorem Clones.used (h : Clones b p x y) (hr : r ∈ y.held) : r = p ∨ r ∈ x.used := by
  rw [h.held] at hr
  cases h <;> exact List.mem_cons.1 hr

theorem Passes.evicts (h : Passes x y) (he : y.evicts = some e) : x.evicts = some e := by
  cases h with
  | backNoId | backNone =>
    cases Cont.evicts_pc.symm.trans he
  | _ => cases he

theorem Syncs.evicts (h : Syncs p x y) (he : y.evicts = some e) : x.evicts = some e := by
  cases h with
  | drop =>
    cases Cont.evicts_pc.symm.trans he
  | evict => exact he
  | _ => cases he

theorem Clones.evicts (h : Clones b p x y) (he : y.evicts = some e) : e = (b, p) := by
  cases h with
  | evict => exact (Option.some.inj he).symm
  | _ => cases he

theorem Starts.evicts {γ α : Type} {cmd : Cmd γ α} (h : Starts cmd x) : x.evicts = none := by
  cases h <;> rfl

end

variable {b : Nat} {fresh : Bool}

namespace PageCacheManager

variable {γ α : Type}

/-- The map and the device against the contents of the blocks. -/
structure Values (s : PageCacheManager γ α) (v : Versions Nat α) : Prop where
  entry : ∀ b p, s.pageCacheMap.get? b = some p → (s.page p).discarded = false
  value : ∀ b p, s.pageCacheMap.get? b = some p → (s.page p).bytes = v.current b
  clean : ∀ b p, s.pageCacheMap.get? b = some p → (s.page p).dirty = false → s.dev b = v.current b
  absent : ∀ b, s.pageCacheMap.get? b = none → s.dev b = v.current b

/-- The pages of an activity. What has been taken out of the map by `try_evict` is clean, and so is what is
dropped, unless it is discarded. -/
structure PcOk [Zero α] (s : PageCacheManager γ α) (x : Pc) : Prop where
  used : ∀ p ∈ x.used, (s.page p).discarded = false → s.Listed p
  publishing : ∀ b p fresh, x = .publish b p fresh →
    (s.page p).discarded = false ∧ (fresh = true → (s.page p).bytes = 0 ∧ (s.page p).dirty = true)
  released : ∀ p k, x = .release p k → (s.page p).discarded = false →
    s.Listed p ∨ (s.page p).strong = 1 ∧ (s.page p).dirty = false
  dropped : ∀ p k, x = .drop p k → (s.page p).discarded = true ∨ (s.page p).dirty = false
  evicting : ∀ b p, x.evicts = some (b, p) → (s.page p).blockId = b

structure Coherent [Zero α] (s : PageCacheManager γ α) (v : Versions Nat α) : Prop where
  values : s.Values v
  ok : ∀ a, s.PcOk (s.pc a)

/-- A step of `a`, up to its place in the call: it touches only pages that are in the map or that `a` holds.
A page that it takes out of the map is discarded or out of reach of the others. -/
structure Within (s : PageCacheManager γ α) (a : γ) (s₁ : PageCacheManager γ α) : Prop where
  pc : s₁.pc = s.pc
  block : ∀ p, p < s.next → (s₁.page p).blockId = (s.page p).blockId
  page : ∀ p, p < s.next → ¬s.Listed p → p ∉ (s.pc a).held →
    (s₁.page p).strong = (s.page p).strong ∧ (s₁.page p).dirty = (s.page p).dirty ∧
      (s₁.page p).discarded = (s.page p).discarded ∧
      ((s.page p).discarded = false → (s₁.page p).bytes = (s.page p).bytes)
  discarded : ∀ p, p < s.next → (s.page p).discarded = true → (s₁.page p).discarded = true
  listed : ∀ p, s.Listed p → s₁.Listed p ∨ (s₁.page p).discarded = true ∨ ∀ c, c ≠ a → p ∉ (s.pc c).held

section

variable {s s₁ : PageCacheManager γ α} {v v₁ : Versions Nat α} {a c : γ} {p : Nat} {x q : Pc}

/-- Two states of a page that differ at most in its counts. -/
structure Alike (x y : PageCache α) : Prop where
  block : y.blockId = x.blockId
  discarded : y.discarded = x.discarded
  bytes : y.bytes = x.bytes
  dirty : y.dirty = x.dirty

theorem alike_setPage {y} (hy : Alike (s.page p) y) (r : Nat) : Alike (s.page r) ((s.setPage p y).page r) :=
  ⟨setPage_field (·.blockId) hy.block r, setPage_field (·.discarded) hy.discarded r, setPage_field (·.bytes) hy.bytes r,
    setPage_field (·.dirty) hy.dirty r⟩

theorem listed_congr {r} (hb : (s₁.page r).blockId = (s.page r).blockId) (hmap : s₁.pageCacheMap = s.pageCacheMap) :
    s₁.Listed r ↔ s.Listed r := by
  unfold Listed
  rw [hmap, hb]

theorem Values.same (h : s.Values v) (hmap : s₁.pageCacheMap = s.pageCacheMap) (hdev : s₁.dev = s.dev)
    (hpage : ∀ b p, s.pageCacheMap.get? b = some p → (s₁.page p).discarded = (s.page p).discarded ∧
      (s₁.page p).bytes = (s.page p).bytes ∧ ((s₁.page p).dirty = false → (s.page p).dirty = false)) : s₁.Values v := by
  constructor <;> rw [hmap]
  · intro b p hb
    exact (hpage b p hb).1.trans (h.entry b p hb)
  · intro b p hb
    exact (hpage b p hb).2.1.trans (h.value b p hb)
  · intro b p hb hd
    rw [hdev]
    exact h.clean b p hb ((hpage b p hb).2.2 hd)
  · rw [hdev]
    exact h.absent

/-- A step that changes what there is of one block. -/
theorem Values.change (h : s.Values v) (hmap : ∀ c, c ≠ b → s₁.pageCacheMap.get? c = s.pageCacheMap.get? c)
    (hdev : ∀ c, c ≠ b → s₁.dev c = s.dev c) (hv : ∀ c, c ≠ b → v₁.current c = v.current c)
    (hpage : ∀ c r, c ≠ b → s.pageCacheMap.get? c = some r → Alike (s.page r) (s₁.page r))
    (hsome : ∀ p, s₁.pageCacheMap.get? b = some p → (s₁.page p).discarded = false ∧ (s₁.page p).bytes = v₁.current b ∧
      ((s₁.page p).dirty = false → s₁.dev b = v₁.current b))
    (hnone : s₁.pageCacheMap.get? b = none → s₁.dev b = v₁.current b) : s₁.Values v₁ where
  entry c r hr := by
    by_cases hc : c = b
    · exact (hsome r (hc ▸ hr)).1
    · rw [hmap c hc] at hr
      exact (hpage c r hc hr).discarded.trans (h.entry c r hr)
  value c r hr := by
    by_cases hc : c = b
    · exact hc ▸ (hsome r (hc ▸ hr)).2.1
    · rw [hmap c hc] at hr
      rw [hv c hc, (hpage c r hc hr).bytes, h.value c r hr]
  clean c r hr hd := by
    by_cases hc : c = b
    · exact hc ▸ (hsome r (hc ▸ hr)).2.2 hd
    · rw [hmap c hc] at hr
      rw [hv c hc, hdev c hc]
      exact h.clean c r hr ((hpage c r hc hr).dirty ▸ hd)
  absent c hr := by
    by_cases hc : c = b
    · exact hc ▸ hnone (hc ▸ hr)
    · rw [hmap c hc] at hr
      rw [hv c hc, hdev c hc]
      exact h.absent c hr

variable [Zero α]

theorem PcOk.goto [DecidableEq γ] (h : s.PcOk x) : (s.goto a q).PcOk x :=
  ⟨h.used, h.publishing, h.released, h.dropped, h.evicting⟩

/-- An activity that holds only pages of the map and discarded ones. -/
theorem pcOk_of_held (hq : q.Plain) (hheld : ∀ p ∈ q.held, (s.page p).discarded = false → s.Listed p)
    (hev : ∀ b p, q.evicts = some (b, p) → (s.page p).blockId = b) : s.PcOk q where
  used p hp := hheld p (Pc.held_of_used hp)
  publishing b p fresh heq := by
    subst heq
    exact hq.elim
  released p k heq hd := by
    subst heq
    exact .inl (hheld p List.mem_cons_self hd)
  dropped p k heq := by
    subst heq
    exact hq.elim
  evicting := hev

theorem pcOk_of_nil (hq : q.Plain) (hheld : q.held = []) (hev : q.evicts = none) : s.PcOk q := by
  refine pcOk_of_held hq ?_ ?_
  · intro p hp
    rw [hheld] at hp
    cases hp
  · intro b p he
    cases hev.symm.trans he

omit [Zero α] in
theorem Within.not_discarded (hw : s.Within a s₁) (hp : p < s.next) (hd : (s₁.page p).discarded = false) :
    (s.page p).discarded = false := by
  by_contra hne
  rw [hw.discarded p hp (by simpa using hne)] at hd
  cases hd

variable [DecidableEq γ] [Fintype γ]

attribute [simp] Pc.held Pc.used

/-- The activities that do not take the step. -/
theorem PcOk.within (h : s.PcOk (s.pc c)) (hc : s.Counted) (hw : s.Within a s₁) (hca : c ≠ a) : s₁.PcOk (s.pc c) where
  used p hp hd := by
    have hheld := Pc.held_of_used hp
    have hd' := hw.not_discarded (hc.born c p hheld) hd
    rcases hw.listed p (h.used p hp hd') with hl | hd₁ | hnot
    · exact hl
    · cases hd.symm.trans hd₁
    · exact absurd hheld (hnot c hca)
  publishing b p fresh heq := by
    have hheld : p ∈ (s.pc c).held := by simp [heq]
    obtain ⟨-, hone, -, hl, hothers⟩ := hc.unpublished heq
    obtain ⟨-, hdirty, hdisc, hbytes⟩ := hw.page p (hc.born c p hheld) hl (hothers a hca.symm)
    obtain ⟨hd, hfresh⟩ := h.publishing b p fresh heq
    rw [hdirty, hdisc, hbytes hd]
    exact ⟨hd, hfresh⟩
  released p k heq hd := by
    have hheld : p ∈ (s.pc c).held := by simp [heq]
    have hlt := hc.born c p hheld
    have hd' := hw.not_discarded hlt hd
    rcases h.released p k heq hd' with hl | ⟨hone, hclean⟩
    · rcases hw.listed p hl with hl₁ | hd₁ | hnot
      · exact .inl hl₁
      · cases hd.symm.trans hd₁
      · exact absurd hheld (hnot c hca)
    · obtain ⟨hl, hothers⟩ := hc.alone hone hheld
      obtain ⟨hstrong, hdirty, -⟩ := hw.page p hlt hl (hothers a hca.symm)
      exact .inr ⟨hstrong.trans hone, hdirty.trans hclean⟩
  dropped p k heq := by
    obtain ⟨hlt, hzero⟩ := hc.dropped c p k heq
    obtain ⟨hl, hheld⟩ := hc.unreachable hzero
    obtain ⟨-, hdirty, hdisc, -⟩ := hw.page p hlt hl (hheld a)
    rw [hdirty, hdisc]
    exact h.dropped p k heq
  evicting b p he := by
    have hheld : p ∈ (s.pc c).held := by
      cases hx : s.pc c <;> rw [hx] at he <;> simp_all [Pc.evicts]
    rw [hw.block p (hc.born c p hheld)]
    exact h.evicting b p he

theorem Coherent.step (h : s.Coherent v) (hc : s.Counted) (hw : s.Within a s₁) (hv : s₁.Values v₁) (hq : s₁.PcOk q) :
    (s₁.goto a q).Coherent v₁ where
  values := ⟨hv.entry, hv.value, hv.clean, hv.absent⟩
  ok c := by
    by_cases hca : c = a
    · subst hca
      rw [goto_pc_self]
      exact hq.goto
    · rw [goto_pc_of_ne hca, hw.pc]
      exact ((h.ok c).within hc hw hca).goto

end

/-! ## The conditions -/

/-- The conditions on the state in which `a` takes a step. -/
structure Timely [Zero α] (s : PageCacheManager γ α) (a : γ) : Prop where
  /-- What `try_evict` takes out of the map has not been written since it was synced. -/
  evict : ∀ b p, s.pc a = .evictRemove b p → s.pageCacheMap.get? b = some p → (s.page p).strong = 2 →
    (s.page p).dirty = false
  /-- What is entered in the map is still what the device has. -/
  load : ∀ b p, s.pc a = .publish b p false → s.pageCacheMap.get? b = none → (s.page p).bytes = s.dev b
  /-- What `get_new_page_cache` zeroes again has not been written. -/
  clear : ∀ p, s.pc a = .clear p → (s.page p).discarded = false → (s.page p).bytes = 0

/-- Whether the next step of `a` is timely. -/
def timely [Zero α] [DecidableEq α] (s : PageCacheManager γ α) (a : γ) : Bool :=
  match s.pc a with
  | .evictRemove b p => !(s.pageCacheMap.get? b = some p ∧ (s.page p).strong = 2) || !(s.page p).dirty
  | .publish b p false => (s.pageCacheMap.get? b).isSome || (s.page p).bytes = s.dev b
  | .clear p => (s.page p).discarded || (s.page p).bytes = 0
  | _ => true

theorem timely_of_timely [Zero α] [DecidableEq α] {s : PageCacheManager γ α} {a} (h : s.timely a = true) :
    s.Timely a where
  evict b p hpc hb htwo := by
    rw [timely, hpc] at h
    simpa [hb, htwo] using h
  load b p hpc hb := by
    rw [timely, hpc] at h
    simpa [hb] using h
  clear p hpc hd := by
    rw [timely, hpc] at h
    simpa [hd] using h

/-- A store of `a` meets a page that is in the map and marked dirty, or a discarded one. -/
def StoreDirty (s : PageCacheManager γ α) (a : γ) (cmd : Cmd γ α) : Prop :=
  ∀ p key f, s.pc a = .mapped p key → cmd = .store f → (s.page p).discarded = false →
    s.Listed p ∧ (s.page p).dirty = true

/-- A write to a discarded page is none to the block. -/
def written (s : PageCacheManager γ α) (p : Nat) (f : α → α) (v : Versions Nat α) : Versions Nat α :=
  if (s.page p).discarded then v else v.write (s.page p).blockId (f (v.current (s.page p).blockId))

/-- The contents of the blocks after a step. A block whose page is discarded has from then on what the device has. -/
def note [DecidableEq γ] [Zero α] (s : PageCacheManager γ α) (a : γ) (cmd : Cmd γ α) (v : Versions Nat α) : Versions Nat α :=
  match s.pc a, cmd with
  | .hold p, .modify f => s.written p f v
  | .mapped p _, .store f => s.written p f v
  | .publish b _ true, .next => if (s.pageCacheMap.get? b).isNone then v.write b 0 else v
  | .idle, .invalidateBlock b => v.write b (s.dev b)
  | _, _ => v

section

variable [Zero α] [DecidableEq γ] {s s₁ s' : PageCacheManager γ α} {v v₁ : Versions Nat α} {a : γ} {p : Nat} {x q : Pc} {cmd : Cmd γ α}

omit [Zero α] [DecidableEq γ] in
theorem extends_written {f : α → α} : Extends v (s.written p f v) := by
  unfold written
  split
  · exact .refl
  · exact extends_write

theorem extends_note : Extends v (s.note a cmd v) := by
  unfold note
  split
  · exact extends_written
  · exact extends_written
  · split
    · exact extends_write
    · exact .refl
  · exact extends_write
  · exact .refl

theorem note_next (h : ∀ b p, s.pc a ≠ .publish b p true) : s.note a .next v = v := by
  unfold note
  cases hpc : s.pc a with
  | publish b p fresh =>
    cases fresh with
    | true => exact absurd hpc (h b p)
    | false => rfl
  | _ => rfl

section

omit [Zero α] [DecidableEq γ]

theorem listed_setPage {y} (hb : y.blockId = (s.page p).blockId) {r} :
    (s.setPage p y).Listed r ↔ s.Listed r :=
  listed_congr (setPage_field (·.blockId) hb r) rfl

/-- The changes of one page that the activity holds, or that is in the map, or that is discarded and stays as it is. -/
theorem within_setPage {y} (hp : p < s.next → s.Listed p ∨ p ∈ (s.pc a).held ∨ (s.page p).discarded = true ∧
      y.strong = (s.page p).strong ∧ y.dirty = (s.page p).dirty) (hb : y.blockId = (s.page p).blockId)
    (hd : (s.page p).discarded = true → y.discarded = true) : s.Within a (s.setPage p y) where
  pc := rfl
  block r _ := setPage_field (·.blockId) hb r
  page r hlt hl hheld := by
    by_cases hr : r = p
    · subst hr
      rcases hp hlt with h | h | ⟨hd', hs, hdirty⟩
      · exact absurd h hl
      · exact absurd h hheld
      · simp [hs, hdirty, hd', hd hd']
    · simp [hr]
  discarded r _ hr := by
    by_cases hrp : r = p
    · subst hrp
      simpa using hd hr
    · simpa [hrp] using hr
  listed _ hl := .inl ((listed_setPage hb).2 hl)

theorem within_self : s.Within a s where
  pc := rfl
  block _ _ := rfl
  page _ _ _ _ := ⟨rfl, rfl, rfl, fun _ => rfl⟩
  discarded _ _ := id
  listed _ := .inl

end

variable [Fintype γ]

/-! ## The steps -/

variable (h : s.Coherent v) (hc : s.Counted)

include h hc

/-- A step that changes only the place of the activity, or the index. -/
theorem Coherent.goto (hq : s.PcOk q) : (s.goto a q).Coherent v :=
  h.step hc within_self h.values hq

/-- A step that changes the counts of pages that are in the map or that the activity holds, and the counts of frames. -/
theorem Coherent.recount (hpc : s₁.pc = s.pc) (hmap : s₁.pageCacheMap = s.pageCacheMap)
    (hdev : s₁.dev = s.dev) (hpage : ∀ r, Alike (s.page r) (s₁.page r))
    (hstrong : ∀ r, ¬s.Listed r → r ∉ (s.pc a).held → (s₁.page r).strong = (s.page r).strong) (hq : s₁.PcOk q) :
    (s₁.goto a q).Coherent v :=
  h.step hc ⟨hpc, fun r _ => (hpage r).block,
    fun r _ hl hr => ⟨hstrong r hl hr, (hpage r).dirty, (hpage r).discarded, fun _ => (hpage r).bytes⟩,
    fun r _ hr => (hpage r).discarded.trans hr, fun r hr => .inl ((listed_congr (hpage r).block hmap).2 hr)⟩
    (h.values.same hmap hdev fun _ r _ => ⟨(hpage r).discarded, (hpage r).bytes, fun hd => (hpage r).dirty ▸ hd⟩) hq

omit hc

omit h [DecidableEq γ] [Fintype γ] in
/-- The pages that an activity was given, after a step that keeps the map. -/
theorem PcOk.kept (hx : s.PcOk x) (hmap : s₁.pageCacheMap = s.pageCacheMap)
    (hpage : ∀ r, (s₁.page r).blockId = (s.page r).blockId ∧ (s₁.page r).discarded = (s.page r).discarded) (hq : q.Plain)
    (hheld : ∀ r ∈ q.held, r ∈ x.used ∨ s.Listed r) (hev : ∀ b r, q.evicts = some (b, r) → (s.page r).blockId = b) :
    s₁.PcOk q := by
  refine pcOk_of_held hq (fun r hr hdr => ?_) fun b r he => (hpage r).1.trans (hev b r he)
  rw [listed_congr (hpage r).1 hmap]
  exact (hheld r hr).elim (fun hu => hx.used r hu ((hpage r).2 ▸ hdr)) id

omit h [DecidableEq γ] [Fintype γ] in
theorem pcOk_setPage {y} (hx : s.PcOk x) (hb : y.blockId = (s.page p).blockId)
    (hd : y.discarded = (s.page p).discarded) (hq : q.Plain) (hheld : ∀ r ∈ q.held, r ∈ x.used ∨ s.Listed r)
    (hev : ∀ b r, q.evicts = some (b, r) → (s.page r).blockId = b) : (s.setPage p y).PcOk q :=
  hx.kept rfl (fun r => ⟨setPage_field (·.blockId) hb r, setPage_field (·.discarded) hd r⟩) hq hheld hev

theorem Coherent.clone (hc : s.Counted) (hb : s.pageCacheMap.get? b = some p)
    (hq : Clones b p (s.pc a) q) : ((s.clonePage p).goto a q).Coherent v := by
  have hl := hc.listed_entry hb
  refine h.recount hc rfl rfl rfl (alike_setPage ⟨rfl, rfl, rfl, rfl⟩) (fun r hr _ => ?_)
    (pcOk_setPage (h.ok a) rfl rfl hq.plain (fun r hr => ?_) fun b' r he => ?_)
  · exact congrArg _ (setPage_page_of_ne fun hrp => hr (hrp ▸ hl))
  · rcases hq.used hr with rfl | hu
    · exact .inr hl
    · exact .inl hu
  · obtain ⟨rfl, rfl⟩ := Prod.mk.inj (hq.evicts he)
    exact (hc.entry b' r hb).1

omit h

omit [Zero α] [DecidableEq γ] in
/-- Writing back a page that is in the map, or that need not be written. -/
theorem Values.sync (h : s.Values v) (hc : s.Counted) (hp : (s.page p).discarded = false → s.Listed p ∨ (s.page p).dirty = false) :
    (s.sync p).Values v := by
  unfold PageCacheManager.sync
  split
  · exact h
  · rename_i hcond
    obtain ⟨hd, hdirty⟩ : (s.page p).discarded = false ∧ (s.page p).dirty = true := by simpa using hcond
    have hl : s.Listed p := (hp hd).resolve_right (by simp [hdirty])
    refine h.change (b := (s.page p).blockId) (fun _ _ => rfl) (fun c hcb => ?_) (fun _ _ => rfl) (fun c r hcb hr => ?_)
      (fun r hr => ?_) fun hnone => ?_
    · rw [setDev_dev, if_neg hcb]
      rfl
    · have hrp : r ≠ p := by
        rintro rfl
        exact hcb (hc.entry c r hr).1.symm
      simpa [hrp] using ⟨rfl, rfl, rfl, rfl⟩
    · obtain rfl : p = r := Option.some.inj (hl.symm.trans hr)
      have hval := h.value _ p hl
      simp [setDev_dev, hd, hval]
    · exact absurd (hl.symm.trans hnone) (by simp)

omit [DecidableEq γ] [Fintype γ] [Zero α] in
theorem sync_page (r : Nat) : ((s.sync p).page r).discarded = (s.page r).discarded ∧
    ((s.sync p).page r).bytes = (s.page r).bytes ∧ ((s.sync p).Listed r ↔ s.Listed r) ∧
    ((s.page r).dirty = false → ((s.sync p).page r).dirty = false) := by
  unfold PageCacheManager.sync
  split
  · exact ⟨rfl, rfl, Iff.rfl, id⟩
  · refine ⟨setPage_field (·.discarded) ?_ r, setPage_field (·.bytes) ?_ r, listed_setPage ?_, ?_⟩
    iterate 3 rfl
    intro hr
    simp only [setDev_page, setPage_page]
    split
    · rfl
    · exact hr

omit [Zero α] [DecidableEq γ] [Fintype γ] in
theorem within_sync (hp : p < s.next → (s.page p).discarded = false → s.Listed p ∨ p ∈ (s.pc a).held ∨ (s.page p).dirty = false) :
    s.Within a (s.sync p) where
  pc := (sync_frame p).1
  block r _ := (sync_counts p r).2
  page r hlt hl hheld := by
    obtain ⟨hd, hb, -, -⟩ := @sync_page _ _ s p r
    refine ⟨(sync_counts p r).1, ?_, hd, fun _ => hb⟩
    unfold PageCacheManager.sync
    split
    · rfl
    · rename_i hcond
      obtain ⟨hd', hdirty⟩ : (s.page p).discarded = false ∧ (s.page p).dirty = true := by simpa using hcond
      by_cases hr : r = p
      · subst hr
        rcases hp hlt hd' with h | h | h
        · exact absurd h hl
        · exact absurd h hheld
        · cases hdirty.symm.trans h
      · simp [hr]
  discarded r _ hr := (sync_page r).1.trans hr
  listed r hl := .inl ((sync_page r).2.2.1.2 hl)

include h hc

theorem Coherent.sync (hq : Syncs p (s.pc a) q) : ((s.sync p).goto a q).Coherent v := by
  have hp : (s.page p).discarded = false → s.Listed p ∨ (s.page p).dirty = false := by
    intro hd
    generalize hx : s.pc a = x at hq
    have hok := h.ok a
    rw [hx] at hok
    cases hq with
    | back | flush => exact .inl (hok.used p List.mem_cons_self hd)
    | evict => exact .inl (hok.used p (List.mem_singleton_self p) hd)
    | drop =>
      rcases hok.dropped p _ rfl with hd' | hclean
      · cases hd.symm.trans hd'
      · exact .inr hclean
  refine h.step hc (within_sync fun _ hd => (hp hd).imp_right .inr) (h.values.sync hc hp) (pcOk_of_held hq.plain ?_ ?_)
  · intro r hr hd
    obtain ⟨hd', -, hl, -⟩ := @sync_page _ _ s p r
    exact hl.2 ((h.ok a).used r (hq.used hr) (hd' ▸ hd))
  · intro b r he
    rw [(sync_counts p r).2]
    exact (h.ok a).evicting b r (hq.evicts he)

theorem Coherent.callSync (hpc : s.pc a = .hold p) : (s.sync p).Coherent v := by
  have hu : p ∈ (s.pc a).used := by simp [hpc]
  have hstep : ((s.sync p).goto a (.hold p)).Coherent v := by
    refine h.step hc (within_sync fun _ hd => .inl ((h.ok a).used p hu hd))
      (h.values.sync hc fun hd => .inl ((h.ok a).used p hu hd)) (pcOk_of_held trivial ?_ (by simp [Pc.evicts]))
    intro r hr hd
    obtain rfl := List.mem_singleton.1 hr
    obtain ⟨hd', -, hl, -⟩ := @sync_page _ _ s r r
    exact hl.2 ((h.ok a).used r hu (hd' ▸ hd))
  rwa [goto_self ((congrFun (sync_frame p).1 a).trans hpc)] at hstep

theorem Coherent.create : (s.create a b fresh).Coherent v := by
  have hne : ∀ r, r < s.next → r ≠ s.next := fun r hr => by omega
  unfold PageCacheManager.create
  generalize hy : s.newLoading b fresh = y
  have hpage : ∀ r, r < s.next → (s.setPage s.next y).page r = s.page r := fun r hr => setPage_page_of_ne (hne r hr)
  have hfields : ∀ r, r < s.next → Alike (s.page r) ((s.setPage s.next y).page r) ∧
      ((s.setPage s.next y).page r).strong = (s.page r).strong := by
    intro r hr
    rw [hpage r hr]
    exact ⟨⟨rfl, rfl, rfl, rfl⟩, rfl⟩
  refine h.step hc ⟨rfl, fun r hr => (hfields r hr).1.block, fun r hr _ _ => ?_, fun r hr hd => ?_, fun r hl => .inl ?_⟩
    (h.values.same rfl rfl fun c r hr => ?_) ⟨by simp, ?_, by simp, by simp, by simp [Pc.evicts]⟩
  · obtain ⟨hf, hstrong⟩ := hfields r hr
    exact ⟨hstrong, hf.dirty, hf.discarded, fun _ => hf.bytes⟩
  · exact (hfields r hr).1.discarded.trans hd
  · exact (listed_congr (hfields r (hc.entry _ r hl).2).1.block rfl).2 hl
  · obtain ⟨hf, -⟩ := hfields r (hc.entry c r hr).2
    exact ⟨hf.discarded, hf.bytes, fun hd => hf.dirty.symm.trans hd⟩
  · rintro c r fresh' heq
    obtain ⟨-, rfl, rfl⟩ := Pc.publish.inj heq
    show ((s.setPage s.next y).page s.next).discarded = false ∧
      (fresh = true → ((s.setPage s.next y).page s.next).bytes = 0 ∧ ((s.setPage s.next y).page s.next).dirty = true)
    rw [setPage_page_self, ← hy]
    simp +contextual [newLoading]

theorem Coherent.publish (hpc : s.pc a = .publish b p fresh) (hb : s.pageCacheMap.get? b = none) (ht : s.Timely a) :
    (((s.clonePage p).setMap (s.pageCacheMap.insert b p)).goto a (if fresh then .clear p else .hold p)).Coherent
      (s.note a .next v) := by
  obtain ⟨hblock, hone, hmem, hl, -⟩ := hc.unpublished hpc
  obtain ⟨hd, hfresh⟩ := (h.ok a).publishing b p fresh hpc
  have hpage : ∀ r, Alike (s.page r) ((s.clonePage p).page r) := alike_setPage ⟨rfl, rfl, rfl, rfl⟩
  -- the contents are those of the new page, whether they are old or zeroed
  have hv : (s.note a .next v).current b = (s.page p).bytes ∧ (∀ c, c ≠ b → (s.note a .next v).current c = v.current c) ∧
      ((s.page p).dirty = false → s.dev b = (s.note a .next v).current b) := by
    cases fresh with
    | true =>
      have hn : s.note a .next v = v.write b 0 := by simp [note, hpc, hb]
      obtain ⟨hbytes, hdirty⟩ := hfresh rfl
      rw [hn]
      refine ⟨by simp [hbytes], fun c hcb => by simp [hcb], fun hclean => ?_⟩
      cases hdirty.symm.trans hclean
    | false =>
      have hn : s.note a .next v = v := by simp [note, hpc]
      have hload := ht.load b p hpc hb
      rw [hn, hload, h.values.absent b hb]
      exact ⟨rfl, fun _ _ => rfl, fun _ => rfl⟩
  have hlisted : ((s.clonePage p).setMap (s.pageCacheMap.insert b p)).Listed p := by
    unfold Listed
    rw [setMap_map, setMap_page, (hpage p).block, hblock, OrdMap.get?_insert_self]
  refine h.step hc ⟨rfl, fun r _ => (hpage r).block, fun r _ _ hheld => ?_, fun r _ hr => (hpage r).discarded.trans hr,
    fun r hr => .inl ?_⟩ (h.values.change (b := b) (fun c hcb => OrdMap.get?_insert_of_ne hcb) (fun _ _ => rfl) hv.2.1
      (fun _ r _ _ => hpage r) (fun r hr => ?_) fun hr => ?_) ?_
  · have hr : r ≠ p := by
      rintro rfl
      exact hheld hmem
    simp [clonePage, hr]
  · have hne : (s.page r).blockId ≠ b := by
      intro heq
      have hr' : s.pageCacheMap.get? (s.page r).blockId = some r := hr
      rw [heq, hb] at hr'
      cases hr'
    show (s.pageCacheMap.insert b p).get? ((s.clonePage p).page r).blockId = some r
    rw [(hpage r).block, OrdMap.get?_insert_of_ne hne]
    exact hr
  · rw [setMap_map, OrdMap.get?_insert_self] at hr
    cases hr
    rw [setMap_page, (hpage p).discarded, (hpage p).bytes, (hpage p).dirty]
    exact ⟨hd, hv.1.symm, hv.2.2⟩
  · rw [setMap_map, OrdMap.get?_insert_self] at hr
    cases hr
  · cases fresh with
    | true | false => exact pcOk_of_held trivial (fun r hr _ => List.mem_singleton.1 hr ▸ hlisted) (by simp [Pc.evicts])

theorem Coherent.duplicate {b r} (hpc : s.pc a = .publish b p fresh) (hb : s.pageCacheMap.get? b = some r) :
    (((s.discardPage p).clonePage r).goto a (.hold r)).Coherent v := by
  obtain ⟨-, -, hmem, hl, -⟩ := hc.unpublished hpc
  have hlr := hc.listed_entry hb
  unfold discardPage
  generalize hy : ({ s.page p with discarded := true, strong := (s.page p).strong - 1 } : PageCache α) = y
  have hblock : y.blockId = (s.page p).blockId := by rw [← hy]
  have hw : s.Within a (s.setPage p y) := within_setPage (fun _ => .inr (.inl hmem)) hblock fun _ => by rw [← hy]
  have hvals : (s.setPage p y).Values v := by
    refine h.values.same rfl rfl fun c t ht => ?_
    rw [setPage_page_of_ne (by rintro rfl; exact hl (hc.listed_entry ht))]
    exact ⟨rfl, rfl, id⟩
  have hlr' : (s.setPage p y).Listed r := (listed_setPage hblock).2 hlr
  -- the page of the map gets one more reference
  have halike : ∀ t, Alike ((s.setPage p y).page t) (((s.setPage p y).clonePage r).page t) := alike_setPage ⟨rfl, rfl, rfl, rfl⟩
  refine h.step hc ⟨rfl, fun t ht => ?_, fun t ht htl hheld => ?_, fun t ht hd => ?_, fun t ht => .inl ?_⟩
    (hvals.same rfl rfl fun c t _ => ⟨(halike t).discarded, (halike t).bytes, fun hd => (halike t).dirty ▸ hd⟩)
    (pcOk_of_held trivial (fun t ht _ => ?_) (by simp [Pc.evicts]))
  · exact (halike t).block.trans (hw.block t ht)
  · have htr : t ≠ r := by
      rintro rfl
      exact htl hlr
    rw [show ((s.setPage p y).clonePage r).page t = (s.setPage p y).page t from setPage_page_of_ne htr]
    exact hw.page t ht htl hheld
  · exact (halike t).discarded.trans (hw.discarded t ht hd)
  · exact (listed_congr (halike t).block rfl).2 ((listed_setPage hblock).2 ht)
  · obtain rfl := List.mem_singleton.1 ht
    exact (listed_congr (halike t).block rfl).2 hlr'

/-- A write to a page that the activity uses, or a store to its frame. -/
theorem Coherent.write {y} {f : α → α}
    (hp : p < s.next → s.Listed p ∨ p ∈ (s.pc a).held ∨ ((s.page p).discarded = true ∧ y.strong = (s.page p).strong ∧
      y.dirty = (s.page p).dirty))
    (hu : (s.page p).discarded = false → s.Listed p) (hb : y.blockId = (s.page p).blockId)
    (hd : y.discarded = (s.page p).discarded) (hbytes : y.bytes = f (s.page p).bytes)
    (hdirty : (s.page p).discarded = false → y.dirty = true) (hq : (s.setPage p y).PcOk q) :
    ((s.setPage p y).goto a q).Coherent (s.written p f v) := by
  unfold written
  cases hdp : (s.page p).discarded with
  | true =>
    have hl : ¬s.Listed p := by
      intro hl
      have := h.values.entry _ p hl
      cases hdp.symm.trans this
    refine h.step hc (within_setPage hp hb fun h' => hd.trans h') (h.values.same rfl rfl fun c r hr => ?_) hq
    have hrp : r ≠ p := by
      rintro rfl
      exact hl (hc.listed_entry hr)
    simp [hrp]
  | false =>
    have hl := hu hdp
    have hval := h.values.value _ p hl
    refine h.step hc (within_setPage hp hb fun h' => hd.trans h') (h.values.change (b := (s.page p).blockId) (fun _ _ => rfl)
      (fun _ _ => rfl) (fun c hcb => by simp [hcb]) (fun c r hcb hr => ?_) (fun r hr => ?_) fun hnone => ?_) hq
    · have hrp : r ≠ p := by
        rintro rfl
        exact hcb (hc.entry c r hr).1.symm
      simpa [hrp] using ⟨rfl, rfl, rfl, rfl⟩
    · obtain rfl : p = r := Option.some.inj (hl.symm.trans hr)
      simp [hd, hdp, hbytes, hval, hdirty hdp]
    · exact absurd (hl.symm.trans hnone) (by simp)

theorem Coherent.modify {f : α → α} (hpc : s.pc a = .hold p) : (s.write p f).Coherent (s.note a (.modify f) v) := by
  have hu : p ∈ (s.pc a).used := by simp [hpc]
  have hn : s.note a (.modify f) v = s.written p f v := by simp [note, hpc]
  have hstep : ((s.write p f).goto a (.hold p)).Coherent (s.note a (.modify f) v) := by
    rw [hn]
    refine h.write hc (fun _ => .inr (.inl (Pc.held_of_used hu))) ((h.ok a).used p hu) rfl rfl rfl (fun _ => rfl) ?_
    refine pcOk_setPage (h.ok a) rfl rfl trivial (fun r hr => .inl ?_) (by simp [Pc.evicts])
    exact List.mem_singleton.1 hr ▸ hu
  rwa [goto_self (s := s.write p f) hpc] at hstep

theorem Coherent.clear (hpc : s.pc a = .clear p) (ht : s.Timely a) :
    ((s.write p fun _ => 0).goto a (.hold p)).Coherent v := by
  have hu : p ∈ (s.pc a).used := by simp [hpc]
  refine h.step hc (within_setPage (fun _ => .inr (.inl (Pc.held_of_used hu))) rfl id) (h.values.same rfl rfl fun b r hr => ?_) ?_
  · by_cases hrp : r = p
    · subst hrp
      simp [PageCacheManager.write, ht.clear r hpc (h.values.entry b r hr)]
    · simp [PageCacheManager.write, hrp]
  · refine pcOk_setPage (h.ok a) rfl rfl trivial (fun r hr => .inl ?_) (by simp [Pc.evicts])
    exact List.mem_singleton.1 hr ▸ hu

theorem Coherent.store {key} {f : α → α} (hpc : s.pc a = .mapped p key)
    (hs : s.StoreDirty a (.store f)) : (s.store p f).Coherent (s.note a (.store f) v) := by
  have hn : s.note a (.store f) v = s.written p f v := by simp [note, hpc]
  have hd := hs p key f hpc rfl
  have hstep : ((s.store p f).goto a (.mapped p key)).Coherent (s.note a (.store f) v) := by
    rw [hn]
    refine h.write hc (fun _ => ?_) (fun hd' => (hd hd').1) rfl rfl rfl (fun hd' => (hd hd').2)
      (pcOk_of_nil trivial rfl rfl)
    by_cases hdp : (s.page p).discarded = false
    · exact .inl (hd hdp).1
    · exact .inr (.inr ⟨by simpa using hdp, rfl, rfl⟩)
  rwa [goto_self (s := s.store p f) hpc] at hstep

theorem Coherent.drop (hpc : s.pc a = .release p k) :
    ((s.dropPage p).goto a (if (s.page p).strong = 1 then .drop p k else k.pc)).Coherent v := by
  have hmem : p ∈ (s.pc a).held := by simp [hpc]
  have hbatch : ∀ r ∈ k.batch, r ∈ (s.pc a).used := by
    rw [hpc]
    exact fun r hr => hr
  have hpage : ∀ r, Alike (s.page r) ((s.dropPage p).page r) := alike_setPage ⟨rfl, rfl, rfl, rfl⟩
  refine h.recount hc rfl rfl rfl hpage (fun r _ hr => congrArg _ (setPage_page_of_ne fun hrp => hr (hrp ▸ hmem))) ?_
  split
  next hone =>
    refine ⟨fun r hr hd => ?_, by simp, by simp, ?_, by simp [Pc.evicts]⟩
    · exact (listed_congr (hpage r).block rfl).2 ((h.ok a).used r (hbatch r hr) ((hpage r).discarded ▸ hd))
    · rintro r k' heq
      obtain ⟨rfl, rfl⟩ := Pc.drop.inj heq
      rw [(hpage p).discarded, (hpage p).dirty]
      by_cases hd : (s.page p).discarded = true
      · exact .inl hd
      · rcases (h.ok a).released p k hpc (by simpa using hd) with hl | ⟨-, hclean⟩
        · exact absurd hl (hc.alone hone hmem).1
        · exact .inr hclean
  · refine pcOk_setPage (h.ok a) rfl rfl Cont.plain_pc (fun r hr => .inl ?_) (by simp [Cont.evicts_pc])
    rw [Cont.held_pc] at hr
    exact hbatch r hr

/-- The page of a block is taken out of the map. From then on the block has what the device has. -/
theorem Coherent.erase (hb : s.pageCacheMap.get? b = some p) (hpc : s₁.pc = s.pc)
    (hmap : s₁.pageCacheMap = s.pageCacheMap.erase b) (hdev : s₁.dev = s.dev) (hkeep : ∀ r, r ≠ p → s₁.page r = s.page r)
    (hblock : (s₁.page p).blockId = (s.page p).blockId)
    (hout : (s₁.page p).discarded = true ∨ p ∈ (s.pc a).held ∧ ∀ c, c ≠ a → p ∉ (s.pc c).held)
    (hv : ∀ c, c ≠ b → v₁.current c = v.current c) (hvb : v₁.current b = s.dev b) (hq : s₁.PcOk q) :
    (s₁.goto a q).Coherent v₁ := by
  have hl := hc.listed_entry hb
  have hother : ∀ c, c ≠ b → s₁.pageCacheMap.get? c = s.pageCacheMap.get? c := fun c hcb => by
    rw [hmap, OrdMap.get?_erase, if_neg hcb]
  have hpage : ∀ c r, c ≠ b → s.pageCacheMap.get? c = some r → r ≠ p := by
    rintro c r hcb hr rfl
    exact hcb ((hc.entry c r hr).1.symm.trans (hc.entry b r hb).1)
  refine h.step hc ⟨hpc, fun r _ => ?_, fun r _ hlr _ => ?_, fun r _ hr => ?_, fun r hr => ?_⟩
    (h.values.change hother (fun _ _ => by rw [hdev]) hv (fun c r hcb hr => ?_) (fun r hr => ?_) fun _ => ?_) hq
  · by_cases hrp : r = p
    · exact hrp ▸ hblock
    · rw [hkeep r hrp]
  · rw [hkeep r fun hrp => hlr (hrp ▸ hl)]
    exact ⟨rfl, rfl, rfl, fun _ => rfl⟩
  · rw [hkeep r]
    · exact hr
    · rintro rfl
      rw [h.values.entry b r hb] at hr
      cases hr
  · by_cases hrp : r = p
    · subst hrp
      exact .inr (hout.imp_right And.right)
    · have hrb : (s.page r).blockId ≠ b := fun heq =>
        hrp (Option.some.inj ((show s.pageCacheMap.get? _ = some r from hr).symm.trans (heq ▸ hb)))
      rw [Listed, hkeep r hrp, hother _ hrb]
      exact .inl hr
  · rw [hkeep r (hpage c r hcb hr)]
    exact ⟨rfl, rfl, rfl, rfl⟩
  · rw [hmap, OrdMap.get?_erase, if_pos rfl] at hr
    cases hr
  · rw [hdev, hvb]

theorem Coherent.remove (hpc : s.pc a = .evictRemove b p)
    (hb : s.pageCacheMap.get? b = some p) (htwo : (s.page p).strong = 2) (ht : s.Timely a) :
    ((((s.dropPage p).setMap (s.pageCacheMap.erase b)).setIds (s.ids.removeBlock b)).goto a (.release p .done)).Coherent v := by
  have hmem : p ∈ (s.pc a).held := by simp [hpc]
  have hclean := ht.evict b p hpc hb htwo
  refine h.erase hc hb rfl rfl rfl (fun r hr => setPage_page_of_ne hr) (by simp [dropPage])
    (.inr ⟨hmem, hc.alone_listed htwo (hc.listed_entry hb) hmem⟩) (fun _ _ => rfl) (h.values.clean b p hb hclean).symm
    ⟨by simp [Cont.batch], by simp, ?_, by simp, by simp [Pc.evicts]⟩
  rintro r k heq -
  obtain ⟨rfl, -⟩ := Pc.release.inj heq
  exact .inr (by simp [dropPage, htwo, hclean])

theorem Coherent.invalidate (hpc : s.pc a = .idle) (hb : s.pageCacheMap.get? b = some p) :
    (((s.discardPage p).setMap (s.pageCacheMap.erase b)).goto a (.forget b)).Coherent (s.note a (.invalidateBlock b) v) := by
  have hn : s.note a (.invalidateBlock b) v = v.write b (s.dev b) := by simp [note, hpc]
  rw [hn]
  exact h.erase hc hb rfl rfl rfl (fun r hr => setPage_page_of_ne hr) (by simp) (.inl (by simp))
    (fun c hcb => current_write_of_ne hcb) (current_write_self ..) (pcOk_of_nil trivial rfl rfl)

theorem Coherent.invalidateNone (hpc : s.pc a = .idle)
    (hb : s.pageCacheMap.get? b = none) : (s.goto a (.forget b)).Coherent (s.note a (.invalidateBlock b) v) := by
  have hn : s.note a (.invalidateBlock b) v = v.write b (s.dev b) := by simp [note, hpc]
  rw [hn]
  refine h.step hc within_self (h.values.change (fun _ _ => rfl) (fun _ _ => rfl)
    (fun c hcb => current_write_of_ne hcb) (fun _ _ _ _ => ⟨rfl, rfl, rfl, rfl⟩) (fun r hr => ?_)
    fun _ => (current_write_self ..).symm) (pcOk_of_nil trivial rfl rfl)
  cases hb.symm.trans hr

theorem Coherent.collect {cursor c' batch}
    (hbatch : (s.nextBatch cursor).map Prod.snd = batch) :
    ((s.cloneAll batch).goto a (.flush batch c')).Coherent v := by
  have hlisted : ∀ r ∈ batch, s.Listed r := by
    intro r hr
    rw [← hbatch] at hr
    obtain ⟨e, he, rfl⟩ := List.mem_map.1 hr
    exact hc.listed_entry (mem_after.1 (List.mem_of_mem_take he)).1
  have hpage : ∀ r, Alike (s.page r) ((s.cloneAll batch).page r) := by
    intro r
    simp only [cloneAll]
    split <;> exact ⟨rfl, rfl, rfl, rfl⟩
  refine h.recount hc rfl rfl rfl hpage (fun r hlr _ => ?_)
    (pcOk_of_held trivial (fun r hr _ => (listed_congr (hpage r).block rfl).2 (hlisted r hr)) (by simp [Pc.evicts]))
  have hr : r ∉ batch := fun hr => hlr (hlisted r hr)
  simp [cloneAll, hr]

/-- A change of the references to a frame. -/
theorem Coherent.frame {n} (hq : q.Plain) (hev : q.evicts = none) (hheld : ∀ r ∈ q.held, r ∈ (s.pc a).used) :
    ((s.setPage p { s.page p with frameRefs := n }).goto a q).Coherent v :=
  h.recount hc rfl rfl rfl (alike_setPage ⟨rfl, rfl, rfl, rfl⟩) (fun r _ _ => setPage_field (·.strong) (by rfl) r)
    (pcOk_setPage (h.ok a) rfl rfl hq (fun r hr => .inl (hheld r hr)) (by simp [hev]))

omit hc h [DecidableEq γ] [Fintype γ] in
theorem coherent_init {d : Nat → α} : (init d : PageCacheManager γ α).Coherent (Versions.init d) where
  values := ⟨by simp [init], by simp [init], by simp [init], fun _ _ => rfl⟩
  ok _ := pcOk_of_nil trivial rfl rfl

/-- Every step that meets the conditions keeps the cache coherent. -/
theorem Coherent.move (hm : Move s a cmd s') (ht : s.Timely a)
    (hs : s.StoreDirty a cmd) : s'.Coherent (s.note a cmd v) := by
  cases hm with
  | @start cmd q hpc hq =>
    have hn : s.note a cmd v = v := by cases hq <;> simp [note, hpc]
    rw [hn]
    exact h.goto hc (pcOk_of_nil hq.plain hq.held hq.evicts)
  | syncAll hpc =>
    rw [show s.note a .syncAll v = v by simp [note, hpc]]
    exact h.goto hc (pcOk_of_nil trivial rfl rfl)
  | @pass q hq =>
    rw [note_next (by intro b p hpc; rw [hpc] at hq; cases hq)]
    refine h.goto hc (pcOk_of_held hq.plain (fun r hr => (h.ok a).used r (hq.used hr)) fun b r he => ?_)
    exact (h.ok a).evicting b r (hq.evicts he)
  | @ownFrame b p hpc _ =>
    rw [note_next (by simp [hpc])]
    refine h.goto hc (pcOk_of_held trivial (fun r hr => (h.ok a).used r ?_) fun c r he => (h.ok a).evicting c r ?_)
    · rw [hpc]
      exact hr
    · rw [hpc]
      exact he
  | @letGo p hpc =>
    rw [show s.note a .release v = v by simp [note, hpc]]
    refine h.goto hc (pcOk_of_held trivial (fun r hr => (h.ok a).used r ?_) (by simp [Pc.evicts]))
    rw [hpc]
    exact hr
  | unmap hpc =>
    rw [show s.note a .unmap v = v by simp [note, hpc]]
    exact h.goto hc (pcOk_of_nil trivial rfl rfl)
  | insertId hpc | forget hpc =>
    rw [note_next (by simp [hpc])]
    exact h.recount hc rfl rfl rfl (fun _ => ⟨rfl, rfl, rfl, rfl⟩) (fun _ _ _ => rfl) (pcOk_of_nil trivial rfl rfl)
  | clone hq hb =>
    rw [note_next (by intro b p hpc; rw [hpc] at hq; cases hq)]
    exact h.clone hc hb hq
  | callSync hpc =>
    rw [show s.note a .sync v = v by simp [note, hpc]]
    exact h.callSync hc hpc
  | sync hq =>
    rw [note_next (by intro b p hpc; rw [hpc] at hq; cases hq)]
    exact h.sync hc hq
  | create hpc =>
    rw [note_next (by simp [hpc])]
    exact h.create hc
  | publish hpc hb => exact h.publish hc hpc hb ht
  | duplicate hpc hb =>
    have hn : s.note a .next v = v := by
      unfold note
      rw [hpc]
      split <;> simp_all
    rw [hn]
    exact h.duplicate hc hpc hb
  | clear hpc =>
    rw [note_next (by simp [hpc])]
    exact h.clear hc hpc ht
  | modify hpc => exact h.modify hc hpc
  | drop hpc =>
    rw [note_next (by simp [hpc])]
    exact h.drop hc hpc
  | remove hpc hb htwo =>
    rw [note_next (by simp [hpc])]
    exact h.remove hc hpc hb htwo ht
  | invalidate hpc hb => exact h.invalidate hc hpc hb
  | invalidateNone hpc hb => exact h.invalidateNone hc hpc hb
  | collect hpc _ =>
    rw [note_next (by simp [hpc])]
    exact h.collect hc rfl
  | finish hpc _ =>
    rw [note_next (by simp [hpc])]
    exact h.goto hc (pcOk_of_nil trivial rfl rfl)
  | map hpc =>
    rw [show s.note a (.map _) v = v by simp [note, hpc]]
    refine h.frame hc trivial rfl fun r hr => ?_
    rw [hpc]
    exact hr
  | share hpc _ =>
    rw [show s.note a (.share _) v = v by simp [note, hpc]]
    exact h.frame hc trivial rfl (by simp)
  | store hpc => exact h.store hc hpc hs
  | unmapped hpc =>
    rw [note_next (by simp [hpc])]
    exact h.frame hc trivial rfl (by simp)

end

end PageCacheManager

end ShellCore.Block
