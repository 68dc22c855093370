import ShellCore.Ipc.Shm

/-!
# The accounts of shared memory

In a run of calls that the table is good enough for, the counter of a segment is the number of its attachments and
`shmdt` detaches what its process has attached.
-/

namespace ShellCore.Ipc

open Function Relation OrdMap Option

open Mm (PAGE_SIZE)

variable {size : Nat} {key : Int}

namespace Shms

variable {π : Type}

/-- The numbers of segments. -/
structure IdsOk (s : Shms π) : Prop where
  used : ∀ id shm, s.man.shms.get? id = some shm →
    id < s.man.idAllocator.current ∧ id ∉ s.man.idAllocator.recycled ∧ shm.serial < s.serials
  free : ∀ id ∈ s.man.idAllocator.recycled, id < s.man.idAllocator.current
  nodup : s.man.idAllocator.recycled.Nodup
  serial : ∀ id id' shm shm', s.man.shms.get? id = some shm → s.man.shms.get? id' = some shm' →
    shm.serial = shm'.serial → id = id'

structure Inv (s : Shms π) : Prop where
  ids : s.IdsOk
  dead : ∀ p, s.alive p = false → s.pages p = .empty
  /-- What is attached is one page and stands in the table. -/
  page : ∀ p v base serial, (s.pages p).get? v = some ⟨base, serial⟩ →
    v = base / PAGE_SIZE ∧ base ≠ 0 ∧ base % PAGE_SIZE = 0 ∧ ∃ id shm, s.man.attachments.get? base = some id ∧
      s.man.shms.get? id = some shm ∧ shm.serial = serial
  /-- No two processes have attached something at the same address. -/
  owner : ∀ p q base serial serial', s.Attached p base serial → s.Attached q base serial' → p = q
  finite : ∀ id shm, s.man.shms.get? id = some shm → (s.attachedAt shm.serial).Finite
  accounted : s.Accounted

variable {s s' : Shms π} {p q : π} {v base serial addr start shmid shmaddr found : Nat} {shm : Shm} {id : Nat}
  {rnd allowed : Bool} {call : ShmCall π}

/-- A segment keeps its number and its identity while its counter changes. -/
theorem IdsOk.of_same (h : s.IdsOk) (halloc : s'.man.idAllocator = s.man.idAllocator) (hserials : s'.serials = s.serials)
    (hsame : ∀ id shm', s'.man.shms.get? id = some shm' →
      ∃ shm, s.man.shms.get? id = some shm ∧ shm.serial = shm'.serial) : s'.IdsOk := by
  refine ⟨fun id shm' hget => ?_, ?_, ?_, fun id₁ id₂ shm₁ shm₂ h₁ h₂ heq => ?_⟩
  · obtain ⟨shm, hshm, hserial⟩ := hsame id shm' hget
    rw [halloc, hserials, ← hserial]
    exact h.used id shm hshm
  · rw [halloc]
    exact h.free
  · rw [halloc]
    exact h.nodup
  · obtain ⟨a, ha, hserial₁⟩ := hsame _ _ h₁
    obtain ⟨b, hb, hserial₂⟩ := hsame _ _ h₂
    exact h.serial _ _ _ _ ha hb (by rw [hserial₁, hserial₂, heq])

/-- The number of a new segment is not in use. -/
theorem IdsOk.alloc_free (h : s.IdsOk) : s.man.shms.get? s.man.idAllocator.alloc.1 = none := by
  rw [eq_none_iff_forall_ne_some]
  intro shm hshm
  obtain ⟨hlt, hrec, -⟩ := h.used _ _ hshm
  unfold RecycleAllocator.alloc at hlt hrec
  split at hlt
  · rename_i id rest heq
    exact hrec (by rw [heq]; exact List.mem_cons_self)
  · exact lt_irrefl _ hlt

/-- The segments after a new one. -/
theorem get?_createShm (hshm : (s.createShm key size).man.shms.get? id = some shm) :
    (id = s.man.idAllocator.alloc.1 ∧ shm.nattch = 0 ∧ shm.serial = s.serials) ∨
      (id ≠ s.man.idAllocator.alloc.1 ∧ s.man.shms.get? id = some shm) := by
  simp only [createShm, get?_insert] at hshm
  split at hshm
  · rw [← some.inj hshm]
    exact .inl ⟨‹_›, rfl, rfl⟩
  · exact .inr ⟨‹_›, hshm⟩

theorem IdsOk.createShm (h : s.IdsOk) : (s.createShm key size).IdsOk := by
  have hcur : s.man.idAllocator.current ≤ s.man.idAllocator.alloc.2.current := by
    unfold RecycleAllocator.alloc
    split <;> simp
  have hsub : ∀ r ∈ s.man.idAllocator.alloc.2.recycled, r ∈ s.man.idAllocator.recycled := by
    unfold RecycleAllocator.alloc
    split
    · rename_i id rest heq
      exact fun r hr => by rw [heq]; exact List.mem_cons_of_mem _ hr
    · exact fun r hr => hr
  have hnew : s.man.idAllocator.alloc.1 < s.man.idAllocator.alloc.2.current ∧
      s.man.idAllocator.alloc.1 ∉ s.man.idAllocator.alloc.2.recycled ∧ s.man.idAllocator.alloc.2.recycled.Nodup := by
    have hnodup := h.nodup
    have hlt := h.free
    unfold RecycleAllocator.alloc
    split
    · rename_i id rest heq
      rw [heq] at hnodup hlt
      rw [List.nodup_cons] at hnodup
      exact ⟨hlt id List.mem_cons_self, hnodup.1, hnodup.2⟩
    · rename_i heq
      exact ⟨Nat.lt_succ_self _, by simp [heq], hnodup⟩
  refine ⟨fun id shm hshm => ?_, fun r hr => (h.free r (hsub r hr)).trans_le hcur, hnew.2.2,
    fun id₁ id₂ shm₁ shm₂ h₁ h₂ heq => ?_⟩
  · rcases get?_createShm hshm with ⟨rfl, -, hserial⟩ | ⟨-, hold⟩
    · exact ⟨hnew.1, hnew.2.1, hserial ▸ Nat.lt_succ_self _⟩
    · obtain ⟨hlt, hrec, hserial⟩ := h.used id shm hold
      exact ⟨hlt.trans_le hcur, fun hr => hrec (hsub id hr), hserial.trans (Nat.lt_succ_self _)⟩
  · rcases get?_createShm h₁ with ⟨rfl, -, hs₁⟩ | ⟨-, hold₁⟩ <;>
      rcases get?_createShm h₂ with ⟨rfl, -, hs₂⟩ | ⟨-, hold₂⟩
    · rfl
    · exact absurd (heq.symm.trans hs₁) (h.used _ _ hold₂).2.2.ne
    · exact absurd (heq.trans hs₂) (h.used _ _ hold₁).2.2.ne
    · exact h.serial _ _ _ _ hold₁ hold₂ heq

variable (h : s.Inv)

include h

/-- What is attached has its segment and its record. -/
theorem Inv.attached (ha : s.Attached p base serial) :
    (s.pages p).get? (base / PAGE_SIZE) = some ⟨base, serial⟩ ∧ base ≠ 0 ∧ base % PAGE_SIZE = 0 ∧
      ∃ id shm, s.man.attachments.get? base = some id ∧ s.man.shms.get? id = some shm ∧ shm.serial = serial := by
  obtain ⟨v, hv⟩ := ha
  obtain ⟨rfl, hbase⟩ := h.page p v base serial hv
  exact ⟨hv, hbase⟩

/-- No process has attached anything at an address without a record. -/
theorem Inv.not_attached (hnone : s.man.attachments.get? base = none) : ¬s.Attached p base serial := by
  intro ha
  obtain ⟨-, -, -, id, shm, hrec, -⟩ := h.attached ha
  cases hnone.symm.trans hrec

/-- The address spaces change, but what is attached does not. -/
theorem Inv.of_pages (hman : s'.man = s.man) (hserials : s'.serials = s.serials)
    (hdead : ∀ p, s'.alive p = false → s'.pages p = .empty)
    (hpages : ∀ p v base serial, (s'.pages p).get? v = some ⟨base, serial⟩ ↔
      (s.pages p).get? v = some ⟨base, serial⟩) : s'.Inv := by
  have hatt : ∀ p base serial, s'.Attached p base serial ↔ s.Attached p base serial := fun p base serial =>
    exists_congr fun v => hpages p v base serial
  have hset : ∀ serial, s'.attachedAt serial = s.attachedAt serial := fun serial => by
    ext ⟨p, base⟩
    exact hatt p base serial
  refine ⟨h.ids.of_same (by rw [hman]) hserials fun id shm' hshm => ⟨shm', by rw [← hman]; exact hshm, rfl⟩, hdead, ?_, ?_,
    ?_, ?_⟩
  · intro p v base serial hv
    rw [hman]
    exact h.page p v base serial ((hpages p v base serial).1 hv)
  · intro p q base serial serial' hp hq
    exact h.owner p q base serial serial' ((hatt _ _ _).1 hp) ((hatt _ _ _).1 hq)
  · intro id shm hshm
    rw [hset]
    rw [hman] at hshm
    exact h.finite id shm hshm
  · intro id shm hshm
    rw [hset]
    rw [hman] at hshm
    exact h.accounted id shm hshm

theorem Inv.createShm : (s.createShm key size).Inv := by
  have hfree := h.ids.alloc_free
  have hold : ∀ id shm, s.man.shms.get? id = some shm → (s.createShm key size).man.shms.get? id = some shm := by
    intro id shm hshm
    have hne : id ≠ s.man.idAllocator.alloc.1 := by
      rintro rfl
      cases hfree.symm.trans hshm
    exact (get?_insert_of_ne hne).trans hshm
  have hempty : s.attachedAt s.serials = ∅ := by
    rw [Set.eq_empty_iff_forall_notMem]
    rintro ⟨p, base⟩ ha
    obtain ⟨-, -, -, id, shm, -, hshm, hserial⟩ := h.attached ha
    exact absurd hserial (h.ids.used id shm hshm).2.2.ne
  refine ⟨h.ids.createShm, h.dead, fun p v base serial hv => ?_, h.owner, fun id shm hshm => ?_, fun id shm hshm => ?_⟩
  · obtain ⟨hv', hbase, halign, id, shm, hrec, hshm, hserial⟩ := h.page p v base serial hv
    exact ⟨hv', hbase, halign, id, shm, hrec, hold id shm hshm, hserial⟩
  · show (s.attachedAt shm.serial).Finite
    rcases get?_createShm hshm with ⟨-, -, hserial⟩ | ⟨-, hshm'⟩
    · rw [hserial, hempty]
      exact Set.finite_empty
    · exact h.finite id shm hshm'
  · show shm.nattch = (s.attachedAt shm.serial).ncard
    rcases get?_createShm hshm with ⟨-, hzero, hserial⟩ | ⟨-, hshm'⟩
    · rw [hserial, hempty, Set.ncard_empty, hzero]
    · exact h.accounted id shm hshm'

theorem Inv.sysShmget {creat} : (s.sysShmget key size creat).Inv := by
  unfold Shms.sysShmget
  split_ifs
  · exact h.createShm
  · exact h
  · exact h
  · exact h.createShm
  · exact h

omit h

theorem pageRange_one (hpos : size ≠ 0) (hle : size ≤ PAGE_SIZE) : pageRange start size = [start / PAGE_SIZE] := by
  have hone : pageCount size = 1 := by
    have hp : PAGE_SIZE = 4096 := rfl
    rw [hp] at hle
    rw [pageCount, hp]
    omega
  simp [pageRange, hone]

/-- `mmap` of a segment of one page. -/
theorem mmap_one {pages pages'} (hpos : size ≠ 0) (hle : size ≤ PAGE_SIZE)
    (h : mmap pages start size serial = some pages') :
    (start ≠ 0 ∧ start % PAGE_SIZE = 0) ∧ pages.get? (start / PAGE_SIZE) = none ∧
      pages' = pages.insert (start / PAGE_SIZE) ⟨start, serial⟩ := by
  unfold mmap at h
  obtain ⟨hok, h⟩ := ite_none_left_eq_some.1 h
  obtain ⟨hfree, h⟩ := ite_none_right_eq_some.1 h
  rw [pageRange_one hpos hle] at hfree h
  rw [not_or, not_not] at hok
  exact ⟨hok, by simpa using hfree, (some.inj h).symm⟩

variable [DecidableEq π]

/-- Process `p` has another address space, and one segment another counter. -/
theorem Inv.recount (h : s.Inv) {shm' atts m}
    (hs' : s' = { s with
      man := { s.man with shms := s.man.shms.insert shmid shm', attachments := atts }, pages := update s.pages p m })
    (hshm : s.man.shms.get? shmid = some shm) (hserial : shm'.serial = shm.serial) (halive : s.alive p = true)
    (hset : ∀ serial, serial ≠ shm.serial → s'.attachedAt serial = s.attachedAt serial)
    (hcount : (s'.attachedAt shm.serial).Finite ∧ shm'.nattch = (s'.attachedAt shm.serial).ncard)
    (hpage : ∀ q v base serial, (update s.pages p m q).get? v = some ⟨base, serial⟩ →
      v = base / PAGE_SIZE ∧ base ≠ 0 ∧ base % PAGE_SIZE = 0 ∧ ∃ id shm, atts.get? base = some id ∧
        s.man.shms.get? id = some shm ∧ shm.serial = serial)
    (howner : ∀ q q' base serial serial', s'.Attached q base serial → s'.Attached q' base serial' → q = q') : s'.Inv := by
  have hshms : ∀ id a, s'.man.shms.get? id = some a →
      (id = shmid ∧ a = shm') ∨ (id ≠ shmid ∧ s.man.shms.get? id = some a) := by
    intro id a ha
    rw [hs', get?_insert] at ha
    split at ha
    · exact .inl ⟨‹_›, (some.inj ha).symm⟩
    · exact .inr ⟨‹_›, ha⟩
  have hacc : ∀ id a, s'.man.shms.get? id = some a →
      (s'.attachedAt a.serial).Finite ∧ a.nattch = (s'.attachedAt a.serial).ncard := by
    intro id a ha
    rcases hshms id a ha with ⟨-, rfl⟩ | ⟨hid, hold⟩
    · exact hserial ▸ hcount
    · rw [hset _ fun heq => hid (h.ids.serial _ _ _ _ hold hshm heq)]
      exact ⟨h.finite id a hold, h.accounted id a hold⟩
  refine ⟨h.ids.of_same (by rw [hs']) (by rw [hs']) fun id a ha => ?_, fun q hq => ?_, fun q v base serial hv => ?_, howner,
    fun id a ha => (hacc id a ha).1, fun id a ha => (hacc id a ha).2⟩
  · rcases hshms id a ha with ⟨rfl, rfl⟩ | ⟨-, hold⟩
    · exact ⟨shm, hshm, hserial.symm⟩
    · exact ⟨a, hold, rfl⟩
  · subst hs'
    have hqp : q ≠ p := by
      rintro rfl
      exact absurd (halive.symm.trans hq) (by decide)
    exact (update_of_ne hqp _ _).trans (h.dead q hq)
  · subst hs'
    obtain ⟨hv', hbase, hmod, id, a, hrec, ha, rfl⟩ := hpage q v base serial hv
    refine ⟨hv', hbase, hmod, id, ?_⟩
    by_cases hid : id = shmid
    · subst hid
      obtain rfl := some.inj (hshm.symm.trans ha)
      exact ⟨shm', hrec, get?_insert_self, hserial⟩
    · exact ⟨a, hrec, (get?_insert_of_ne hid).trans ha, rfl⟩

/-- A segment that is attached. -/
def attach (s : Shms π) (p : π) (shmid : Nat) (shm : Shm) (start : Nat) : Shms π :=
  { s with
    man := { s.man with
      shms := s.man.shms.insert shmid shm.incNattch
      attachments := s.man.attachments.insert start shmid }
    pages := update s.pages p ((s.pages p).insert (start / PAGE_SIZE) ⟨start, shm.serial⟩) }

theorem sysShmat_cases (ho : s.orderly (.shmat p shmid shmaddr rnd found allowed) = true) :
    s.sysShmat p shmid shmaddr rnd found allowed = s ∨ ∃ shm start, s.man.shms.get? shmid = some shm ∧
      s.man.attachments.get? start = none ∧ start ≠ 0 ∧ start % PAGE_SIZE = 0 ∧
      (s.pages p).get? (start / PAGE_SIZE) = none ∧
      s.sysShmat p shmid shmaddr rnd found allowed = s.attach p shmid shm start := by
  cases hshm : s.man.shms.get? shmid with
  | none => simp [sysShmat, hshm]
  | some shm =>
    cases hstart : startAddr shmaddr rnd found with
    | none => simp [sysShmat, hshm, hstart]
    | some start =>
      simp only [orderly, hshm, hstart, all_some, Bool.and_eq_true, bne_iff_ne, decide_eq_true_eq,
        isNone_iff_eq_none] at ho
      obtain ⟨⟨hpos, hle⟩, hrec⟩ := ho
      simp only [sysShmat, hshm, hstart]
      cases hmap : if allowed then mmap (s.pages p) start shm.size shm.serial else none with
      | none => exact .inl rfl
      | some pages =>
        obtain ⟨-, hmap⟩ := ite_none_right_eq_some.1 hmap
        obtain ⟨⟨hne, halign⟩, hfree, rfl⟩ := mmap_one hpos hle hmap
        exact .inr ⟨shm, start, rfl, hrec, hne, halign, hfree, rfl⟩

theorem attached_attach (hfree : (s.pages p).get? (start / PAGE_SIZE) = none) :
    (s.attach p shmid shm start).Attached q base serial ↔
      s.Attached q base serial ∨ q = p ∧ base = start ∧ serial = shm.serial := by
  by_cases hq : q = p
  · subst hq
    simp only [Attached, attach, update_self, get?_insert, true_and]
    constructor
    · rintro ⟨v, hv⟩
      split at hv
      · obtain ⟨rfl, rfl⟩ := Mapped.mk.inj (some.inj hv)
        exact .inr ⟨rfl, rfl⟩
      · exact .inl ⟨v, hv⟩
    · rintro (⟨v, hv⟩ | ⟨rfl, rfl⟩)
      · refine ⟨v, ?_⟩
        rw [if_neg]
        · exact hv
        · rintro rfl
          cases hfree.symm.trans hv
      · exact ⟨base / PAGE_SIZE, if_pos rfl⟩
  · simp only [Attached, attach, update_of_ne hq, hq, false_and, or_false]

include h

theorem Inv.attach (hshm : s.man.shms.get? shmid = some shm) (hrec : s.man.attachments.get? start = none)
    (hne : start ≠ 0) (halign : start % PAGE_SIZE = 0) (hfree : (s.pages p).get? (start / PAGE_SIZE) = none)
    (halive : s.alive p = true) : (s.attach p shmid shm start).Inv := by
  have hnew : ∀ q serial, ¬s.Attached q start serial := fun q serial => h.not_attached hrec
  have hatt : ∀ q base serial, (s.attach p shmid shm start).Attached q base serial ↔
      s.Attached q base serial ∨ q = p ∧ base = start ∧ serial = shm.serial := fun q base serial => attached_attach hfree
  refine h.recount rfl hshm rfl halive (fun serial hserial => ?_) ?_ (fun q v base serial hv => ?_)
    fun q q' base serial serial' hq hq' => ?_
  · ext ⟨q, base⟩
    exact (hatt q base serial).trans (or_iff_left fun hq => hserial hq.2.2)
  · -- the counter of the segment and its attachments grow together
    have hset : (s.attach p shmid shm start).attachedAt shm.serial = insert (p, start) (s.attachedAt shm.serial) := by
      ext ⟨q, base⟩
      simp only [attachedAt, Set.mem_ofPred_eq, hatt, and_true, Set.mem_insert_iff, Prod.mk.injEq]
      exact or_comm
    have hfin := h.finite shmid shm hshm
    have hmem : (p, start) ∉ s.attachedAt shm.serial := hnew p shm.serial
    refine hset ▸ ⟨hfin.insert _, ?_⟩
    rw [Set.ncard_insert_of_notMem hmem hfin, ← h.accounted shmid shm hshm]
    rfl
  · by_cases hpage : q = p ∧ v = start / PAGE_SIZE
    · obtain ⟨rfl, rfl⟩ := hpage
      simp only [update_self, get?_insert_self, some.injEq, Mapped.mk.injEq] at hv
      obtain ⟨rfl, rfl⟩ := hv
      exact ⟨rfl, hne, halign, shmid, shm, get?_insert_self, hshm, rfl⟩
    · have hold : (s.pages q).get? v = some ⟨base, serial⟩ := by
        by_cases hq : q = p
        · subst hq
          have hv' : v ≠ start / PAGE_SIZE := fun he => hpage ⟨rfl, he⟩
          simpa [get?_insert_of_ne hv'] using hv
        · simpa [hq] using hv
      obtain ⟨hv', hbase, hmod, id, shm', hrec', hshm'⟩ := h.page q v base serial hold
      have hbs : base ≠ start := by
        rintro rfl
        cases hrec.symm.trans hrec'
      exact ⟨hv', hbase, hmod, id, shm', (get?_insert_of_ne hbs).trans hrec', hshm'⟩
  · rcases (hatt _ _ _).1 hq with hold | ⟨rfl, rfl, -⟩ <;> rcases (hatt _ _ _).1 hq' with hold' | ⟨rfl, hbase, -⟩
    · exact h.owner q q' base serial serial' hold hold'
    · subst hbase
      exact absurd hold (hnew _ _)
    · exact absurd hold' (hnew _ _)
    · rfl

/-- A segment that is detached. -/
def detach (s : Shms π) (p : π) (shmid : Nat) (shm : Shm) (addr : Nat) : Shms π :=
  { s with
    man := { s.man with
      shms := s.man.shms.insert shmid shm.decNattch
      attachments := s.man.attachments.erase addr }
    pages := update s.pages p ((s.pages p).erase (addr / PAGE_SIZE)) }

theorem sysShmdt_cases (ho : s.orderly (.shmdt p addr) = true) :
    (s.sysShmdt p addr = s ∧ ∀ serial, ¬s.Attached p addr serial) ∨ ∃ id shm, s.man.attachments.get? addr = some id ∧
      s.man.shms.get? id = some shm ∧ (s.pages p).get? (addr / PAGE_SIZE) = some ⟨addr, shm.serial⟩ ∧
      s.sysShmdt p addr = s.detach p id shm addr := by
  by_cases hbad : addr = 0 ∨ addr % PAGE_SIZE ≠ 0
  · refine .inl ⟨if_pos hbad, fun serial ha => ?_⟩
    obtain ⟨-, hne, halign, -⟩ := h.attached ha
    exact hbad.elim hne fun hmod => hmod halign
  · cases hrec : s.man.attachments.get? addr with
    | none => exact .inl ⟨by simp only [sysShmdt, if_neg hbad, hrec], fun serial => h.not_attached hrec⟩
    | some id =>
      simp only [orderly, hrec, isNone_some, Bool.false_or] at ho
      obtain ⟨serial, hpage⟩ : ∃ serial, (s.pages p).get? (addr / PAGE_SIZE) = some ⟨addr, serial⟩ := by
        cases hm : (s.pages p).get? (addr / PAGE_SIZE) with
        | none => simp [hm] at ho
        | some m =>
          obtain rfl : m.base = addr := by simpa [hm] using ho
          exact ⟨m.serial, rfl⟩
      obtain ⟨-, -, -, id', shm, hrec', hshm, rfl⟩ := h.page _ _ _ _ hpage
      obtain rfl := some.inj (hrec.symm.trans hrec')
      refine .inr ⟨id, shm, rfl, hshm, hpage, ?_⟩
      simp only [sysShmdt, if_neg hbad, hrec, decNattch, hshm]
      rfl

theorem attached_detach (hpage : (s.pages p).get? (addr / PAGE_SIZE) = some ⟨addr, shm.serial⟩) :
    (s.detach p shmid shm addr).Attached q base serial ↔ s.Attached q base serial ∧ ¬(q = p ∧ base = addr) := by
  by_cases hq : q = p
  · subst hq
    simp only [Attached, detach, update_self, get?_erase, true_and]
    constructor
    · rintro ⟨v, hv⟩
      obtain ⟨hne, hold⟩ := ite_none_left_eq_some.1 hv
      refine ⟨⟨v, hold⟩, ?_⟩
      rintro rfl
      exact hne (h.page _ _ _ _ hold).1
    · rintro ⟨⟨v, hv⟩, hne⟩
      refine ⟨v, ?_⟩
      rw [if_neg]
      · exact hv
      · rintro rfl
        rw [hpage] at hv
        exact hne (Mapped.mk.inj (some.inj hv)).1.symm
  · simp only [Attached, detach, update_of_ne hq, hq, false_and, not_false_eq_true, and_true]

theorem Inv.detach (hshm : s.man.shms.get? shmid = some shm)
    (hpage : (s.pages p).get? (addr / PAGE_SIZE) = some ⟨addr, shm.serial⟩) (halive : s.alive p = true) :
    (s.detach p shmid shm addr).Inv := by
  have hself : s.Attached p addr shm.serial := ⟨_, hpage⟩
  have hatt : ∀ q base serial, (s.detach p shmid shm addr).Attached q base serial ↔
      s.Attached q base serial ∧ ¬(q = p ∧ base = addr) := fun q base serial => attached_detach h hpage
  refine h.recount rfl hshm rfl halive (fun serial hserial => ?_) ?_ (fun q v base serial hv => ?_)
    fun q q' base serial serial' hq hq' => h.owner q q' base serial serial' ((hatt _ _ _).1 hq).1 ((hatt _ _ _).1 hq').1
  · ext ⟨q, base⟩
    refine (hatt q base serial).trans (and_iff_left_of_imp ?_)
    -- what is attached at `addr` is this segment, by this process
    rintro ha ⟨rfl, rfl⟩
    have hpage' := (h.attached ha).1
    rw [hpage] at hpage'
    exact hserial (Mapped.mk.inj (some.inj hpage')).2.symm
  · have hset : (s.detach p shmid shm addr).attachedAt shm.serial = s.attachedAt shm.serial \ {(p, addr)} := by
      ext ⟨q, base⟩
      simp only [attachedAt, Set.mem_ofPred_eq, hatt, Set.mem_sdiff, Set.mem_singleton_iff, Prod.mk.injEq]
    have hmem : (p, addr) ∈ s.attachedAt shm.serial := hself
    refine hset ▸ ⟨(h.finite shmid shm hshm).subset Set.sdiff_subset, ?_⟩
    rw [Set.ncard_sdiff_singleton_of_mem hmem, ← h.accounted shmid shm hshm]
    rfl
  · obtain ⟨hold, hne⟩ := (hatt q base serial).1 ⟨v, hv⟩
    have hv' : (s.pages q).get? v = some ⟨base, serial⟩ := by
      revert hv
      refine forall_update q (fun hv => ?_) fun _ => id
      rw [get?_erase] at hv
      exact (ite_none_left_eq_some.1 hv).2
    obtain ⟨hvb, hbase, hmod, id, shm', hrec, hshm'⟩ := h.page _ _ _ _ hv'
    have hba : base ≠ addr := by
      rintro rfl
      exact hne ⟨h.owner q p base serial shm.serial hold hself, rfl⟩
    exact ⟨hvb, hbase, hmod, id, shm', by rw [get?_erase, if_neg hba, hrec], hshm'⟩

omit h [DecidableEq π] in
theorem filter_kept {o} {f : Mapped → Bool} (h : ∀ m, o = some m → f m = true) : o.filter f = o := by
  cases o with
  | none => rfl
  | some m => exact if_pos (h m rfl)

/-- A call that the table is good enough for detaches what it should. -/
theorem detachesExactly (ho : s.orderly (.shmdt p addr) = true) : DetachesExactly s (s.sysShmdt p addr) p addr := by
  have hbase : ∀ v m, (s.pages p).get? v = some m → m.base = addr → ∃ serial, m = ⟨addr, serial⟩ ∧ v = addr / PAGE_SIZE := by
    rintro v m hv rfl
    exact ⟨m.serial, rfl, (h.page _ _ _ _ hv).1⟩
  rcases sysShmdt_cases h ho with ⟨heq, hnone⟩ | ⟨id, shm, hrec, hshm, hpage, heq⟩
  · rw [heq]
    refine ⟨fun q v => ?_, fun serial ha => absurd ha (hnone serial), fun _ _ => rfl,
      fun _ _ _ ha => absurd ha (hnone _), fun _ _ hshm _ => hshm⟩
    refine (filter_kept fun m hm => ?_).symm
    by_cases hq : q = p
    · subst hq
      have hne : m.base ≠ addr := fun hmb => by
        obtain ⟨serial, rfl, -⟩ := hbase v m hm hmb
        exact hnone serial ⟨v, hm⟩
      simp [hne]
    · simp [hq]
  · have hself : s.Attached p addr shm.serial := ⟨_, hpage⟩
    rw [heq]
    refine ⟨fun q v => ?_, fun serial _ => ?_, fun a ha => ?_, fun id' shm' hshm' ha => ?_, fun id' shm' hshm' hna => ?_⟩
    · by_cases hq : q = p
      · subst hq
        simp only [detach, update_self, get?_erase, decide_true, Bool.true_and]
        split
        · rename_i hv
          rw [hv, hpage]
          exact (filter_some_neg (by simp)).symm
        · rename_i hv
          refine (filter_kept fun m hm => ?_).symm
          have hne : m.base ≠ addr := fun hmb => hv (hbase v m hm hmb).choose_spec.2
          simp [hne]
      · simp only [detach, update_of_ne hq, hq, decide_false, Bool.false_and, Bool.not_false]
        exact (filter_kept fun _ _ => rfl).symm
    · show (s.man.attachments.erase addr).get? addr = none
      rw [get?_erase, if_pos rfl]
    · have hne : a ≠ addr := fun hae => ha hae shm.serial hself
      show (s.man.attachments.erase addr).get? a = s.man.attachments.get? a
      rw [get?_erase, if_neg hne]
    · obtain ⟨-, -, -, id'', shm'', hrec'', hshm'', hserial⟩ := h.attached ha
      obtain rfl : id' = id'' := h.ids.serial _ _ _ _ hshm' hshm'' hserial.symm
      obtain rfl := some.inj (hrec.symm.trans hrec'')
      obtain rfl := some.inj (hshm.symm.trans hshm')
      exact get?_insert_self
    · have hne : id' ≠ id := by
        rintro rfl
        obtain rfl := some.inj (hshm.symm.trans hshm')
        exact hna hself
      exact (get?_insert_of_ne hne).trans hshm'

omit [DecidableEq π] in
theorem Inv.removeShm (ho : s.orderly (.rmid shmid allowed) = true)
    (hstep : s.removeShm shmid allowed = some s') : s'.Inv := by
  unfold Shms.removeShm at hstep
  cases hshm : s.man.shms.get? shmid with
  | none =>
    simp only [hshm] at hstep
    cases hstep
    exact h
  | some shm =>
    simp only [hshm] at hstep
    cases allowed with
    | false =>
      cases hstep
      exact h
    | true =>
      simp only [if_true, map_eq_some_iff] at hstep
      obtain ⟨a, hdealloc, rfl⟩ := hstep
      obtain ⟨⟨hlt, hnotin⟩, rfl⟩ := of_guard hdealloc
      have hzero : shm.nattch = 0 := by simpa [orderly, hshm] using ho
      have hempty : s.attachedAt shm.serial = ∅ := by
        have hcard := h.accounted shmid shm hshm
        rw [hzero] at hcard
        exact (Set.ncard_eq_zero (h.finite shmid shm hshm)).1 hcard.symm
      have hold : ∀ id shm', (s.man.shms.erase shmid).get? id = some shm' → id ≠ shmid ∧ s.man.shms.get? id = some shm' := by
        intro id shm' hget
        rw [get?_erase] at hget
        exact ite_none_left_eq_some.1 hget
      refine ⟨⟨fun id shm' hget => ?_, fun r hr => ?_, List.nodup_cons.2 ⟨hnotin, h.ids.nodup⟩,
        fun _ _ _ _ h₁ h₂ => h.ids.serial _ _ _ _ (hold _ _ h₁).2 (hold _ _ h₂).2⟩, h.dead, fun p v base serial hv => ?_,
        h.owner, fun id shm' hget => h.finite id shm' (hold _ _ hget).2,
        fun id shm' hget => h.accounted id shm' (hold _ _ hget).2⟩
      · obtain ⟨hne, hget'⟩ := hold id shm' hget
        obtain ⟨hlt', hrec, hserial⟩ := h.ids.used id shm' hget'
        exact ⟨hlt', fun hmem => (List.mem_cons.1 hmem).elim hne hrec, hserial⟩
      · rcases List.mem_cons.1 hr with rfl | hr'
        · exact hlt
        · exact h.ids.free r hr'
      · obtain ⟨hv', hbase, hmod, id, shm', hrec, hshm', hserial⟩ := h.page p v base serial hv
        refine ⟨hv', hbase, hmod, id, shm', hrec, ?_, hserial⟩
        have hne : id ≠ shmid := by
          rintro rfl
          obtain rfl := some.inj (hshm.symm.trans hshm')
          have hmem : (p, base) ∈ s.attachedAt shm.serial := ⟨v, hserial ▸ hv⟩
          rw [hempty] at hmem
          exact hmem
        exact (get?_erase.trans (if_neg hne)).trans hshm'

omit h [DecidableEq π] in
/-- An address space without segments. -/
theorem none_shm (h : (s.pages p).entries.isEmpty = true) :
    (s.pages p).get? v ≠ some ⟨base, serial⟩ := by
  intro hv
  have hmem := mem_entries.2 hv
  rw [List.isEmpty_iff.1 h] at hmem
  cases hmem

theorem Inv.step (hstep : s.OrderlyStep s') : s'.Inv := by
  obtain ⟨call, ho, hstep⟩ := hstep
  cases call with
  | shmget key size creat =>
    cases hstep
    exact h.sysShmget
  | shmat p shmid shmaddr rnd found allowed =>
    obtain ⟨halive, rfl⟩ := of_guard hstep
    rcases sysShmat_cases ho with heq | ⟨shm, start, hshm, hrec, hne, halign, hfree, heq⟩
    · rw [heq]
      exact h
    · rw [heq]
      exact h.attach hshm hrec hne halign hfree halive
  | shmdt p addr =>
    obtain ⟨halive, rfl⟩ := of_guard hstep
    rcases sysShmdt_cases h ho with ⟨heq, -⟩ | ⟨id, shm, -, hshm, hpage, heq⟩
    · rw [heq]
      exact h
    · rw [heq]
      exact h.detach hshm hpage halive
  | rmid shmid allowed => exact h.removeShm ho hstep
  | fork p child =>
    obtain ⟨⟨-, hchild⟩, rfl⟩ := of_guard hstep
    refine h.of_pages rfl rfl (fun q hq => ?_) fun q v base serial => ?_
    · have hne : q ≠ child := by
        rintro rfl
        simp at hq
      simp only [update_of_ne hne] at hq ⊢
      exact h.dead q hq
    · by_cases hq : q = child
      · subst hq
        simp only [update_self, h.dead q hchild, get?_empty, reduceCtorEq, iff_false]
        exact none_shm ho
      · simp only [update_of_ne hq]
  | exit p =>
    obtain ⟨-, rfl⟩ := of_guard hstep
    refine h.of_pages rfl rfl (fun q hq => ?_) fun q v base serial => ?_
    · by_cases hqp : q = p
      · subst hqp
        exact update_self _ _ _
      · simp only [update_of_ne hqp] at hq ⊢
        exact h.dead q hq
    · by_cases hq : q = p
      · subst hq
        simp only [update_self, get?_empty, reduceCtorEq, false_iff]
        exact none_shm ho
      · simp only [update_of_ne hq]

omit h

theorem inv_init : (init p).Inv := by
  have hshm : ∀ id shm, (init p).man.shms.get? id ≠ some shm := nofun
  have hpage : ∀ q v m, ((init p).pages q).get? v ≠ some m := nofun
  exact ⟨⟨fun id shm h => absurd h (hshm id shm), fun _ h => absurd h List.not_mem_nil, List.nodup_nil,
      fun id _ shm _ h => absurd h (hshm id shm)⟩,
    fun _ _ => rfl, fun q v _ _ h => absurd h (hpage q v _), fun q _ _ _ _ ⟨v, h⟩ => absurd h (hpage q v _),
    fun id shm h => absurd h (hshm id shm), fun id shm h => absurd h (hshm id shm)⟩

/-- In an orderly run the counters are right in every state, and an orderly `shmdt` detaches exactly what it should. -/
theorem shm_accounted (hrun : ReflTransGen OrderlyStep (init p) s) : s.Accounted ∧
    ∀ q addr s', s.orderly (.shmdt q addr) = true → s.step (.shmdt q addr) = some s' → DetachesExactly s s' q addr := by
  have hinv : s.Inv := inv_of_reachable inv_init (fun _ _ h hstep => h.step hstep) hrun
  refine ⟨hinv.accounted, fun q addr s' ho hstep => ?_⟩
  obtain ⟨-, rfl⟩ := of_guard hstep
  exact detachesExactly hinv ho

/-! ## Runs on two segments -/

/-- A call that is made only if the table is good enough for it. -/
def orderlyCall (s : Shms π) (call : ShmCall π) : Option (Shms π) := if s.orderly call then s.step call else none

theorem orderlyCall_spec (h : s.orderlyCall call = some s') : s.OrderlyStep s' := by
  obtain ⟨ho, hstep⟩ := ite_none_right_eq_some.1 h
  exact ⟨call, ho, hstep⟩

/-- What one evaluation of a run and of a `shmdt` after it shows. -/
theorem exists_shmdt {R : Shms π → Shms π → Prop} {f : Shms π → ShmCall π → Option (Shms π)} {a} (l : List (ShmCall π))
    {Q : Shms π → Shms π → Prop} [∀ s s', Decidable (Q s s')] (hR : ∀ s k s', f s k = some s' → R s s')
    (h : ((l.foldlM f s).any fun s => (s.step (.shmdt p a)).any fun s' => decide (Q s s')) = true) :
    ∃ s₁ s₂, ReflTransGen R s s₁ ∧ s₁.step (.shmdt p a) = some s₂ ∧ Q s₁ s₂ := by
  obtain ⟨s₁, hrun, h⟩ := (any_eq_true _ _).1 h
  obtain ⟨s₂, hstep, hs⟩ := exists_of_any h
  exact ⟨s₁, s₂, reaches_of_foldlM hR hrun, hstep, hs⟩

/-- Process `q` is forked and each process attaches the segment 0. -/
def twoAttach (p q : π) : List (ShmCall π) :=
  [.shmget 7 100 true, .fork p q, .shmat p 0 0 false 0x10000 true, .shmat q 0 0 false 0x20000 true]

/-- `shm_accounted` where two processes have attached one segment, and one of them detaches it. -/
theorem shm_accounted_two : ∃ s s' : Shms (Fin 2), ReflTransGen OrderlyStep (init 0) s ∧
    s.step (.shmdt 0 0x10000) = some s' ∧ (s.man.shms.get? 0).map Shm.nattch = some 2 ∧
    (s'.man.shms.get? 0).map Shm.nattch = some 1 ∧ s.Accounted ∧ DetachesExactly s s' 0 0x10000 := by
  obtain ⟨s, s', hreach, hstep, hbefore, hafter, ho⟩ : ∃ s s' : Shms (Fin 2), ReflTransGen OrderlyStep (init 0) s ∧
      s.step (.shmdt 0 0x10000) = some s' ∧ (s.man.shms.get? 0).map Shm.nattch = some 2 ∧
      (s'.man.shms.get? 0).map Shm.nattch = some 1 ∧ s.orderly (.shmdt 0 0x10000) = true :=
    exists_shmdt (f := orderlyCall) (twoAttach 0 1) (fun _ _ _ => orderlyCall_spec) (by decide +kernel)
  obtain ⟨hacc, hexact⟩ := shm_accounted hreach
  exact ⟨s, s', hreach, hstep, hbefore, hafter, hacc, hexact 0 _ _ ho hstep⟩

/-- Process `q` is forked after the segment has been attached. -/
def forkAttached (p q : π) : List (ShmCall π) := [.shmget 7 100 true, .shmat p 0 0 false 0x10000 true, .fork p q]

/-- A segment of two pages. -/
def attachTwoPages (p : π) : List (ShmCall π) := [.shmget 7 0x2000 true, .shmat p 0 0 false 0x10000 true]

/-- The processes attach different segments at the same address. -/
def attachSameAddress (p q : π) : List (ShmCall π) :=
  [.shmget 7 100 true, .shmget 8 100 true, .fork p q, .shmat p 0 0 false 0x10000 true, .shmat q 1 0 false 0x10000 true]

/-- The segment is removed while it is attached, and its number given to another one. -/
def removeAttached (p q : π) : List (ShmCall π) :=
  [.shmget 7 100 true, .fork p q, .shmat p 0 0 false 0x10000 true, .rmid 0 true, .shmget 8 100 true,
    .shmat q 0 0 false 0x20000 true]

/-- A call that lowers the counter of a segment which its process has not attached there. -/
theorem not_detachesExactly (hcount : s.man.shms.get? id = some shm)
    (hpages : ∀ x ∈ (s.pages p).entries, x.2 ≠ ⟨addr, shm.serial⟩) (hafter : s'.man.shms.get? id ≠ some shm) :
    ¬DetachesExactly s s' p addr := by
  intro h
  refine hafter (h.otherCounters id shm hcount ?_)
  rintro ⟨v, hv⟩
  exact hpages _ (mem_entries.2 hv) rfl

/-- A fork is not counted; a segment of two pages stays in part; and where two processes have used the same address, or a
number is used again, `shmdt` lowers the counter of another segment. -/
theorem shm_miscounted :
    (∃ s : Shms (Fin 2), ReflTransGen Step (init 0) s ∧ ¬s.Accounted) ∧
    (∃ s s' : Shms (Fin 2), ReflTransGen Step (init 0) s ∧ s.step (.shmdt 0 0x10000) = some s' ∧
      s'.Attached 0 0x10000 0 ∧ ¬DetachesExactly s s' 0 0x10000) ∧
    (∃ s s' : Shms (Fin 2), ReflTransGen Step (init 0) s ∧ s.step (.shmdt 0 0x10000) = some s' ∧
      s'.Attached 1 0x10000 1 ∧ (s'.man.shms.get? 1).map Shm.nattch = some 0 ∧ ¬DetachesExactly s s' 0 0x10000) ∧
    ∃ s s' : Shms (Fin 2), ReflTransGen Step (init 0) s ∧ s.step (.shmdt 0 0x10000) = some s' ∧
      s'.Attached 1 0x20000 1 ∧ (s'.man.shms.get? 0).map Shm.nattch = some 0 ∧ ¬DetachesExactly s s' 0 0x10000 := by
  refine ⟨?_, ?_, ?_, ?_⟩
  · obtain ⟨s, hrun, hshm, hparent, hchild⟩ : ∃ s, (forkAttached (0 : Fin 2) 1).foldlM step (init 0) = some s ∧
        s.man.shms.get? 0 = some ⟨7, 100, 1, 0⟩ ∧ (s.pages 0).get? 16 = some ⟨0x10000, 0⟩ ∧
        (s.pages 1).get? 16 = some ⟨0x10000, 0⟩ := exists_of_any (by decide +kernel)
    refine ⟨s, reaches_of_foldlM (fun _ k _ hk => ⟨k, hk⟩) hrun, fun hacc => ?_⟩
    obtain ⟨x, hx⟩ := Set.ncard_eq_one.1 (hacc 0 _ hshm).symm
    have h₀ : ((0 : Fin 2), 0x10000) ∈ s.attachedAt 0 := ⟨16, hparent⟩
    have h₁ : ((1 : Fin 2), 0x10000) ∈ s.attachedAt 0 := ⟨16, hchild⟩
    rw [hx] at h₀ h₁
    exact absurd (h₀.trans h₁.symm) (by decide)
  · obtain ⟨s, s', hreach, hstep, hbefore, hafter⟩ : ∃ s s' : Shms (Fin 2), ReflTransGen Step (init 0) s ∧
        s.step (.shmdt 0 0x10000) = some s' ∧ (s.pages 0).get? 17 = some ⟨0x10000, 0⟩ ∧
        (s'.pages 0).get? 17 = some ⟨0x10000, 0⟩ :=
      exists_shmdt (attachTwoPages 0) (fun _ k _ hk => ⟨k, hk⟩) (by decide +kernel)
    refine ⟨s, s', hreach, hstep, ⟨17, hafter⟩, fun h => ?_⟩
    have hpage := h.pages 0 17
    rw [hbefore, hafter] at hpage
    revert hpage
    decide
  · obtain ⟨s, s', hreach, hstep, hbefore, hpages, hafter, hother⟩ : ∃ s s' : Shms (Fin 2), ReflTransGen Step (init 0) s ∧
        s.step (.shmdt 0 0x10000) = some s' ∧ s.man.shms.get? 1 = some ⟨8, 100, 1, 1⟩ ∧
        (s.pages 0).entries = [(16, ⟨0x10000, 0⟩)] ∧ s'.man.shms.get? 1 = some ⟨8, 100, 0, 1⟩ ∧
        (s'.pages 1).get? 16 = some ⟨0x10000, 1⟩ :=
      exists_shmdt (attachSameAddress 0 1) (fun _ k _ hk => ⟨k, hk⟩) (by decide +kernel)
    refine ⟨s, s', hreach, hstep, ⟨16, hother⟩, by rw [hafter]; rfl,
      not_detachesExactly hbefore (by rw [hpages]; decide) (by rw [hafter]; decide)⟩
  · obtain ⟨s, s', hreach, hstep, hbefore, hpages, hafter, hother⟩ : ∃ s s' : Shms (Fin 2), ReflTransGen Step (init 0) s ∧
        s.step (.shmdt 0 0x10000) = some s' ∧ s.man.shms.get? 0 = some ⟨8, 100, 1, 1⟩ ∧
        (s.pages 0).entries = [(16, ⟨0x10000, 0⟩)] ∧ s'.man.shms.get? 0 = some ⟨8, 100, 0, 1⟩ ∧
        (s'.pages 1).get? 32 = some ⟨0x20000, 1⟩ :=
      exists_shmdt (removeAttached 0 1) (fun _ k _ hk => ⟨k, hk⟩) (by decide +kernel)
    refine ⟨s, s', hreach, hstep, ⟨32, hother⟩, by rw [hafter]; rfl,
      not_detachesExactly hbefore (by rw [hpages]; decide) (by rw [hafter]; decide)⟩

end Shms

end ShellCore.Ipc
