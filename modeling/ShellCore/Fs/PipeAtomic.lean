import ShellCore.Fs.PipeWaiters

/-!
# Small writes to a pipe

A write of at most one page is stored whole or not at all, provided that the buffer has no room or enough of it. With less
room `write` stores what fits and sleeps, and `write_nonblock` stores what fits and returns.
-/

namespace ShellCore.Fs.Pipe

open Function

variable {τ α : Type}

/-- What a write has still to store, and how much it has stored. -/
def After.unwritten : After α → Option (List α × Nat)
  | sleep rest already => some (rest, already)
  | _ => none

def Pc.unwritten : Pc τ α → Option (List α × Nat)
  | writeLoop rest already | writeSignal rest already | writeBlock rest already | writeWait rest already
  | writeRemove rest already => some (rest, already)
  | writeNonblock bytes => some (bytes, 0)
  | wakeUpOne _ _ k | popped _ _ _ k | wakeUpTask _ _ _ k => k.unwritten
  | _ => none

theorem unwritten_woke (queue : PipeEnd) (all : Bool) (k : After α) : (woke queue all k : Pc τ α).unwritten = k.unwritten := by
  cases all <;> cases k <;> rfl

variable [DecidableEq τ] [Fintype τ] {s s' : Pipe τ α} {t : τ} {cmd : Cmd τ α}

/-- A step of a task that stores nothing: a write has as much to store as before, begins or is over. -/
def Keeps (s s' : Pipe τ α) (t : τ) : Prop :=
  ∃ p, s'.pc = update s.pc t p ∧ s'.accepted = s.accepted ∧
    (p.unwritten = (s.pc t).unwritten ∨ ∀ w ∈ p.unwritten, w.2 = 0)

/-- A step of a task that stores what there is room for. -/
structure Stores (s s' : Pipe τ α) (t : τ) (rest : List α) (already : Nat) (p : Pc τ α) : Prop where
  from_pc : s.pc t = .writeLoop rest already ∨ s.pc t = .writeNonblock rest ∧ already = 0
  pc : s'.pc = update s.pc t p
  accepted : s'.accepted = s.accepted ++ rest.take s.ring.availableWrite
  room : s.ring.availableWrite ≠ 0
  done : p.unwritten = none ∨
    s.ring.availableWrite < rest.length ∧
      p.unwritten = some (rest.drop s.ring.availableWrite, already + s.ring.availableWrite)

section

variable {s₁ : Pipe τ α} {p : Pc τ α} (hpc : s₁.pc = s.pc) (hacc : s₁.accepted = s.accepted)
include hpc hacc

omit [Fintype τ] in
theorem keeps_on (h : p.unwritten = (s.pc t).unwritten) : Keeps s (s₁.goto t p) t := ⟨p, by rw [goto, hpc], hacc, .inl h⟩

omit [Fintype τ] in
theorem keeps_fresh (h : ∀ w ∈ p.unwritten, w.2 = 0) : Keeps s (s₁.goto t p) t := ⟨p, by rw [goto, hpc], hacc, .inr h⟩

theorem keeps_dropEnd {side} : Keeps s (s₁.dropEnd t side) t := by
  unfold dropEnd
  dsimp only
  split
  · refine ⟨.wakeUpOne side.other true .user, ?_, hacc, .inr nofun⟩
    simp [goto, hpc]
  · exact keeps_fresh hpc hacc nofun

omit [Fintype τ] in
theorem keeps_same : Keeps s s₁ t := ⟨s.pc t, hpc.trans (update_eq_self ..).symm, hacc, .inl rfl⟩

end

theorem keeps_or_stores_next {interrupted} (h : s.next t interrupted = some s') :
    Keeps s s' t ∨ ∃ rest already p, Stores s s' t rest already p := by
  unfold Pipe.next at h
  cases hpc : s.pc t <;> simp only [hpc] at h
  case user => cases h
  case readLoop want =>
    cases h
    unfold readSection
    dsimp only
    split
    · exact .inl (keeps_fresh rfl rfl (by split <;> nofun))
    · exact .inl (keeps_fresh rfl rfl nofun)
  case readBlock | writeBlock =>
    cases h
    unfold block
    split <;> exact .inl (keeps_on rfl rfl (by rw [hpc]; rfl))
  case readWait | writeWait =>
    unfold schedule at h
    split at h <;> cases h
    · exact .inl (keeps_same rfl rfl)
    · exact .inl (keeps_on rfl rfl (by rw [hpc]; rfl))
  case readRemove | writeRemove =>
    cases h
    exact .inl (keeps_on rfl rfl (by rw [hpc]; rfl))
  case readRecheck =>
    cases h
    exact .inl (keeps_fresh rfl rfl (by split_ifs <;> nofun))
  case writeSignal =>
    cases h
    split
    · exact .inl (keeps_fresh rfl rfl nofun)
    · exact .inl (keeps_on rfl rfl (by rw [hpc]; rfl))
  case writeLoop rest already =>
    cases h
    unfold writeSection
    dsimp only
    split_ifs with hfull hclosed hpos hnil hclosed hfits
    · exact .inl (keeps_fresh rfl rfl nofun)
    · exact .inl (keeps_on rfl rfl (by rw [hpc]; rfl))
    · exact .inl (keeps_on rfl rfl (by rw [hpc]; rfl))
    · exact .inl (keeps_fresh rfl rfl nofun)
    · exact .inl (keeps_fresh rfl rfl nofun)
    · exact .inr ⟨rest, already, _, .inl hpc, rfl, rfl, hfull, .inl rfl⟩
    · exact .inr ⟨rest, already, _, .inl hpc, rfl, rfl, hfull, .inr ⟨Nat.lt_of_not_le hfits, rfl⟩⟩
  case writeNonblock bytes =>
    cases h
    unfold writeNonblockSection
    dsimp only
    split_ifs with hnone
    · exact .inl (keeps_fresh rfl rfl nofun)
    · refine .inr ⟨bytes, 0, _, .inr ⟨hpc, rfl⟩, rfl, rfl, ?_, .inl rfl⟩
      intro hfull
      simp [hfull] at hnone
  case wakeUpOne queue all k =>
    split at h <;> cases h
    · exact .inl (keeps_on rfl rfl (by rw [hpc]; cases k <;> rfl))
    · exact .inl (keeps_on rfl rfl (by rw [hpc]; rfl))
  case popped queue all u k =>
    cases h
    unfold look
    split
    · exact .inl (keeps_on rfl rfl (by rw [hpc, unwritten_woke]; rfl))
    all_goals exact .inl (keeps_on rfl rfl (by rw [hpc]; rfl))
  case wakeUpTask =>
    cases h
    exact .inl (keeps_on rfl rfl (by rw [hpc, unwritten_woke]; rfl))
  case leaving =>
    cases h
    exact .inl (keeps_dropEnd rfl rfl)

theorem keeps_or_stores (h : s.step t cmd = some s') : Keeps s s' t ∨ ∃ rest already p, Stores s s' t rest already p := by
  cases cmd with
  | dup =>
    cases (Option.ite_none_right_eq_some.1 h).2
    exact .inl (keeps_same rfl rfl)
  | close =>
    cases (Option.ite_none_right_eq_some.1 h).2
    exact .inl (keeps_dropEnd rfl rfl)
  | read | write | writeNonblock | probe =>
    obtain ⟨-, -, rfl⟩ := call_eq h
    exact .inl (keeps_fresh rfl rfl (by simp [Pc.unwritten]))
  | signal =>
    cases h
    exact .inl (keeps_same rfl rfl)
  | next interrupted => exact keeps_or_stores_next h

/-! ## Room for a small write -/

/-- A write of at most one page that comes to store its bytes finds no room or enough. -/
def Roomy (s : Pipe τ α) (t : τ) : Prop :=
  ∀ bytes, s.pc t = .writeLoop bytes 0 ∨ s.pc t = .writeNonblock bytes → bytes.length ≤ pipeBufPageSize →
    s.ring.availableWrite = 0 ∨ bytes.length ≤ s.ring.availableWrite

def RoomyStep (s s' : Pipe τ α) : Prop := ∃ t cmd, s.Roomy t ∧ s.step t cmd = some s'

/-- A write of at most one page has stored nothing yet. -/
def Unsplit (s : Pipe τ α) : Prop :=
  ∀ t rest already, (s.pc t).unwritten = some (rest, already) → already + rest.length ≤ pipeBufPageSize → already = 0

/-- The step puts nothing of the write into the byte stream, or all of it in one piece. -/
def Whole (s s' : Pipe τ α) (t : τ) (bytes : List α) : Prop :=
  s'.accepted = s.accepted ∨ s'.accepted = s.accepted ++ bytes ∧ (s'.pc t).unwritten = none

omit [Fintype τ] in
theorem Stores.whole {rest p} (h : Stores s s' t rest 0 p) (hroomy : s.Roomy t)
    (hsmall : rest.length ≤ pipeBufPageSize) : s'.accepted = s.accepted ++ rest ∧ p.unwritten = none := by
  have hfits := (hroomy rest (h.from_pc.imp_right And.left) hsmall).resolve_left h.room
  refine ⟨by rw [h.accepted, List.take_of_length_le hfits], h.done.resolve_right ?_⟩
  rintro ⟨hlt, -⟩
  omega

theorem Unsplit.step (h : s.Unsplit) (hroomy : s.Roomy t) (hstep : s.step t cmd = some s') : s'.Unsplit := by
  intro u
  rcases keeps_or_stores hstep with ⟨p, hpc, -, hkeep⟩ | ⟨rest, already, p, hst⟩
  · rw [hpc]
    refine forall_update u (fun rest already hp hsmall => ?_) h
    exact hkeep.elim (fun hold => h t rest already (hold.symm.trans hp) hsmall) fun h0 => h0 _ hp
  · rw [hst.pc]
    refine forall_update u (fun rest' already' hp hsmall => ?_) h
    rcases hst.done with hdone | ⟨hlt, hsplit⟩
    · cases hdone.symm.trans hp
    · -- what is left of a write that was split is as long as the write less what was stored
      cases hsplit.symm.trans hp
      have htotal : already + rest.length ≤ pipeBufPageSize := by simp at hsmall; omega
      have hold : (s.pc t).unwritten = some (rest, already) := by
        rcases hst.from_pc with hpc | ⟨hpc, rfl⟩ <;> rw [hpc] <;> rfl
      obtain rfl := h t rest already hold htotal
      cases (hst.whole hroomy (by omega)).2.symm.trans hp

/-- With room for small writes, a write of at most one page enters the byte stream in one piece or not at all. -/
theorem small_write_whole (zero : α) (hrun : Relation.ReflTransGen RoomyStep (make zero) s) (hroomy : s.Roomy t)
    (hstep : s.step t cmd = some s') {rest : List α} {already : Nat} (hw : (s.pc t).unwritten = some (rest, already))
    (hsmall : already + rest.length ≤ pipeBufPageSize) : already = 0 ∧ s.Whole s' t rest := by
  have hunsplit : s.Unsplit := inv_of_reachable (by intro _ _ _ h; cases h) (fun _ _ h ⟨_, _, hr, hs⟩ => h.step hr hs) hrun
  obtain rfl := hunsplit t rest already hw hsmall
  refine ⟨rfl, ?_⟩
  rcases keeps_or_stores hstep with ⟨p, -, hacc, -⟩ | ⟨rest', already', p, hst⟩
  · exact .inl hacc
  · have hold : (s.pc t).unwritten = some (rest', already') := by
      rcases hst.from_pc with hpc | ⟨hpc, rfl⟩ <;> rw [hpc] <;> rfl
    cases hw.symm.trans hold
    obtain ⟨hacc, hp⟩ := hst.whole hroomy (by omega)
    refine .inr ⟨hacc, ?_⟩
    rw [hst.pc, update_self, hp]

/-- Two bytes, into an empty buffer. -/
theorem small_write_whole_empty : ∃ s s' : Pipe (Fin 1) Nat,
    s.pc 0 = .writeLoop [1, 2] 0 ∧ s.step 0 (.next false) = some s' ∧ s.Whole s' 0 [1, 2] := by
  have hrun : Relation.ReflTransGen RoomyStep (make 0) ((make 0 : Pipe (Fin 1) Nat).goto 0 (.writeLoop [1, 2] 0)) :=
    .single ⟨0, .write [1, 2], (by rintro _ (h | h) <;> cases h), rfl⟩
  refine ⟨_, _, rfl, rfl, (small_write_whole 0 hrun ?_ (show step _ 0 (.next false) = some _ from rfl) rfl (by decide)).2⟩
  rintro bytes h -
  obtain rfl : [1, 2] = bytes := by simpa [goto] using h
  exact .inr (by decide)

/-- With room for one byte, a non-blocking write of two bytes stores one and returns. -/
theorem small_write_torn : ∃ s s' : Pipe (Fin 2) Nat, Relation.ReflTransGen Step (make 0) s ∧
    s.pc 1 = .writeNonblock [1, 2] ∧ s.step 1 (.next false) = some s' ∧ s'.accepted = s.accepted ++ [1] ∧
    (s'.pc 1).unwritten = none := by
  obtain ⟨bulk, hbulk⟩ : ∃ bulk : List Nat, bulk.length = ringBufferSize - 1 := ⟨List.replicate _ 0, List.length_replicate ..⟩
  have hnew := (PipeRingBuffer.holds_new 0).availableWrite_eq
  have hroom : ((PipeRingBuffer.new 0).writeBytes bulk).availableWrite = 1 := by
    rw [((PipeRingBuffer.holds_new 0).writeBytes (by simp [hbulk])).availableWrite_eq, List.nil_append, hbulk]
    decide
  have hfill : ((make 0 : Pipe (Fin 2) Nat).goto 0 (.writeLoop bulk 0)).step 0 (.next false) =
      some (((make 0).goto 0 (.writeLoop bulk 0)).accept bulk |>.goto 0 (.wakeUpOne .read false (.leave .write))) := by
    have hpos : bulk ≠ [] := fun h => by simp [h, ringBufferSize, pipeBufPageSize, pipeBufPages] at hbulk
    have hle : bulk.length ≤ ringBufferSize := by omega
    simp [step, next, writeSection, goto, make, hnew, hpos, hle, endsClosed, PipeRingBuffer.ringBufferSize_pos.ne',
      List.take_of_length_le hle]
  refine ⟨_, _, .tail (.tail (.single ⟨0, .write bulk, rfl⟩) ⟨0, .next false, hfill⟩) ⟨1, .writeNonblock [1, 2], rfl⟩, rfl, rfl,
    ?_, ?_⟩
  · simp [writeNonblockSection, accept, goto, make, hroom, endsClosed]
  · simp [writeNonblockSection, accept, goto, make, hroom, endsClosed, Pc.unwritten, After.unwritten]

end ShellCore.Fs.Pipe
