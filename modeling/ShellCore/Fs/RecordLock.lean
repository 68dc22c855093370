import ShellCore.Fs.FileLock

/-!
# Record locks as a map of bytes

What record locks are for: each process has, for each byte of the file, the type of lock that it has last set on a range
with that byte. `F_SETLK` throws away every lock of the process that overlaps the new range, also what of it lies outside.
-/

namespace ShellCore.Fs

/-- For each process and byte, the type of its lock. -/
abbrev ByteLocks := Nat → Int → Option LockType

/-- A byte of a file: `i64::MAX` is the greatest file size. -/
def IsOffset (b : Int) : Prop := 0 ≤ b ∧ b < i64Max

/-- The table has the locks of the map and no others. -/
def RepresentsBytes (locks : List FileLock) (m : ByteLocks) : Prop :=
  ∀ pid b type, IsOffset b →
    (m pid b = some type ↔ ∃ l ∈ locks, l.isRecordOf pid = true ∧ Covers l.start l.len b ∧ l.lockType = type)

/-- The lock that the process sets on a set of bytes. -/
def ByteLocks.set (m : ByteLocks) (pid : Nat) (bytes : Int → Prop) [DecidablePred bytes] (type : Option LockType) : ByteLocks :=
  fun p b => if p = pid ∧ bytes b then type else m p b

/-! ## The bytes that a request asks for -/

/-- An `F_SETLK` call; `pos` is the offset of the open file. -/
structure SetlkCall where
  pid : Nat
  fileSize : Int64
  pos : Int
  req : Flock
deriving DecidableEq

namespace SetlkCall

variable (call : SetlkCall)

/-- The offset that `l_whence` names. -/
def origin : Int :=
  if call.req.lWhence = 0 then 0 else if call.req.lWhence = 1 then call.pos else call.fileSize.toInt

/-- Where the range begins, or ends if its length is negative. -/
def edge : Int := call.origin + call.req.lStart.toInt

/-- The byte is in the range that the caller asks for. -/
def Asks (b : Int) : Prop :=
  if call.req.lLen.toInt < 0 then call.edge + call.req.lLen.toInt ≤ b ∧ b < call.edge
  else if call.req.lLen.toInt = 0 then call.edge ≤ b
  else call.edge ≤ b ∧ b < call.edge + call.req.lLen.toInt

instance (call : SetlkCall) : DecidablePred call.Asks := fun _ => inferInstanceAs (Decidable (ite _ _ _))

/-- The condition on a call: its range begins at an offset of the file, not counted from the position of the open file
unless that is 0, and it takes in each lock of the process that it meets as a whole. -/
structure Whole (locks : List FileLock) (call : SetlkCall) : Prop where
  position : call.req.lWhence = 1 → call.pos = 0
  edge : 0 ≤ call.edge ∧ call.edge ≤ i64Max
  locks : ∀ l ∈ locks, l.isRecordOf call.pid = true → (∃ b, IsOffset b ∧ Covers l.start l.len b ∧ call.Asks b) →
    ∀ b, Covers l.start l.len b → call.Asks b

variable {call : SetlkCall} {start len : Int}

/-- The code works on the range that is asked for. -/
theorem range_spec (hpos : call.req.lWhence = 1 → call.pos = 0) (hedge : 0 ≤ call.edge ∧ call.edge ≤ i64Max)
    (h : call.req.range call.fileSize = some (start, len)) :
    RangeOk start len ∧ ∀ b, IsOffset b → (Covers start len b ↔ call.Asks b) := by
  obtain ⟨base, hbase, hrange⟩ := Option.bind_eq_some_iff.1 h
  have horigin : base = call.origin := by
    unfold Flock.base at hbase
    unfold origin
    split at hbase
    case isTrue hw =>
      cases hbase
      rcases hw with hw | hw
      · rw [if_pos hw]
      · rw [if_neg (by rw [hw]; decide), if_pos hw, hpos hw]
    case isFalse hw =>
      obtain ⟨hw0, hw1⟩ := not_or.1 hw
      obtain ⟨-, hbase⟩ := Option.ite_none_right_eq_some.1 hbase
      rw [if_neg hw0, if_neg hw1]
      exact (Option.some.inj hbase).symm
  have hstart : max (saturatingAdd base call.req.lStart.toInt) 0 = call.edge := by
    rw [horigin]
    change max (max i64Min (min i64Max call.edge)) 0 = call.edge
    unfold i64Min i64Max at *
    omega
  simp only [hstart] at hrange
  unfold Asks
  generalize call.edge = edge at *
  unfold IsOffset Covers RangeOk rangeEnd saturatingAdd i64Min i64Max at *
  split at hrange
  case isTrue hneg =>
    split at hrange
    · cases hrange
    case isFalse hnew =>
      cases hrange
      refine ⟨by omega, fun b hb => ?_⟩
      rw [if_pos hneg, if_neg (by omega)]
      omega
  case isFalse hneg =>
    cases hrange
    refine ⟨by omega, fun b hb => ?_⟩
    rw [if_neg hneg]
    split
    · omega
    · omega

end SetlkCall

/-! ## Runs -/

/-- An accepted request is recorded, the last one first. -/
def setlkStep (s : List SetlkCall × List FileLock) (call : SetlkCall) : List SetlkCall × List FileLock :=
  match setlk s.2 call.pid call.fileSize call.req with
  | some locks => (call :: s.1, locks)
  | none => s

/-- The accepted requests and the table after a sequence of calls. -/
def setlkRun (calls : List SetlkCall) : List SetlkCall × List FileLock := calls.foldl setlkStep ([], [])

/-- For each process and byte, the type in the last request of the process that asks for the byte. -/
def lastSet : List SetlkCall → ByteLocks
  | [] => fun _ _ => none
  | call :: log => (lastSet log).set call.pid call.Asks (call.req.lockType.getD none)

/-- Every call of a run meets the condition when it is made. -/
def WholeCalls (s : List SetlkCall × List FileLock) : List SetlkCall → Prop
  | [] => True
  | call :: calls => call.Whole s.2 ∧ WholeCalls (setlkStep s call) calls

/-- The ranges of the record locks. -/
def RangesOk (locks : List FileLock) : Prop := ∀ l ∈ locks, l.isFlock = false → RangeOk l.start l.len

section

variable {locks locks' : List FileLock} {m : ByteLocks} {l : FileLock} {pid p : Nat} {type : Option LockType} {start len b : Int}

theorem isRecordOf_iff : l.isRecordOf pid = true ↔ l.isFlock = false ∧ l.ownerPid = pid := by
  simp [FileLock.isRecordOf]

theorem isOffset_of_covers (h : RangeOk start len) (hb : Covers start len b) : IsOffset b :=
  ⟨h.1.trans hb.1, hb.2.trans_le (rangeEnd_le start len)⟩

/-- What is in the table after `F_SETLK`. -/
theorem mem_setlkRange (h : setlkRange locks pid type start len = some locks') :
    l ∈ locks' ↔ (l ∈ locks ∧ ¬(l.isRecordOf pid = true ∧ lockRangesOverlap l.start l.len start len = true)) ∨
      ∃ t, type = some t ∧ l = ⟨pid, t, start, len, false⟩ := by
  have hdrop : l ∈ dropOverlapping locks pid start len ↔
      l ∈ locks ∧ ¬(l.isRecordOf pid = true ∧ lockRangesOverlap l.start l.len start len = true) := by
    rw [dropOverlapping, List.mem_filter, Bool.not_eq_true', ← Bool.not_eq_true, Bool.and_eq_true]
  unfold setlkRange at h
  split at h
  · cases h
    rw [hdrop]
    simp
  · obtain ⟨-, h⟩ := Option.ite_none_left_eq_some.1 h
    cases h
    rw [List.mem_append, hdrop, List.mem_singleton]
    simp

theorem RangesOk.setlkRange (hok : RangesOk locks) (hrange : RangeOk start len)
    (h : setlkRange locks pid type start len = some locks') : RangesOk locks' := by
  intro l hl hf
  rcases (mem_setlkRange h).1 hl with ⟨hold, -⟩ | ⟨t, -, rfl⟩
  · exact hok l hold hf
  · exact hrange

/-- `F_SETLK` sets the type on the bytes of the range, if no lock that it throws away reaches beyond them. -/
theorem RepresentsBytes.setlkRange {bytes : Int → Prop} [DecidablePred bytes] (hm : RepresentsBytes locks m)
    (hok : RangesOk locks) (hrange : RangeOk start len) (hbytes : ∀ b, IsOffset b → (Covers start len b ↔ bytes b))
    (hwhole : ∀ l ∈ locks, l.isRecordOf pid = true → (∃ b, IsOffset b ∧ Covers l.start l.len b ∧ bytes b) →
      ∀ b, Covers l.start l.len b → bytes b)
    (h : setlkRange locks pid type start len = some locks') : RepresentsBytes locks' (m.set pid bytes type) := by
  -- a lock that stays has no byte of the range
  have hkept : ∀ l ∈ locks, l.isRecordOf pid = true → lockRangesOverlap l.start l.len start len ≠ true → ∀ b, IsOffset b →
      Covers l.start l.len b → ¬bytes b := by
    intro l hl hrec hov b hb hcov hin
    apply hov
    exact (lockRangesOverlap_iff (hok l hl (isRecordOf_iff.1 hrec).1) hrange).2 ⟨b, hcov, (hbytes b hb).2 hin⟩
  intro p b t hb
  unfold ByteLocks.set
  split
  case isTrue hin =>
    obtain ⟨rfl, hin⟩ := hin
    constructor
    · rintro rfl
      exact ⟨_, (mem_setlkRange h).2 (.inr ⟨t, rfl, rfl⟩), by simp [FileLock.isRecordOf], (hbytes b hb).2 hin, rfl⟩
    · rintro ⟨l, hl, hrec, hcov, rfl⟩
      rcases (mem_setlkRange h).1 hl with ⟨hold, hov⟩ | ⟨t, rfl, rfl⟩
      · exact absurd hin (hkept l hold hrec (fun ho => hov ⟨hrec, ho⟩) b hb hcov)
      · rfl
  case isFalse hout =>
    rw [hm p b t hb]
    constructor
    · rintro ⟨l, hl, hrec, hcov, htype⟩
      refine ⟨l, (mem_setlkRange h).2 (.inl ⟨hl, ?_⟩), hrec, hcov, htype⟩
      rintro ⟨hrec', hov⟩
      obtain ⟨hf, hp⟩ := isRecordOf_iff.1 hrec
      have hpid : p = pid := hp.symm.trans (isRecordOf_iff.1 hrec').2
      obtain ⟨b', hb', hin'⟩ := (lockRangesOverlap_iff (hok l hl hf) hrange).1 hov
      have hoff := isOffset_of_covers hrange hin'
      exact hout ⟨hpid, hwhole l hl hrec' ⟨b', hoff, hb', (hbytes b' hoff).1 hin'⟩ b hcov⟩
    · rintro ⟨l, hl, hrec, hcov, htype⟩
      rcases (mem_setlkRange h).1 hl with ⟨hold, -⟩ | ⟨t', -, rfl⟩
      · exact ⟨l, hold, hrec, hcov, htype⟩
      · exact absurd ⟨(isRecordOf_iff.1 hrec).2.symm, (hbytes b hb).1 hcov⟩ hout

/-- The accepted requests are what the table represents. -/
def Recorded (s : List SetlkCall × List FileLock) : Prop := RangesOk s.2 ∧ RepresentsBytes s.2 (lastSet s.1)

variable {s : List SetlkCall × List FileLock}

theorem Recorded.step {call} (hs : Recorded s) (hwhole : call.Whole s.2) :
    Recorded (setlkStep s call) := by
  unfold setlkStep
  cases hset : setlk s.2 call.pid call.fileSize call.req with
  | none => exact hs
  | some locks =>
    obtain ⟨type, start, len, htype, hreq, hrange⟩ := setlk_eq_some hset
    obtain ⟨hok, hbytes⟩ := SetlkCall.range_spec hwhole.position hwhole.edge hreq
    have hlast : lastSet (call :: s.1) = (lastSet s.1).set call.pid call.Asks type := by
      rw [lastSet, htype]
      rfl
    refine ⟨hs.1.setlkRange hok hrange, ?_⟩
    rw [hlast]
    exact hs.2.setlkRange hs.1 hok hbytes hwhole.locks hrange

theorem Recorded.run {calls} (hs : Recorded s) (hwhole : WholeCalls s calls) :
    Recorded (calls.foldl setlkStep s) := by
  induction calls generalizing s with
  | nil => exact hs
  | cons call calls ih => exact ih (hs.step hwhole.1) hwhole.2

/-- After requests that take in each lock they meet as a whole, the table has for each process and byte the type that the
process has set last on a range with that byte. -/
theorem record_locks_refine {calls : List SetlkCall} (hwhole : WholeCalls ([], []) calls) :
    RepresentsBytes (setlkRun calls).2 (lastSet (setlkRun calls).1) := by
  have hempty : Recorded ([], []) := by
    constructor
    · exact fun l hl => (List.not_mem_nil hl).elim
    · intro pid b type _
      simp [lastSet]
  exact (hempty.run hwhole).2

end

/-- A read lock on ten bytes, a write lock of another process from the end of the file on, and the ten bytes unlocked with
a length that counts backwards. -/
def backwardCalls : List SetlkCall :=
  [⟨1, 100, 0, 0, 0, 0, 10⟩, ⟨2, 100, 0, 1, 2, 0, 0⟩, ⟨1, 100, 0, 2, 0, 10, -10⟩]

theorem wholeCalls_backward : WholeCalls ([], []) backwardCalls := by
  have h1 : setlkStep ([], []) ⟨1, 100, 0, 0, 0, 0, 10⟩ = ([⟨1, 100, 0, 0, 0, 0, 10⟩], [⟨1, .read, 0, 10, false⟩]) := by
    decide +kernel
  have h2 : setlkStep ([⟨1, 100, 0, 0, 0, 0, 10⟩], [⟨1, .read, 0, 10, false⟩]) ⟨2, 100, 0, 1, 2, 0, 0⟩ =
      ([⟨2, 100, 0, 1, 2, 0, 0⟩, ⟨1, 100, 0, 0, 0, 0, 10⟩], [⟨1, .read, 0, 10, false⟩, ⟨2, .write, 100, 0, false⟩]) := by
    decide +kernel
  rw [backwardCalls]
  refine ⟨⟨by decide, by decide, fun l hl => (List.not_mem_nil hl).elim⟩, ?_⟩
  rw [h1]
  refine ⟨⟨by decide, by decide, ?_⟩, ?_⟩
  · intro l hl hrec
    obtain rfl := List.mem_singleton.1 hl
    cases hrec
  rw [h2]
  refine ⟨⟨by decide, by decide, ?_⟩, trivial⟩
  intro l hl hrec _ b hb
  rcases List.mem_cons.1 hl with rfl | hl
  · have hasks : SetlkCall.Asks ⟨1, 100, 0, 2, 0, 10, -10⟩ b ↔ 0 ≤ b ∧ b < 10 := Iff.rfl
    exact hasks.2 hb
  · obtain rfl := List.mem_singleton.1 hl
    cases hrec

theorem record_locks_refine_backward :
    WholeCalls ([], []) backwardCalls ∧ RepresentsBytes (setlkRun backwardCalls).2 (lastSet (setlkRun backwardCalls).1) :=
  ⟨wholeCalls_backward, record_locks_refine wholeCalls_backward⟩

/-- Ten bytes are locked, and then one of them is unlocked. -/
def partCalls : List SetlkCall := [⟨1, 100, 0, 1, 0, 0, 10⟩, ⟨1, 100, 0, 2, 0, 0, 1⟩]

/-- The table has no lock on the other nine any more. -/
theorem unlock_drops_rest : ¬RepresentsBytes (setlkRun partCalls).2 (lastSet (setlkRun partCalls).1) := by
  intro h
  have hset : lastSet (setlkRun partCalls).1 1 5 = some .write := by decide +kernel
  obtain ⟨l, hl, -⟩ := (h 1 5 .write ⟨by decide, by decide⟩).1 hset
  have hempty : (setlkRun partCalls).2 = [] := by decide +kernel
  rw [hempty] at hl
  cases hl

end ShellCore.Fs
