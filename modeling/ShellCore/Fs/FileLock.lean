import Mathlib

/-!
# File locks

A dentry keeps one table with the locks of `flock` and the record locks of `fcntl`. Every attempt to take a lock looks at
the table and changes it under one lock; a call that has to wait tries again from the start.
-/

namespace ShellCore.Fs

open List

/-- `i64::MIN` and `i64::MAX`. -/
def i64Min : Int := -9223372036854775808

def i64Max : Int := 9223372036854775807

def saturatingAdd (a b : Int) : Int := max i64Min (min i64Max (a + b))

/-- `F_RDLCK` and `F_WRLCK`. -/
inductive LockType where
  | read
  | write
deriving DecidableEq

structure FileLock where
  ownerPid : Nat
  lockType : LockType
  start : Int
  /-- 0 for a range up to the end of the file. -/
  len : Int
  isFlock : Bool
deriving DecidableEq

/-- The end of a range, as `lock_ranges_overlap` computes it. -/
def rangeEnd (start len : Int) : Int := if len = 0 then i64Max else saturatingAdd start len

def lockRangesOverlap (aStart aLen bStart bLen : Int) : Bool :=
  aStart < rangeEnd bStart bLen && bStart < rangeEnd aStart aLen

def fileLocksConflict (a : FileLock) (bType : LockType) (bStart bLen : Int) : Bool :=
  (a.lockType = .write || bType = .write) && lockRangesOverlap a.start a.len bStart bLen

namespace FileLock

/-- A record lock of the process. -/
def isRecordOf (l : FileLock) (pid : Nat) : Bool := !l.isFlock && l.ownerPid = pid

/-- A lock that `flock` has taken for the descriptor of the process. -/
def isFlockOf (l : FileLock) (pid fd : Nat) : Bool := l.isFlock && l.ownerPid = pid && l.start.toNat = fd

/-- Who holds the lock: the process, and for `flock` the descriptor. -/
def owner (l : FileLock) : Nat × Nat := (l.ownerPid, if l.isFlock then l.start.toNat else 0)

def overlaps (l m : FileLock) : Bool := lockRangesOverlap l.start l.len m.start m.len

end FileLock

open FileLock

/-! ## `flock` -/

namespace FlockOp

def LOCK_SH : UInt64 := 1
def LOCK_EX : UInt64 := 2
def LOCK_NB : UInt64 := 4
def LOCK_UN : UInt64 := 8

/-- The operations that are not refused with `EINVAL`. -/
def valid (operation : UInt64) : Bool :=
  operation &&& ~~~(LOCK_SH ||| LOCK_EX ||| LOCK_NB ||| LOCK_UN) == 0 &&
    [LOCK_SH, LOCK_EX, LOCK_UN].contains (operation &&& ~~~LOCK_NB)

/-- The type of lock, or `none` for `LOCK_UN`. -/
def want (operation : UInt64) : Option LockType :=
  if operation &&& LOCK_UN ≠ 0 then none
  else if operation &&& LOCK_SH ≠ 0 then some .read
  else some .write

end FlockOp

/-- The lock is converted in place: the first one that the caller owns gets the type. -/
def convert (own : FileLock → Bool) (want : LockType) : List FileLock → List FileLock
  | [] => []
  | l :: rest => if own l then { l with lockType := want } :: rest else l :: convert own want rest

/-- One round of the loop of `sys_flock`; `none` if the lock is not free. -/
def flockRound (locks : List FileLock) (pid fd : Nat) (want : LockType) : Option (List FileLock) :=
  if locks.any (·.isFlockOf pid fd) then some (convert (·.isFlockOf pid fd) want locks)
  else if locks.any fun l => l.isFlock && !l.isFlockOf pid fd && fileLocksConflict l want 0 0 then none
  else some (locks ++ [⟨pid, want, fd, 0, true⟩])

/-- `sys_flock`, up to the end of the first round. -/
def sysFlock (locks : List FileLock) (pid fd : Nat) (operation : UInt64) : List FileLock :=
  if !FlockOp.valid operation then locks
  else
    match FlockOp.want operation with
    | none => locks.filter fun l => !l.isFlockOf pid fd
    | some want => (flockRound locks pid fd want).getD locks

/-! ## Record locks -/

/-- `struct Flock`, as the caller passes it. -/
structure Flock where
  lType : Int16
  lWhence : Int16
  lStart : Int64
  lLen : Int64
deriving DecidableEq

namespace Flock

/-- `none` for a type that is refused; `some none` for `F_UNLCK`. -/
def lockType (req : Flock) : Option (Option LockType) :=
  if req.lType = 0 then some (some .read)
  else if req.lType = 1 then some (some .write)
  else if req.lType = 2 then some none
  else none

/-- The base of the range. The file offset is not known here, and 0 is taken for it. -/
def base (req : Flock) (fileSize : Int64) : Option Int :=
  if req.lWhence = 0 ∨ req.lWhence = 1 then some 0
  else if req.lWhence = 2 then some fileSize.toInt
  else none

/-- The range as start and length; `none` for `EINVAL`. -/
def range (req : Flock) (fileSize : Int64) : Option (Int × Int) :=
  (req.base fileSize).bind fun base =>
    let start := max (saturatingAdd base req.lStart.toInt) 0
    let len := req.lLen.toInt
    if len < 0 then
      let newStart := saturatingAdd start len
      if newStart < 0 then none else some (newStart, -len)
    else some (start, len)

end Flock

variable (locks : List FileLock) (pid : Nat)

/-- The process lets go of its record locks that overlap the range. -/
def dropOverlapping (start len : Int) : List FileLock :=
  locks.filter fun l => !(l.isRecordOf pid && lockRangesOverlap l.start l.len start len)

/-- The lock of another process that is in the way. -/
def conflicting (type : LockType) (start len : Int) : Option FileLock :=
  locks.find? fun l => !l.isFlock && !(l.ownerPid = pid) && fileLocksConflict l type start len

/-- `F_SETLK`, and one round of the loop of `F_SETLKW`, on a range; `none` if the lock is not free. -/
def setlkRange (type : Option LockType) (start len : Int) : Option (List FileLock) :=
  match type with
  | none => some (dropOverlapping locks pid start len)
  | some type =>
    if (conflicting locks pid type start len).isSome then none
    else some (dropOverlapping locks pid start len ++ [⟨pid, type, start, len, false⟩])

/-- `F_SETLK`: the new table if the request is accepted. -/
def setlk (fileSize : Int64) (req : Flock) : Option (List FileLock) :=
  match req.lockType, req.range fileSize with
  | some type, some (start, len) => setlkRange locks pid type start len
  | _, _ => none

/-! ## Ranges -/

/-- The byte is in the range. -/
def Covers (start len b : Int) : Prop := start ≤ b ∧ b < rangeEnd start len

instance (start len b : Int) : Decidable (Covers start len b) := inferInstanceAs (Decidable (_ ∧ _))

/-- The starts and lengths that ranges have. -/
def RangeOk (start len : Int) : Prop := 0 ≤ start ∧ start ≤ i64Max ∧ 0 ≤ len

section

variable {start len aStart aLen bStart bLen : Int}

theorem saturatingAdd_le (a b : Int) : saturatingAdd a b ≤ i64Max := by
  unfold saturatingAdd i64Min i64Max
  omega

theorem rangeEnd_le (start len : Int) : rangeEnd start len ≤ i64Max := by
  unfold rangeEnd
  split
  · exact Int.le_refl _
  · exact saturatingAdd_le start len

/-- Only a range at the very end is empty. -/
theorem lt_rangeEnd (h : RangeOk start len) (hlt : start < i64Max) : start < rangeEnd start len := by
  obtain ⟨h0, -, hlen⟩ := h
  unfold rangeEnd saturatingAdd i64Min i64Max at *
  split <;> omega

/-- Ranges overlap if they have a byte in common. -/
theorem lockRangesOverlap_iff (ha : RangeOk aStart aLen) (hb : RangeOk bStart bLen) :
    lockRangesOverlap aStart aLen bStart bLen = true ↔ ∃ b, Covers aStart aLen b ∧ Covers bStart bLen b := by
  have hae := rangeEnd_le aStart aLen
  have hbe := rangeEnd_le bStart bLen
  rw [lockRangesOverlap, Bool.and_eq_true, decide_eq_true_eq, decide_eq_true_eq]
  constructor
  · rintro ⟨h1, h2⟩
    have ha' := lt_rangeEnd ha (by omega)
    have hb' := lt_rangeEnd hb (by omega)
    refine ⟨max aStart bStart, ?_, ?_⟩
    · unfold Covers
      omega
    · unfold Covers
      omega
  · rintro ⟨b, ha', hb'⟩
    unfold Covers at ha' hb'
    omega

theorem lockRangesOverlap_comm : lockRangesOverlap aStart aLen bStart bLen = lockRangesOverlap bStart bLen aStart aLen :=
  Bool.and_comm ..

/-- Two ranges up to the end of the file overlap. -/
theorem overlap_of_len_zero : lockRangesOverlap start 0 aStart 0 = true → lockRangesOverlap start 0 0 0 = true := by
  simp only [lockRangesOverlap, rangeEnd, ite_true, Bool.and_eq_true, decide_eq_true_eq]
  rintro ⟨h, -⟩
  exact ⟨h, by decide⟩

end

/-! ## Exclusion -/

/-- Two locks that must not be in the table together: of one kind, of different owners, on overlapping ranges, and one of
them a write lock. -/
def Clash (l m : FileLock) : Prop :=
  l.isFlock = m.isFlock ∧ l.owner ≠ m.owner ∧ l.overlaps m = true ∧ (l.lockType = .write ∨ m.lockType = .write)

instance (l m : FileLock) : Decidable (Clash l m) := inferInstanceAs (Decidable (_ ∧ _))

/-- What the table of a dentry is to satisfy. -/
def Exclusive : Prop := ∀ l ∈ locks, ∀ m ∈ locks, ¬Clash l m

/-- An entry of `flock` reaches up to the end of the file. -/
def FlocksWhole : Prop := ∀ l ∈ locks, l.isFlock = true → l.len = 0

/-- What a call tries on the locks of the dentry. -/
inductive LockCall where
  | flock (pid fd : Nat) (operation : UInt64)
  /-- `F_SETLK`, or one round of `F_SETLKW`. -/
  | setlk (pid : Nat) (fileSize : Int64) (req : Flock)

def lockStep : LockCall → List FileLock
  | .flock pid fd operation => sysFlock locks pid fd operation
  | .setlk pid fileSize req => (setlk locks pid fileSize req).getD locks

/-- Any calls, in any order of their rounds. -/
def lockRun (calls : List LockCall) : List FileLock := calls.foldl lockStep locks

/-- The condition on a call: a lock that the caller has already is made a write lock only while nobody else has one. -/
def LockCall.Orderly : LockCall → Prop
  | .flock pid fd operation =>
    FlockOp.valid operation = true → FlockOp.want operation = some .write → locks.any (·.isFlockOf pid fd) = true →
      ∀ l ∈ locks, l.isFlock = true → l.isFlockOf pid fd = true
  | .setlk .. => True

instance (locks : List FileLock) : (call : LockCall) → Decidable (call.Orderly locks)
  | .flock pid fd operation =>
    inferInstanceAs (Decidable (FlockOp.valid operation = true → FlockOp.want operation = some .write →
      locks.any (·.isFlockOf pid fd) = true → ∀ l ∈ locks, l.isFlock = true → l.isFlockOf pid fd = true))
  | .setlk .. => inferInstanceAs (Decidable True)

/-- Every call meets the condition when it is made. -/
def OrderlyCalls (locks : List FileLock) : List LockCall → Prop
  | [] => True
  | call :: calls => call.Orderly locks ∧ OrderlyCalls (lockStep locks call) calls

instance decidableOrderlyCalls (locks : List FileLock) : (calls : List LockCall) → Decidable (OrderlyCalls locks calls)
  | [] => inferInstanceAs (Decidable True)
  | call :: calls =>
    have := decidableOrderlyCalls (lockStep locks call) calls
    inferInstanceAs (Decidable (call.Orderly locks ∧ OrderlyCalls (lockStep locks call) calls))

section

variable {locks locks' : List FileLock} {l m : FileLock} {pid fd : Nat} {want : LockType}

theorem Clash.symm (h : Clash l m) : Clash m l := by
  obtain ⟨hkind, howner, hov, htype⟩ := h
  refine ⟨hkind.symm, howner.symm, ?_, htype.symm⟩
  rw [overlaps, lockRangesOverlap_comm]
  exact hov

variable (h : Exclusive locks)

include h

/-- A part of the table is exclusive too. -/
theorem Exclusive.sub (hsub : ∀ l ∈ locks', l ∈ locks) : Exclusive locks' :=
  fun l hl m hm => h l (hsub l hl) m (hsub m hm)

/-- A lock that clashes with none can be added. -/
theorem Exclusive.append (hnew : ∀ l ∈ locks, ¬Clash l m) : Exclusive (locks ++ [m]) := by
  intro x hx y hy hclash
  rcases mem_append.1 hx with hxold | hxnew <;> rcases mem_append.1 hy with hyold | hynew
  · exact h x hxold y hyold hclash
  · obtain rfl := mem_singleton.1 hynew
    exact hnew x hxold hclash
  · obtain rfl := mem_singleton.1 hxnew
    exact hnew y hyold hclash.symm
  · apply hclash.2.1
    rw [mem_singleton.1 hxnew, mem_singleton.1 hynew]

omit h

theorem isFlockOf_iff : l.isFlockOf pid fd = true ↔ l.isFlock = true ∧ l.owner = (pid, fd) := by
  unfold isFlockOf owner
  cases hf : l.isFlock with
  | false | true => simp

/-- A converted table has the old locks, and those of the owner with any type. -/
theorem mem_convert {own : FileLock → Bool} (h : l ∈ convert own want locks) :
    l ∈ locks ∨ ∃ l' ∈ locks, own l' = true ∧ l = { l' with lockType := want } := by
  induction locks with
  | nil => cases h
  | cons x rest ih =>
    rw [convert] at h
    split at h
    case isTrue hown =>
      rcases mem_cons.1 h with rfl | h
      · exact .inr ⟨x, mem_cons_self, hown, rfl⟩
      · exact .inl (mem_cons_of_mem _ h)
    case isFalse =>
      rcases mem_cons.1 h with rfl | h
      · exact .inl mem_cons_self
      · rcases ih h with h | ⟨l', hl', hown, rfl⟩
        · exact .inl (mem_cons_of_mem _ h)
        · exact .inr ⟨l', mem_cons_of_mem _ hl', hown, rfl⟩

/-- A lock of the converted table is one of the old table but for the type, which is the old one unless the caller owns
the lock. -/
theorem of_mem_convert (h : l ∈ convert (·.isFlockOf pid fd) want locks) :
    ∃ l' ∈ locks, l.isFlock = l'.isFlock ∧ l.owner = l'.owner ∧ l.start = l'.start ∧ l.len = l'.len ∧
      (l = l' ∨ l'.isFlockOf pid fd = true ∧ l.lockType = want) := by
  rcases mem_convert h with h | ⟨l', hl', hown, rfl⟩
  · exact ⟨l, h, rfl, rfl, rfl, rfl, .inl rfl⟩
  · exact ⟨l', hl', rfl, rfl, rfl, rfl, .inr ⟨hown, rfl⟩⟩

include h

/-- A conversion to a read lock, or one while nobody else has a lock. -/
theorem Exclusive.convert (hwant : want = .write → ∀ l ∈ locks, l.isFlock = true → l.isFlockOf pid fd = true) :
    Exclusive (convert (·.isFlockOf pid fd) want locks) := by
  intro x hx y hy hclash
  obtain ⟨hkind, howner, hov, htype⟩ := hclash
  obtain ⟨x', hx', hxk, hxo, hxs, hxl, hxt⟩ := of_mem_convert hx
  obtain ⟨y', hy', hyk, hyo, hys, hyl, hyt⟩ := of_mem_convert hy
  have hclash' : x'.lockType = .write ∨ y'.lockType = .write → Clash x' y' := by
    intro htype'
    refine ⟨?_, ?_, ?_, htype'⟩
    · rw [← hxk, ← hyk, hkind]
    · rw [← hxo, ← hyo]
      exact howner
    · rw [overlaps, ← hxs, ← hxl, ← hys, ← hyl]
      exact hov
  -- the write lock of the clash is an old one, or the converted one; then the other lock is of the same owner
  have hcase : ∀ {u v u' v' : FileLock}, u' ∈ locks → v' ∈ locks → u.isFlock = u'.isFlock → u.owner = u'.owner →
      v.isFlock = v'.isFlock → v.owner = v'.owner → u.isFlock = v.isFlock → u.owner ≠ v.owner →
      (u = u' ∨ u'.isFlockOf pid fd = true ∧ u.lockType = want) → u.lockType = .write → u'.lockType = .write := by
    intro u v u' v' _ hv' huk huo hvk hvo hk ho hut hw
    rcases hut with rfl | ⟨hown, hut⟩
    · exact hw
    · exfalso
      obtain ⟨hf, hu⟩ := isFlockOf_iff.1 hown
      have hvf : v'.isFlock = true := by rw [← hvk, ← hk, huk, hf]
      obtain ⟨-, hv⟩ := isFlockOf_iff.1 (hwant (hut.symm.trans hw) v' hv' hvf)
      apply ho
      rw [huo, hvo, hu, hv]
  rcases htype with hw | hw
  · exact h x' hx' y' hy' (hclash' (.inl (hcase hx' hy' hxk hxo hyk hyo hkind howner hxt hw)))
  · exact h x' hx' y' hy' (hclash' (.inr (hcase hy' hx' hyk hyo hxk hxo hkind.symm howner.symm hyt hw)))

/-- A new lock of `flock`: the check against the whole file finds every clash. -/
theorem Exclusive.flockRound (hwhole : FlocksWhole locks)
    (hwant : want = .write → locks.any (·.isFlockOf pid fd) = true → ∀ l ∈ locks, l.isFlock = true → l.isFlockOf pid fd = true)
    (hround : flockRound locks pid fd want = some locks') : Exclusive locks' := by
  unfold Fs.flockRound at hround
  split at hround
  case isTrue hown =>
    cases hround
    exact h.convert fun hw => hwant hw hown
  case isFalse =>
    split at hround
    · cases hround
    case isFalse hfree =>
      cases hround
      apply h.append
      intro l hl hclash
      obtain ⟨hkind, howner, hov, htype⟩ := hclash
      apply hfree
      refine any_eq_true.2 ⟨l, hl, ?_⟩
      have hlen := hwhole l hl hkind
      have hnot : l.isFlockOf pid fd = false := by
        rw [Bool.eq_false_iff]
        intro hown
        apply howner
        rw [(isFlockOf_iff.1 hown).2]
        simp [owner]
      rw [overlaps, hlen] at hov
      have hov' : lockRangesOverlap l.start l.len 0 0 = true := by
        rw [hlen]
        exact overlap_of_len_zero hov
      have hflock : l.isFlock = true := hkind
      simpa [hflock, hnot, fileLocksConflict, hov'] using htype

theorem Exclusive.sysFlock (hwhole : FlocksWhole locks) {operation}
    (hord : (LockCall.flock pid fd operation).Orderly locks) : Exclusive (sysFlock locks pid fd operation) := by
  unfold Fs.sysFlock
  split
  · exact h
  case isFalse hvalid =>
    split
    · exact h.sub fun l hl => (mem_filter.1 hl).1
    case h_2 want hw =>
      cases hround : Fs.flockRound locks pid fd want with
      | none => exact h
      | some locks' =>
        refine h.flockRound hwhole ?_ hround
        rintro rfl hown
        exact hord (by simpa using hvalid) hw hown

/-- `F_SETLK` keeps the exclusion. -/
theorem Exclusive.setlkRange {type : Option LockType} {start len}
    (hset : setlkRange locks pid type start len = some locks') : Exclusive locks' := by
  have hdrop : Exclusive (dropOverlapping locks pid start len) := h.sub fun l hl => (mem_filter.1 hl).1
  unfold Fs.setlkRange at hset
  split at hset
  · cases hset
    exact hdrop
  case h_2 type =>
    split at hset
    · cases hset
    case isFalse hfree =>
      cases hset
      apply hdrop.append
      intro l hl hclash
      obtain ⟨hkind, howner, hov, htype⟩ := hclash
      apply hfree
      refine find?_isSome.2 ⟨l, (mem_filter.1 hl).1, ?_⟩
      have hf : l.isFlock = false := hkind
      have hpid : l.ownerPid ≠ pid := by
        intro hpid
        apply howner
        simp [owner, hf, hpid]
      rw [overlaps] at hov
      simpa [hf, hpid, fileLocksConflict, hov] using htype

omit h

theorem FlocksWhole.sysFlock (h : FlocksWhole locks) {operation} : FlocksWhole (sysFlock locks pid fd operation) := by
  unfold Fs.sysFlock
  split
  · exact h
  · split
    · exact fun l hl => h l (mem_filter.1 hl).1
    case h_2 want hw =>
      cases hround : Fs.flockRound locks pid fd want with
      | none => exact h
      | some locks' =>
        unfold Fs.flockRound at hround
        split at hround
        · cases hround
          intro l hl hf
          obtain ⟨l', hl', hk, -, -, hlen, -⟩ := of_mem_convert hl
          rw [hlen]
          exact h l' hl' (hk.symm.trans hf)
        · split at hround
          · cases hround
          · cases hround
            intro l hl hf
            rcases mem_append.1 hl with hl | hl
            · exact h l hl hf
            · obtain rfl := mem_singleton.1 hl
              rfl

theorem FlocksWhole.setlkRange (h : FlocksWhole locks) {type : Option LockType} {start len}
    (hset : setlkRange locks pid type start len = some locks') : FlocksWhole locks' := by
  have hdrop : FlocksWhole (dropOverlapping locks pid start len) := fun l hl => h l (mem_filter.1 hl).1
  unfold Fs.setlkRange at hset
  split at hset
  · cases hset
    exact hdrop
  · split at hset
    · cases hset
    · cases hset
      intro l hl hf
      rcases mem_append.1 hl with hl | hl
      · exact hdrop l hl hf
      · obtain rfl := mem_singleton.1 hl
        cases hf

/-- An accepted `F_SETLK` is one on the range of the request. -/
theorem setlk_eq_some {fileSize req} (h : setlk locks pid fileSize req = some locks') :
    ∃ type start len, req.lockType = some type ∧ req.range fileSize = some (start, len) ∧
      setlkRange locks pid type start len = some locks' := by
  unfold setlk at h
  split at h
  case h_1 type start len htype hrange => exact ⟨type, start, len, htype, hrange, h⟩
  case h_2 => cases h

theorem exclusive_step (h : Exclusive locks ∧ FlocksWhole locks) {call} (hord : call.Orderly locks) :
    Exclusive (lockStep locks call) ∧ FlocksWhole (lockStep locks call) := by
  obtain ⟨hex, hwhole⟩ := h
  cases call with
  | flock pid fd operation => exact ⟨hex.sysFlock hwhole hord, hwhole.sysFlock⟩
  | setlk pid fileSize req =>
    have hstep : lockStep locks (.setlk pid fileSize req) = (setlk locks pid fileSize req).getD locks := rfl
    rw [hstep]
    cases hset : setlk locks pid fileSize req with
    | none => exact ⟨hex, hwhole⟩
    | some locks' =>
      obtain ⟨type, start, len, -, -, hrange⟩ := setlk_eq_some hset
      exact ⟨hex.setlkRange hrange, hwhole.setlkRange hrange⟩

theorem exclusive_lockRun {calls} (h : Exclusive locks ∧ FlocksWhole locks) (hord : OrderlyCalls locks calls) :
    Exclusive (lockRun locks calls) ∧ FlocksWhole (lockRun locks calls) := by
  induction calls generalizing locks with
  | nil => exact h
  | cons call calls ih => exact ih (exclusive_step h hord.1) hord.2

/-- Calls that make a lock of the caller a write lock only while nobody else has one keep the locks exclusive. -/
theorem locks_exclusive {calls : List LockCall} (hord : OrderlyCalls [] calls) : Exclusive (lockRun [] calls) := by
  have hempty : Exclusive ([] : List FileLock) ∧ FlocksWhole [] :=
    ⟨fun l hl => (not_mem_nil hl).elim, fun l hl => (not_mem_nil hl).elim⟩
  exact (exclusive_lockRun hempty hord).1

/-- A lock that is taken, made a write lock and given up, with another process in between. -/
theorem locks_exclusive_conversion :
    OrderlyCalls [] [.flock 1 3 1, .flock 1 3 2, .flock 2 3 5, .flock 1 3 8, .flock 2 3 5] ∧
      Exclusive (lockRun [] [.flock 1 3 1, .flock 1 3 2, .flock 2 3 5, .flock 1 3 8, .flock 2 3 5]) := by
  have hord : OrderlyCalls [] [.flock 1 3 1, .flock 1 3 2, .flock 2 3 5, .flock 1 3 8, .flock 2 3 5] := by
    decide +kernel
  exact ⟨hord, locks_exclusive hord⟩

/-- Two processes share the lock, and then one of them makes it a write lock. -/
theorem converted_lock_clashes : ¬Exclusive (lockRun [] [.flock 1 3 1, .flock 2 3 1, .flock 1 3 2]) := by
  unfold Exclusive
  decide +kernel

end

end ShellCore.Fs
