import ShellCore.Lib.Ring
import ShellCore.Lib.Actors
import ShellCore.Sched.WaitQueue

/-!
# Pipes

Tasks read from and write to one pipe. A section under the lock of the ring buffer, of a wait queue or of a task is
one step. The ends of the pipe are reference counted, by the descriptors and by the calls that are under way.
-/

namespace ShellCore.Fs

open Nat hiding all

open Function List

open Sched (Sleep)

/-! ## The ring buffer -/

def pipeBufPageSize : Nat := 4096

def pipeBufPages : Nat := 16

def ringBufferSize : Nat := pipeBufPageSize * pipeBufPages

inductive RingBufferStatus where
  | full
  | empty
  | normal
deriving DecidableEq

structure PipeRingBuffer (α : Type) where
  /-- The bytes of each page. -/
  frames : Nat → Nat → α
  head : Nat
  tail : Nat
  status : RingBufferStatus

namespace PipeRingBuffer

variable {α : Type}

def new (zero : α) : PipeRingBuffer α := ⟨fun _ _ => zero, 0, 0, .empty⟩

variable (b : PipeRingBuffer α)

/-- `get_byte_mut`, as a place to read from. -/
def getByte (index : Nat) : α := b.frames (index / pipeBufPageSize) (index % pipeBufPageSize)

/-- `get_byte_mut`, as a place to write to. -/
def setByte (index : Nat) (byte : α) : PipeRingBuffer α :=
  let frame := index / pipeBufPageSize
  { b with
    frames := update b.frames frame (update (b.frames frame) (index % pipeBufPageSize) byte) }

def writeByte (byte : α) : PipeRingBuffer α :=
  let tail := (b.tail + 1) % ringBufferSize
  { b.setByte b.tail byte with tail := tail, status := if tail = b.head then .full else .normal }

def readByte : α × PipeRingBuffer α :=
  let head := (b.head + 1) % ringBufferSize
  (b.getByte b.head, { b with head := head, status := if head = b.tail then .empty else .normal })

def availableRead : Nat :=
  if b.status = .empty then 0
  else if b.head < b.tail then b.tail - b.head
  else b.tail + ringBufferSize - b.head

def availableWrite : Nat :=
  if b.status = .full then 0 else ringBufferSize - b.availableRead

/-- The bytes of one critical section of a write. -/
def writeBytes (bytes : List α) : PipeRingBuffer α := bytes.foldl writeByte b

/-- The bytes of one critical section of a read. -/
def readBytes (b : PipeRingBuffer α) : Nat → List α × PipeRingBuffer α
  | 0 => ([], b)
  | n + 1 =>
    let (byte, b) := b.readByte
    let (bytes, b) := readBytes b n
    (byte :: bytes, b)

/-- The buffer holds these bytes, the oldest first. -/
structure Holds (b : PipeRingBuffer α) (bytes : List α) : Prop where
  head_lt : b.head < ringBufferSize
  fits : bytes.length ≤ ringBufferSize
  tail_eq : b.tail = (b.head + bytes.length) % ringBufferSize
  empty_iff : b.status = .empty ↔ bytes.length = 0
  full_iff : b.status = .full ↔ bytes.length = ringBufferSize
  window_eq : window ringBufferSize b.getByte b.head bytes.length = bytes

variable {b : PipeRingBuffer α} {bytes : List α}

theorem ringBufferSize_pos : 0 < ringBufferSize := by decide

theorem holds_new (zero : α) : (new zero).Holds [] where
  head_lt := ringBufferSize_pos
  fits := zero_le _
  tail_eq := rfl
  empty_iff := by simp [new]
  full_iff := by simp [new, ringBufferSize, pipeBufPageSize, pipeBufPages]
  window_eq := rfl

theorem getByte_setByte (index : Nat) (byte : α) : (b.setByte index byte).getByte = update b.getByte index byte := by
  funext i
  by_cases hi : i = index
  · subst hi
    simp [getByte, setByte]
  · rw [update_of_ne hi]
    simp only [getByte, setByte]
    by_cases hframe : i / pipeBufPageSize = index / pipeBufPageSize
    · have hoffset : i % pipeBufPageSize ≠ index % pipeBufPageSize := by
        intro hoffset
        apply hi
        rw [← div_add_mod i pipeBufPageSize, hframe, hoffset, div_add_mod]
      rw [hframe, update_self, update_of_ne hoffset]
    · rw [update_of_ne hframe]

theorem add_mod_eq_self_iff {head n} (hhead : head < ringBufferSize) (hn : n ≤ ringBufferSize) :
    (head + n) % ringBufferSize = head ↔ n = 0 ∨ n = ringBufferSize := by
  rcases lt_or_ge (head + n) ringBufferSize with h | h
  · rw [mod_eq_of_lt h]
    omega
  · rw [mod_eq_sub_mod h, mod_eq_of_lt (by omega)]
    omega

variable (h : b.Holds bytes)

include h

theorem Holds.availableRead_eq : b.availableRead = bytes.length := by
  have hhead := h.head_lt
  have hfits := h.fits
  unfold availableRead
  rw [h.tail_eq]
  split
  case isTrue he => exact (h.empty_iff.1 he).symm
  case isFalse he =>
    have hpos := mt h.empty_iff.2 he
    rcases lt_or_ge (b.head + bytes.length) ringBufferSize with hlt | hge
    · rw [mod_eq_of_lt hlt, if_pos (by omega)]
      omega
    · rw [mod_eq_sub_mod hge, mod_eq_of_lt (by omega), if_neg (by omega)]
      omega

theorem Holds.availableWrite_eq : b.availableWrite = ringBufferSize - bytes.length := by
  unfold availableWrite
  rw [h.availableRead_eq]
  split
  case isTrue hf => rw [h.full_iff.1 hf, Nat.sub_self]
  case isFalse => rfl

theorem Holds.writeByte (hroom : bytes.length < ringBufferSize) (byte : α) :
    (b.writeByte byte).Holds (bytes ++ [byte]) := by
  have htail : (b.tail + 1) % ringBufferSize = (b.head + (bytes.length + 1)) % ringBufferSize := by
    rw [h.tail_eq, mod_add_mod, add_assoc]
  have hiff : (b.tail + 1) % ringBufferSize = b.head ↔ bytes.length + 1 = ringBufferSize := by
    rw [htail, add_mod_eq_self_iff h.head_lt (by omega)]
    omega
  constructor
  · exact h.head_lt
  · simpa using hroom
  · rw [length_append]
    exact htail
  · simp only [PipeRingBuffer.writeByte]
    split <;> simp
  · simp only [PipeRingBuffer.writeByte, length_append, length_singleton]
    split
    case isTrue heq => simpa using hiff.1 heq
    case isFalse hne => simpa using mt hiff.2 hne
  · show window ringBufferSize (b.setByte b.tail byte).getByte b.head (bytes ++ [byte]).length = bytes ++ [byte]
    rw [getByte_setByte, length_append, length_singleton, h.tail_eq, window_push hroom, h.window_eq]

omit h in
theorem Holds.readByte {byte} (h : b.Holds (byte :: bytes)) :
    b.readByte.1 = byte ∧ b.readByte.2.Holds bytes := by
  have hhead := h.head_lt
  have hfits := h.fits
  have hw := h.window_eq
  rw [length_cons, window, mod_eq_of_lt hhead] at hw
  obtain ⟨hbyte, hrest⟩ := cons.inj hw
  rw [length_cons] at hfits
  have htail : b.tail = ((b.head + 1) % ringBufferSize + bytes.length) % ringBufferSize := by
    rw [h.tail_eq, mod_add_mod, length_cons]
    congr 1
    omega
  have hiff : (b.head + 1) % ringBufferSize = b.tail ↔ bytes.length = 0 := by
    rw [htail, eq_comm, add_mod_eq_self_iff (mod_lt _ ringBufferSize_pos) (by omega)]
    omega
  refine ⟨hbyte, ?_⟩
  constructor
  · exact mod_lt _ ringBufferSize_pos
  · omega
  · exact htail
  · simp only [PipeRingBuffer.readByte]
    split
    case isTrue heq => simpa using hiff.1 heq
    case isFalse hne => simpa using mt hiff.2 hne
  · simp only [PipeRingBuffer.readByte]
    split
    · simp
      omega
    · simp
      omega
  · show window ringBufferSize b.getByte ((b.head + 1) % ringBufferSize) bytes.length = bytes
    rw [window_mod, hrest]

theorem Holds.writeBytes {more} (hroom : bytes.length + more.length ≤ ringBufferSize) :
    (b.writeBytes more).Holds (bytes ++ more) := by
  induction more generalizing b bytes with
  | nil => simpa [PipeRingBuffer.writeBytes] using h
  | cons byte more ih =>
    rw [length_cons] at hroom
    have hnext := ih (h.writeByte (by omega) byte) (by rw [length_append, length_singleton]; omega)
    rwa [append_assoc] at hnext

theorem Holds.readBytes {n} (hn : n ≤ bytes.length) :
    (b.readBytes n).1 = bytes.take n ∧ (b.readBytes n).2.Holds (bytes.drop n) := by
  induction n generalizing b bytes with
  | zero => exact ⟨rfl, h⟩
  | succ n ih =>
    cases bytes with
    | nil => simp at hn
    | cons byte bytes =>
      obtain ⟨hbyte, hrest⟩ := h.readByte
      obtain ⟨htake, hdrop⟩ := ih hrest (by simpa using hn)
      simp only [PipeRingBuffer.readBytes, hbyte, htake, take_succ_cons, drop_succ_cons]
      exact ⟨trivial, hdrop⟩

end PipeRingBuffer

/-! ## Readers and writers -/

namespace Pipe

/-- The two ends; also the queues of those that wait there. -/
inductive PipeEnd where
  | read
  | write
deriving DecidableEq

def PipeEnd.other : PipeEnd → PipeEnd
  | read => write
  | write => read

/-- What follows a wake-up: the call returns, the write goes to sleep, or nothing. -/
inductive After (α : Type) where
  | leave (side : PipeEnd)
  | sleep (rest : List α) (alreadyWrite : Nat)
  | user
deriving DecidableEq

/-- Where a task stands. `rest` are the bytes that a write has not yet written. -/
inductive Pc (τ α : Type) where
  /-- In no call on this pipe. -/
  | user
  /-- The top of the loop of `read_for_syscall`. -/
  | readLoop (wantToRead : Nat)
  /-- Before `block_current_and_run_next_if`, asleep in it, and after it. -/
  | readBlock (wantToRead : Nat)
  | readWait (wantToRead : Nat)
  | readRemove (wantToRead : Nat)
  | readRecheck (wantToRead : Nat)
  /-- The top of the loop of `write`. -/
  | writeLoop (rest : List α) (alreadyWrite : Nat)
  /-- Before `check_pending_signal`. -/
  | writeSignal (rest : List α) (alreadyWrite : Nat)
  | writeBlock (rest : List α) (alreadyWrite : Nat)
  | writeWait (rest : List α) (alreadyWrite : Nat)
  | writeRemove (rest : List α) (alreadyWrite : Nat)
  | writeNonblock (bytes : List α)
  /-- `wake_up_one`, or `wake_all` if `all`: before a task is popped, before its state is looked at, and before
  `wake_up_task`. -/
  | wakeUpOne (queue : PipeEnd) (all : Bool) (k : After α)
  | popped (queue : PipeEnd) (all : Bool) (t : τ) (k : After α)
  | wakeUpTask (queue : PipeEnd) (all : Bool) (t : τ) (k : After α)
  /-- Before the call's reference to the end is dropped. -/
  | leaving (side : PipeEnd)
deriving DecidableEq

def After.pc {τ α : Type} : After α → Pc τ α
  | leave side => .leaving side
  | sleep rest alreadyWrite => .writeSignal rest alreadyWrite
  | user => .user

/-- The end that a call holds a reference to. -/
def After.holds {α : Type} : After α → Option PipeEnd
  | leave side => some side
  | sleep _ _ => some .write
  | user => none

def Pc.holds {τ α : Type} : Pc τ α → Option PipeEnd
  | user => none
  | readLoop _ | readBlock _ | readWait _ | readRemove _ | readRecheck _ => some .read
  | writeLoop _ _ | writeSignal _ _ | writeBlock _ _ | writeWait _ _ | writeRemove _ _ | writeNonblock _ => some .write
  | wakeUpOne _ _ k | popped _ _ _ k | wakeUpTask _ _ _ k => k.holds
  | leaving side => some side

def Pc.isUser {τ α : Type} : Pc τ α → Bool
  | user => true
  | _ => false

/-- What a task does: begin a call, let another task have a signal, or go on. `interrupted` is what
`check_pending_signal` answers. -/
inductive Cmd (τ α : Type) where
  | dup (side : PipeEnd)
  | close (side : PipeEnd)
  | read (wantToRead : Nat)
  | write (bytes : List α)
  | writeNonblock (bytes : List α)
  /-- A call that holds the end and returns without a transfer. -/
  | probe (side : PipeEnd)
  | signal (t : τ)
  | next (interrupted : Bool)
deriving DecidableEq

end Pipe

open Pipe

/-- The pipe and the tasks that use it. `accepted` and `returned` are all bytes that writes have put into the buffer and
that reads have taken from it. -/
structure Pipe (τ α : Type) where
  ring : PipeRingBuffer α
  /-- The descriptors of each end. -/
  fds : PipeEnd → Nat
  waiters : PipeEnd → List τ
  sleep : τ → Sleep
  pc : τ → Pc τ α
  accepted : List α
  returned : List α

namespace Pipe

variable {τ α : Type} [DecidableEq τ] [Fintype τ]

/-- `make_pipe`. -/
def make (zero : α) : Pipe τ α where
  ring := .new zero
  fds _ := 1
  waiters _ := []
  sleep _ := .awake
  pc _ := .user
  accepted := []
  returned := []

variable (s : Pipe τ α) (t : τ)

def goto (pc : Pc τ α) : Pipe τ α := { s with pc := update s.pc t pc }

def setSleep (sleep : Sleep) : Pipe τ α := { s with sleep := update s.sleep t sleep }

variable (side : PipeEnd)

def setWaiters (queue : List τ) : Pipe τ α :=
  { s with waiters := update s.waiters side queue }

/-- `all_read_ends_closed` and `all_write_ends_closed`: no reference to the end is left. -/
def endsClosed : Bool := s.fds side = 0 && decide (∀ t, (s.pc t).holds ≠ some side)

/-- The section of `read_for_syscall`. -/
def readSection (wantToRead : Nat) : Pipe τ α :=
  let loopRead := s.ring.availableRead
  if loopRead = 0 then s.goto t (if s.endsClosed .write then .leaving .read else .readBlock wantToRead)
  else
    let (bytes, ring) := s.ring.readBytes (min loopRead wantToRead)
    { s with ring := ring, returned := s.returned ++ bytes }.goto t (.wakeUpOne .write false (.leave .read))

def accept (bytes : List α) : Pipe τ α :=
  { s with ring := s.ring.writeBytes bytes, accepted := s.accepted ++ bytes }

/-- The section of `write`. -/
def writeSection (rest : List α) (alreadyWrite : Nat) : Pipe τ α :=
  let loopWrite := s.ring.availableWrite
  if loopWrite = 0 then
    s.goto t
      (if s.endsClosed .read then .leaving .write
      else if 0 < alreadyWrite then .wakeUpOne .read false (.sleep rest alreadyWrite)
      else .writeSignal rest alreadyWrite)
  else if rest.isEmpty then s.goto t (.wakeUpOne .read false (.leave .write))
  else if s.endsClosed .read then s.goto t (.leaving .write)
  else
    (s.accept (rest.take loopWrite)).goto t
      (if rest.length ≤ loopWrite then .wakeUpOne .read false (.leave .write)
      else .writeLoop (rest.drop loopWrite) (alreadyWrite + loopWrite))

/-- The section of `write_nonblock`. -/
def writeNonblockSection (bytes : List α) : Pipe τ α :=
  let loopWrite := s.ring.availableWrite
  if loopWrite = 0 || bytes.isEmpty || s.endsClosed .read then s.goto t (.leaving .write)
  else (s.accept (bytes.take loopWrite)).goto t (.wakeUpOne .read false (.leave .write))

/-- The closures of the two calls of `block_current_and_run_next_if`. -/
def shouldBlock : PipeEnd → Bool
  | .read => s.ring.availableRead = 0 && !s.endsClosed .write
  | .write => s.ring.availableWrite = 0 && !s.endsClosed .read

/-- `block_current_and_run_next_if`, under the lock of the queue. -/
def block (wait again : Pc τ α) : Pipe τ α :=
  if s.shouldBlock side then ((s.setSleep t (.saving false)).setWaiters side (s.waiters side ++ [t])).goto t wait
  else s.goto t again

/-- The scheduler's part of the sleep. -/
def schedule (resume : Pc τ α) : Option (Pipe τ α) :=
  match s.sleep t with
  | .saving pending => some (s.setSleep t (Sleep.saving pending).commit)
  | .ready => some ((s.setSleep t .awake).goto t resume)
  | _ => none

/-- `remove_by_tid`. -/
def removeByTid (t : τ) : Pipe τ α := s.setWaiters side ((s.waiters side).filter (· ≠ t))

/-- A reference is gone; with the last one goes the end, and everybody at the other end is woken up. -/
def dropEnd : Pipe τ α :=
  let s := s.goto t .user
  if s.endsClosed side then s.goto t (.wakeUpOne side.other true .user) else s

/-- After `wake_up_one` has returned true. -/
def woke (queue : PipeEnd) (all : Bool) (k : After α) : Pc τ α := if all then .wakeUpOne queue true k else k.pc

/-- The state of a task that was popped, under its lock. -/
def look (queue : PipeEnd) (all : Bool) (u : τ) (k : After α) : Pipe τ α :=
  match s.sleep u with
  | .saving _ => (s.setSleep u (.saving true)).goto t (woke queue all k)
  | .blocked => s.goto t (.wakeUpTask queue all u k)
  | _ => s.goto t (.wakeUpOne queue all k)

def next (interrupted : Bool) : Option (Pipe τ α) :=
  match s.pc t with
  | .user => none
  | .readLoop want => some (s.readSection t want)
  | .readBlock want => some (s.block t .read (.readWait want) (.readLoop want))
  | .readWait want => s.schedule t (.readRemove want)
  | .readRemove want => some ((s.removeByTid .read t).goto t (.readRecheck want))
  | .readRecheck want =>
    -- data first, then the end of file, then a signal
    some (s.goto t
      (if 0 < s.ring.availableRead then .readLoop want
      else if s.endsClosed .write || interrupted then .leaving .read
      else .readLoop want))
  | .writeLoop rest already => some (s.writeSection t rest already)
  | .writeSignal rest already => some (s.goto t (if interrupted then .leaving .write else .writeBlock rest already))
  | .writeBlock rest already => some (s.block t .write (.writeWait rest already) (.writeLoop rest already))
  | .writeWait rest already => s.schedule t (.writeRemove rest already)
  | .writeRemove rest already => some ((s.removeByTid .write t).goto t (.writeLoop rest already))
  | .writeNonblock bytes => some (s.writeNonblockSection t bytes)
  | .wakeUpOne queue all k =>
    match s.waiters queue with
    | [] => some (s.goto t k.pc)
    | u :: rest => some ((s.setWaiters queue rest).goto t (.popped queue all u k))
  | .popped queue all u k => some (s.look t queue all u k)
  | .wakeUpTask queue all u k => some ((s.setSleep u (s.sleep u).wake).goto t (woke queue all k))
  | .leaving side => some (s.dropEnd t side)

/-- A call begins, with a descriptor of the end. -/
def call (pc : Pc τ α) : Option (Pipe τ α) :=
  if (s.pc t).isUser ∧ 0 < s.fds side then some (s.goto t pc) else none

def step : Cmd τ α → Option (Pipe τ α)
  | .dup side =>
    if (s.pc t).isUser ∧ 0 < s.fds side then some { s with fds := update s.fds side (s.fds side + 1) } else none
  | .close side =>
    if (s.pc t).isUser ∧ 0 < s.fds side then
      some ({ s with fds := update s.fds side (s.fds side - 1) }.dropEnd t side)
    else none
  | .read want => s.call t .read (.readLoop want)
  | .write bytes => s.call t .write (.writeLoop bytes 0)
  | .writeNonblock bytes => s.call t .write (.writeNonblock bytes)
  | .probe side => s.call t side (.leaving side)
  | .signal u => some (s.setSleep u (s.sleep u).wake)
  | .next interrupted => s.next t interrupted

/-- Some task takes a step. -/
def Step (s s' : Pipe τ α) : Prop := ∃ t cmd, s.step t cmd = some s'

end Pipe

end ShellCore.Fs
