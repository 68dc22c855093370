import Mathlib
import ShellCore.Lib.OrdMap

/-!
# epoll

An epoll instance keeps, for each watched descriptor, the events asked for and whether the last scan found the file
ready. A scan polls every file and hands out an event for an edge-triggered descriptor only if the scan before did not
find it ready. What exceeds `maxevents` is dropped after the scan, and so is everything if the buffer of the caller
cannot be written. A watched epoll instance is skipped.

`owed` remembers, beside the code, which readiness of an edge-triggered descriptor has been gained and not reported.
-/

namespace ShellCore.Fs

open Function List

def EPOLLIN : UInt32 := 0x001

def EPOLLOUT : UInt32 := 0x004

def EPOLLERR : UInt32 := 0x008

def EPOLLHUP : UInt32 := 0x010

def EPOLLONESHOT : UInt32 := 0x40000000

def EPOLLET : UInt32 := 0x80000000

def epollMaxEvents : Int := 1024

structure EpollEvent where
  events : UInt32
  data : UInt64
deriving DecidableEq

/-- What `poll_error`, `poll_hangup`, `ready_to_read` and `ready_to_write` of a file say. -/
structure Readiness where
  error : Bool
  hangup : Bool
  read : Bool
  write : Bool
deriving DecidableEq

/-- The two kinds of readiness that are asked for. -/
inductive Side where
  | input
  | output
deriving DecidableEq

namespace Side

def bit : Side → UInt32
  | input => EPOLLIN
  | output => EPOLLOUT

def has : Side → Readiness → Bool
  | input, r => r.read
  | output, r => r.write

end Side

variable {e : EpollEvent}

namespace EpollEvent

def asks (e : EpollEvent) (flag : UInt32) : Bool := e.events &&& flag != 0

/-- The bits of `revents`. -/
def bits (error hangup input output : Bool) : UInt32 :=
  (if error then EPOLLERR else 0) ||| (if hangup then EPOLLHUP else 0) ||| (if input then EPOLLIN else 0) |||
    (if output then EPOLLOUT else 0)

/-- `revents` of a file. -/
def revents (e : EpollEvent) (r : Readiness) : UInt32 :=
  bits r.error r.hangup (e.asks EPOLLIN && r.read) (e.asks EPOLLOUT && r.write)

theorem bits_input : ∀ error hangup output, bits error hangup true output &&& EPOLLIN ≠ 0 := by
  decide

theorem bits_output : ∀ error hangup input, bits error hangup input true &&& EPOLLOUT ≠ 0 := by
  decide

/-- What is asked for and there is reported. -/
theorem revents_side {r} {b : Side} (ha : e.asks b.bit = true) (hr : b.has r = true) :
    e.revents r &&& b.bit ≠ 0 := by
  cases b with
  | input =>
    have hin : (e.asks EPOLLIN && r.read) = true := Bool.and_eq_true_iff.2 ⟨ha, hr⟩
    rw [revents, hin]
    exact bits_input _ _ _
  | output =>
    have hout : (e.asks EPOLLOUT && r.write) = true := Bool.and_eq_true_iff.2 ⟨ha, hr⟩
    rw [revents, hout]
    exact bits_output _ _ _

end EpollEvent

structure EpollFile (φ : Type) where
  interestList : OrdMap EpollEvent
  watchedFiles : Nat → Option φ
  lastReady : Nat → Bool
  oneshotDisabled : Nat → Bool

/-- The locals of the loop of `epoll_collect_ready`. The code keeps no descriptor in an event. -/
structure Scan where
  lastReady : Nat → Bool
  oneshotDisabled : Nat → Bool
  readyEvents : List (Nat × EpollEvent)

namespace EpollFile

variable {φ : Type} (isEpoll : φ → Bool) (ep : EpollFile φ) (ready : φ → Readiness)

/-- What polling one descriptor gives: nothing if nothing is asked for, or if it is an epoll instance itself. -/
def polled (fd : Nat) (event : EpollEvent) : UInt32 :=
  if event.events = 0 then 0
  else
    match ep.watchedFiles fd with
    | none => 0
    | some file => if isEpoll file then 0 else event.revents (ready file)

/-- An event for the descriptor is handed out. -/
def deliver (last disabled : Bool) (fd : Nat) (event : EpollEvent) : Bool :=
  ep.polled isEpoll ready fd event != 0 && !(event.asks EPOLLONESHOT && disabled) && (!event.asks EPOLLET || !last)

def scanOne (acc : Scan) (x : Nat × EpollEvent) : Scan :=
  let deliver := ep.deliver isEpoll ready (acc.lastReady x.1) (acc.oneshotDisabled x.1) x.1 x.2
  { lastReady := update acc.lastReady x.1 (ep.polled isEpoll ready x.1 x.2 != 0)
    oneshotDisabled :=
      if deliver && x.2.asks EPOLLONESHOT then update acc.oneshotDisabled x.1 true else acc.oneshotDisabled
    readyEvents :=
      if deliver then acc.readyEvents ++ [(x.1, { x.2 with events := ep.polled isEpoll ready x.1 x.2 })]
      else acc.readyEvents }

def epollCollectReady : Scan :=
  ep.interestList.entries.foldl (ep.scanOne isEpoll ready) ⟨ep.lastReady, ep.oneshotDisabled, []⟩

/-- The events that reach the caller, or `EFAULT`; `writes` says which places of the buffer can be written. -/
def writeEpollEvents (writes : Nat → Bool) (maxevents : Nat) (events : List (Nat × EpollEvent)) :
    Option (List (Nat × EpollEvent)) :=
  if (range (events.take maxevents).length).all writes then some (events.take maxevents) else none

/-- One scan of `epoll_pwait` and the events it reports; a call that has nothing to report scans again. A call without a
buffer is refused as one for no events is. -/
def epollPwait (maxevents : Int) (buf : Option (Nat → Bool)) : EpollFile φ × Option (List (Nat × EpollEvent)) :=
  match buf with
  | none => (ep, none)
  | some writes =>
    if maxevents ≤ 0 then (ep, none)
    else
      ({ ep with
          lastReady := (ep.epollCollectReady isEpoll ready).lastReady
          oneshotDisabled := (ep.epollCollectReady isEpoll ready).oneshotDisabled },
        writeEpollEvents writes (min maxevents epollMaxEvents).toNat (ep.epollCollectReady isEpoll ready).readyEvents)

/-! ## What a scan does -/

/-- The event for one descriptor. -/
def event (last disabled : Nat → Bool) (x : Nat × EpollEvent) : Option (Nat × EpollEvent) :=
  if ep.deliver isEpoll ready (last x.1) (disabled x.1) x.1 x.2 then
    some (x.1, { x.2 with events := ep.polled isEpoll ready x.1 x.2 })
  else none

variable {isEpoll ep ready} {acc : Scan} {x y : Nat × EpollEvent} {l : List (Nat × EpollEvent)} {fd : Nat}
  {e : EpollEvent}

/-- Each descriptor is looked at once. -/
theorem event_scanOne (h : y.1 ≠ x.1) :
    ep.event isEpoll ready (ep.scanOne isEpoll ready acc x).lastReady (ep.scanOne isEpoll ready acc x).oneshotDisabled y =
      ep.event isEpoll ready acc.lastReady acc.oneshotDisabled y := by
  have hlast : (ep.scanOne isEpoll ready acc x).lastReady y.1 = acc.lastReady y.1 := by simp [scanOne, h]
  have hdis : (ep.scanOne isEpoll ready acc x).oneshotDisabled y.1 = acc.oneshotDisabled y.1 := by
    simp only [scanOne]
    split
    · exact update_of_ne h _ _
    · rfl
  rw [event, event, hlast, hdis]

theorem readyEvents_scanOne : (ep.scanOne isEpoll ready acc x).readyEvents =
    acc.readyEvents ++ (ep.event isEpoll ready acc.lastReady acc.oneshotDisabled x).toList := by
  simp only [scanOne, event]
  split
  · rfl
  · exact (append_nil _).symm

theorem readyEvents_foldl (hl : l.Pairwise fun a b => a.1 < b.1) :
    (l.foldl (ep.scanOne isEpoll ready) acc).readyEvents =
      acc.readyEvents ++ l.filterMap (ep.event isEpoll ready acc.lastReady acc.oneshotDisabled) := by
  induction l generalizing acc with
  | nil => simp
  | cons x l ih =>
    rw [pairwise_cons] at hl
    have hrest : l.filterMap (ep.event isEpoll ready (ep.scanOne isEpoll ready acc x).lastReady
        (ep.scanOne isEpoll ready acc x).oneshotDisabled) =
        l.filterMap (ep.event isEpoll ready acc.lastReady acc.oneshotDisabled) :=
      filterMap_congr fun y hy => event_scanOne (Nat.ne_of_gt (hl.1 y hy))
    rw [foldl_cons, ih hl.2, hrest, readyEvents_scanOne, append_assoc, filterMap_cons]
    cases ep.event isEpoll ready acc.lastReady acc.oneshotDisabled x <;> rfl

theorem lastReady_foldl_of_notMem (h : ∀ e, (fd, e) ∉ l) :
    (l.foldl (ep.scanOne isEpoll ready) acc).lastReady fd = acc.lastReady fd := by
  induction l generalizing acc with
  | nil => rfl
  | cons x l ih =>
    have hne : fd ≠ x.1 := by
      rintro rfl
      exact h x.2 mem_cons_self
    rw [foldl_cons, ih fun e he => h e (mem_cons_of_mem _ he)]
    exact update_of_ne hne _ _

theorem lastReady_foldl (hl : l.Pairwise fun a b => a.1 < b.1) (h : (fd, e) ∈ l) :
    (l.foldl (ep.scanOne isEpoll ready) acc).lastReady fd = (ep.polled isEpoll ready fd e != 0) := by
  induction l generalizing acc with
  | nil => cases h
  | cons x l ih =>
    rw [pairwise_cons] at hl
    rcases mem_cons.1 h with rfl | hmem
    · rw [foldl_cons, lastReady_foldl_of_notMem fun e' he' => absurd (hl.1 _ he') (lt_irrefl _)]
      exact update_self _ _ _
    · exact ih hl.2 hmem

/-- The descriptors that have an event. -/
def due (isEpoll : φ → Bool) (ep : EpollFile φ) (ready : φ → Readiness) : List (Nat × EpollEvent) :=
  ep.interestList.entries.filter fun x =>
    ep.deliver isEpoll ready (ep.lastReady x.1) (ep.oneshotDisabled x.1) x.1 x.2

/-- The events of a scan. -/
theorem readyEvents_eq : (ep.epollCollectReady isEpoll ready).readyEvents =
    (ep.due isEpoll ready).map fun x => (x.1, { x.2 with events := ep.polled isEpoll ready x.1 x.2 }) := by
  rw [epollCollectReady, readyEvents_foldl ep.interestList.sorted, due, ← filterMap_eq_map, filterMap_filter]
  rfl

theorem lastReady_collect (h : ep.interestList.get? fd = some e) :
    (ep.epollCollectReady isEpoll ready).lastReady fd = (ep.polled isEpoll ready fd e != 0) :=
  lastReady_foldl ep.interestList.sorted (OrdMap.mem_entries.2 h)

/-- There is room for all events, and the buffer takes them. -/
def Room (isEpoll : φ → Bool) (ep : EpollFile φ) (ready : φ → Readiness) (maxevents : Int) (writes : Nat → Bool) : Prop :=
  ((ep.due isEpoll ready).length : Int) ≤ min maxevents epollMaxEvents ∧
    ∀ i < (ep.due isEpoll ready).length, writes i = true

/-- With room for all events each of them is reported. -/
theorem reports_due {maxevents writes} (hroom : ep.Room isEpoll ready maxevents writes) (hpos : 0 < maxevents) :
    (ep.epollPwait isEpoll ready maxevents (some writes)).2 =
      some ((ep.due isEpoll ready).map fun x => (x.1, { x.2 with events := ep.polled isEpoll ready x.1 x.2 })) := by
  have hmax := hroom.1
  simp only [epollPwait, if_neg (not_le.2 hpos), readyEvents_eq, writeEpollEvents]
  rw [take_of_length_le (by rw [length_map]; omega), length_map, if_pos]
  exact all_eq_true.2 fun i hi => hroom.2 i (mem_range.1 hi)

/-- What is reported was due. -/
theorem due_of_reported {maxevents buf l z} (h : (ep.epollPwait isEpoll ready maxevents buf).2 = some l) (hz : z ∈ l) :
    ∃ x ∈ ep.due isEpoll ready, x.1 = z.1 := by
  cases buf with
  | none => cases h
  | some writes =>
    simp only [epollPwait, writeEpollEvents, readyEvents_eq] at h
    split_ifs at h
    cases h
    obtain ⟨x, hx, rfl⟩ := mem_map.1 (mem_of_mem_take hz)
    exact ⟨x, hx, rfl⟩

end EpollFile

open EpollFile

inductive EpollOp where
  | add
  | del
  | mod
deriving DecidableEq

namespace EpollFile

variable {φ : Type} (ep : EpollFile φ)

def forget (fd : Nat) : EpollFile φ :=
  { ep with lastReady := update ep.lastReady fd false
            oneshotDisabled := update ep.oneshotDisabled fd false }

/-- `epoll_ctl` on a descriptor of `file`; nothing if it answers `EEXIST` or `ENOENT`. -/
def epollCtl (op : EpollOp) (fd : Nat) (file : φ) (event : EpollEvent) : Option (EpollFile φ) :=
  match op, ep.interestList.get? fd with
  | .add, none =>
    some { ep.forget fd with
      interestList := ep.interestList.insert fd event
      watchedFiles := update ep.watchedFiles fd (some file) }
  | .del, some _ =>
    some { ep.forget fd with
      interestList := ep.interestList.erase fd
      watchedFiles := update ep.watchedFiles fd none }
  | .mod, some _ => some { ep.forget fd with interestList := ep.interestList.insert fd event }
  | _, _ => none

end EpollFile

/-- An epoll instance among files whose readiness changes. -/
structure Epolls (φ : Type) where
  ep : EpollFile φ
  ready : φ → Readiness
  /-- Gained, and in no event since. -/
  owed : Nat → Side → Bool

inductive EpollCall (φ : Type) where
  | ctl (op : EpollOp) (fd : Nat) (file : φ) (event : EpollEvent)
  | change (file : φ) (r : Readiness)
  | pwait (maxevents : Int) (buf : Option (Nat → Bool))

namespace Epolls

variable {φ : Type} [DecidableEq φ] (isEpoll : φ → Bool)

omit [DecidableEq φ] in
/-- The file whose readiness `b` descriptor `fd` is to report at each edge. -/
def watches (ep : EpollFile φ) (fd : Nat) (b : Side) : Option φ :=
  (ep.interestList.get? fd).bind fun event =>
    if event.asks EPOLLET && event.asks b.bit then ep.watchedFiles fd else none

/-- Descriptor `fd` watches readiness `b` of a file that has it. -/
def present (ep : EpollFile φ) (ready : φ → Readiness) (fd : Nat) (b : Side) : Bool :=
  (watches ep fd b).any fun file => b.has (ready file)

variable (s : Epolls φ)

/-- Readiness `b` comes up for descriptor `fd` when that of `file` becomes `r`. -/
def gains (file : φ) (r : Readiness) (fd : Nat) (b : Side) : Bool :=
  watches s.ep fd b == some file && !b.has (s.ready file) && b.has r

/-- An event among those reported carries readiness `b` of descriptor `fd`. -/
def reported (events : Option (List (Nat × EpollEvent))) (fd : Nat) (b : Side) : Bool :=
  events.any fun l => l.any fun e => e.1 == fd && e.2.asks b.bit

def step : EpollCall φ → Epolls φ
  | .ctl op fd file event =>
    match s.ep.epollCtl op fd file event with
    | none => s
    | some ep => { s with ep, owed := update s.owed fd (present ep s.ready fd) }
  | .change file r =>
    { s with
      ready := update s.ready file r
      owed := fun fd b => s.owed fd b || s.gains file r fd b }
  | .pwait maxevents buf =>
    let scanned := s.ep.epollPwait isEpoll s.ready maxevents buf
    if maxevents ≤ 0 ∨ buf.isNone then s
    else
      { s with
        ep := scanned.1
        owed := fun fd b => s.owed fd b && present s.ep s.ready fd b && !reported scanned.2 fd b }

/-- No descriptor is watched. -/
def init (ready : φ → Readiness) : Epolls φ :=
  { ep := { interestList := .empty, watchedFiles := fun _ => none, lastReady := fun _ => false,
            oneshotDisabled := fun _ => false }
    ready
    owed := fun _ _ => false }

/-! ## Runs -/

/-- Nobody relies on what the code drops: a descriptor gains a readiness only while the last scan did not find it ready
(and it is not a one-shot that has fired), and the buffer of a scan takes every event. -/
def Orderly : EpollCall φ → Prop
  | .ctl .. => True
  | .change file r => ∀ fd b, s.gains file r fd b = true → s.ep.lastReady fd = false ∧
      ∀ event, s.ep.interestList.get? fd = some event → event.asks EPOLLONESHOT = true → s.ep.oneshotDisabled fd = false
  | .pwait maxevents buf => 0 < maxevents → ∀ writes, buf = some writes → s.ep.Room isEpoll s.ready maxevents writes

def OrderlyCalls (s : Epolls φ) : List (EpollCall φ) → Prop
  | [] => True
  | call :: rest => s.Orderly isEpoll call ∧ OrderlyCalls (s.step isEpoll call) rest

def run (calls : List (EpollCall φ)) : Epolls φ := calls.foldl (step isEpoll) s

/-- The descriptor does not watch an epoll instance. -/
def Plain (ep : EpollFile φ) (fd : Nat) : Prop := ∀ file, ep.watchedFiles fd = some file → isEpoll file = false

/-- An edge that is owed meets a descriptor that hands it out. -/
def Armed (ep : EpollFile φ) (fd : Nat) (b : Side) : Prop :=
  (watches ep fd b).isSome = true ∧ ep.lastReady fd = false ∧
    ∀ event, ep.interestList.get? fd = some event → event.asks EPOLLONESHOT = true → ep.oneshotDisabled fd = false

variable {isEpoll} {s : Epolls φ} {ep : EpollFile φ} {ready : φ → Readiness} {fd : Nat} {b : Side} {file : φ}
  {call : EpollCall φ} {maxevents : Int} {buf : Option (Nat → Bool)} {writes : Nat → Bool}

omit [DecidableEq φ] in
theorem watches_eq_some : watches ep fd b = some file ↔ ∃ event, ep.interestList.get? fd = some event ∧
    event.asks EPOLLET = true ∧ event.asks b.bit = true ∧ ep.watchedFiles fd = some file := by
  simp only [watches, Option.bind_eq_some_iff, Option.ite_none_right_eq_some, Bool.and_eq_true, and_assoc]

theorem asks_ne_zero {flag} (h : e.asks flag = true) : e.events ≠ 0 := by
  intro h0
  rw [EpollEvent.asks, h0, UInt32.zero_and] at h
  cases h

omit [DecidableEq φ] in
theorem present_eq_true :
    present ep ready fd b = true ↔ ∃ file, watches ep fd b = some file ∧ b.has (ready file) = true := by
  rw [present]
  cases watches ep fd b <;> simp

omit [DecidableEq φ] in
/-- What a descriptor reports that watches a readiness which is there. -/
theorem polled_of_present (h : present ep ready fd b = true) (hplain : Plain isEpoll ep fd) :
    ∃ event, ep.interestList.get? fd = some event ∧ event.asks EPOLLET = true ∧
      ep.polled isEpoll ready fd event &&& b.bit ≠ 0 := by
  obtain ⟨file, hwatch, hhas⟩ := present_eq_true.1 h
  obtain ⟨event, hget, het, hasks, hfile⟩ := watches_eq_some.1 hwatch
  refine ⟨event, hget, het, ?_⟩
  rw [polled, if_neg (asks_ne_zero hasks), hfile]
  simp only [hplain file hfile, Bool.false_eq_true, if_false]
  exact EpollEvent.revents_side hasks hhas

theorem ne_zero_of_and {x y : UInt32} (h : x &&& y ≠ 0) : x ≠ 0 := by
  rintro rfl
  exact h UInt32.zero_and

omit [DecidableEq φ] in
/-- The scan that finds an edge on a descriptor that is armed reports it. -/
theorem reported_of_armed (ha : Armed ep fd b) (hplain : Plain isEpoll ep fd) (hp : present ep ready fd b = true)
    (hpos : 0 < maxevents) (hroom : ep.Room isEpoll ready maxevents writes) :
    reported (ep.epollPwait isEpoll ready maxevents (some writes)).2 fd b = true := by
  obtain ⟨event, hget, het, hbit⟩ := polled_of_present hp hplain
  have hdue : (fd, event) ∈ ep.due isEpoll ready := by
    refine mem_filter.2 ⟨OrdMap.mem_entries.2 hget, ?_⟩
    have hone : (event.asks EPOLLONESHOT && ep.oneshotDisabled fd) = false := by
      cases ho : event.asks EPOLLONESHOT with
      | false => rfl
      | true => rw [ha.2.2 event hget ho]; rfl
    simp only [deliver, ha.2.1, hone, bne_iff_ne, Bool.not_false, Bool.or_true, Bool.and_true, ne_eq]
    exact ne_zero_of_and hbit
  rw [reports_due hroom hpos]
  refine any_eq_true.2 ⟨_, mem_map_of_mem hdue, ?_⟩
  simp only [beq_self_eq_true, Bool.true_and, EpollEvent.asks, bne_iff_ne]
  exact hbit

/-- What is owed can be had. -/
def Inv (isEpoll : φ → Bool) (s : Epolls φ) : Prop :=
  ∀ fd b, s.owed fd b = true → Plain isEpoll s.ep fd → Armed s.ep fd b

omit [DecidableEq φ] in
/-- A registration starts afresh. -/
theorem epollCtl_spec {op event ep'}
    (h : ep.epollCtl op fd file event = some ep') :
    ep'.lastReady fd = false ∧ ep'.oneshotDisabled fd = false ∧
      ∀ fd', fd' ≠ fd → ep'.interestList.get? fd' = ep.interestList.get? fd' ∧ ep'.watchedFiles fd' = ep.watchedFiles fd' ∧
        ep'.lastReady fd' = ep.lastReady fd' ∧ ep'.oneshotDisabled fd' = ep.oneshotDisabled fd' := by
  cases op with
  | add | mod =>
    cases hget : ep.interestList.get? fd <;> simp only [epollCtl, hget, reduceCtorEq] at h
    cases h
    refine ⟨update_self _ _ _, update_self _ _ _, fun fd' hne => ⟨OrdMap.get?_insert_of_ne hne, ?_⟩⟩
    simp [forget, hne]
  | del =>
    cases hget : ep.interestList.get? fd <;> simp only [epollCtl, hget, reduceCtorEq] at h
    cases h
    refine ⟨update_self _ _ _, update_self _ _ _, fun fd' hne => ⟨?_, ?_⟩⟩
    · rw [OrdMap.get?_erase, if_neg hne]
    · simp [forget, hne]

variable (h : s.Inv isEpoll)

include h

theorem Inv.ctl {op event} : (s.step isEpoll (.ctl op fd file event)).Inv isEpoll := by
  cases hctl : s.ep.epollCtl op fd file event with
  | none => simpa only [step, hctl] using h
  | some ep =>
    simp only [step, hctl]
    obtain ⟨hlast, hdis, hother⟩ := epollCtl_spec hctl
    intro fd' b howed hplain
    by_cases hfd : fd' = fd
    · subst hfd
      simp only [update_self] at howed
      obtain ⟨file', hwatch, -⟩ := present_eq_true.1 howed
      exact ⟨by rw [hwatch]; rfl, hlast, fun _ _ _ => hdis⟩
    · simp only [update_of_ne hfd] at howed
      obtain ⟨hget, hfile, hlast', hdis'⟩ := hother fd' hfd
      simp only [Plain, hfile] at hplain
      have harmed := h fd' b howed hplain
      simp only [Armed, watches, hget, hfile, hlast', hdis']
      exact harmed

theorem Inv.change {r} (ho : s.Orderly isEpoll (.change file r)) :
    (s.step isEpoll (.change file r)).Inv isEpoll := by
  intro fd b howed hplain
  rcases Bool.or_eq_true_iff.1 howed with hold | hgain
  · exact h fd b hold hplain
  · have hwatch : watches s.ep fd b = some file := by
      simp only [gains, Bool.and_eq_true, beq_iff_eq] at hgain
      exact hgain.1.1
    obtain ⟨hlast, hdis⟩ := ho fd b hgain
    exact ⟨by rw [Option.isSome_iff_exists]; exact ⟨file, hwatch⟩, hlast, hdis⟩

/-- After a scan with room for all events nothing is owed. -/
theorem Inv.pwait (ho : s.Orderly isEpoll (.pwait maxevents buf)) :
    (s.step isEpoll (.pwait maxevents buf)).Inv isEpoll := by
  by_cases hpos : maxevents ≤ 0 ∨ buf.isNone
  · simpa only [step, if_pos hpos] using h
  · cases buf with
    | none => exact absurd (.inr rfl) hpos
    | some writes =>
      have hmax := (not_or.1 hpos).1
      simp only [step, if_neg hpos]
      intro fd b howed hplain
      simp only [Bool.and_eq_true, Bool.not_eq_true'] at howed
      obtain ⟨⟨hold, hpresent⟩, hnot⟩ := howed
      simp only [epollPwait, if_neg hmax] at hplain
      have hplain' : Plain isEpoll s.ep fd := hplain
      have hroom := ho (not_le.1 hmax) writes rfl
      rw [reported_of_armed (h fd b hold hplain') hplain' hpresent (not_le.1 hmax) hroom] at hnot
      cases hnot

theorem Inv.step (ho : s.Orderly isEpoll call) : (s.step isEpoll call).Inv isEpoll := by
  cases call with
  | ctl op fd file event => exact h.ctl
  | change file r => exact h.change ho
  | pwait maxevents buf => exact h.pwait ho

theorem Inv.run {calls} (ho : s.OrderlyCalls isEpoll calls) :
    (s.run isEpoll calls).Inv isEpoll := by
  induction calls generalizing s with
  | nil => exact h
  | cons call calls ih => exact ih (h.step ho.1) ho.2

omit h

omit [DecidableEq φ] in
theorem inv_init {ready : φ → Readiness} : (init ready).Inv isEpoll := nofun

/-- In an orderly run the scan that finds an edge which has not been reported reports it. -/
theorem edge_reported {c : List (EpollCall φ)} (ho : (init ready).OrderlyCalls isEpoll c)
    (hs : (init ready).run isEpoll c = s) (hpos : 0 < maxevents)
    (hscan : s.Orderly isEpoll (.pwait maxevents (some writes))) (howed : s.owed fd b = true)
    (hplain : Plain isEpoll s.ep fd) (hpresent : present s.ep s.ready fd b = true) :
    reported (s.ep.epollPwait isEpoll s.ready maxevents (some writes)).2 fd b = true := by
  have hinv : s.Inv isEpoll := hs ▸ inv_init.run ho
  exact reported_of_armed (hinv fd b howed hplain) hplain hpresent hpos (hscan hpos writes rfl)

/-! ## Edges that are lost -/

omit [DecidableEq φ] in
/-- A descriptor that the last scan found ready, and that still is, has no event. -/
theorem not_reported_of_stale (hget : ep.interestList.get? fd = some e) (het : e.asks EPOLLET = true)
    (hlast : ep.lastReady fd = true) : reported (ep.epollPwait isEpoll ready maxevents buf).2 fd b = false := by
  cases hl : (ep.epollPwait isEpoll ready maxevents buf).2 with
  | none => rfl
  | some l =>
    refine any_eq_false.2 fun z hz => ?_
    rw [Bool.and_eq_true, not_and]
    intro hzfd
    obtain ⟨⟨fd', e'⟩, hx, hxz⟩ := due_of_reported hl hz
    obtain ⟨hmem, hdeliver⟩ := mem_filter.1 hx
    obtain rfl : fd' = fd := hxz.trans (eq_of_beq hzfd)
    obtain rfl : e' = e := Option.some.inj ((OrdMap.mem_entries.1 hmem).symm.trans hget)
    simp [deliver, het, hlast] at hdeliver

/-- The scans of the given calls, with nothing else happening. -/
def pwaits (isEpoll : φ → Bool) (s : Epolls φ) (calls : List (Int × Option (Nat → Bool))) : Epolls φ :=
  s.run isEpoll (calls.map fun c => .pwait c.1 c.2)

/-- A readiness that is owed and there, and that no scan will report. -/
def Lost (isEpoll : φ → Bool) (s : Epolls φ) (fd : Nat) (b : Side) : Prop :=
  s.owed fd b = true ∧ present s.ep s.ready fd b = true ∧ ∀ calls maxevents buf,
    reported ((pwaits isEpoll s calls).ep.epollPwait isEpoll s.ready maxevents buf).2 fd b = false

/-- An edge is lost if the last scan found its descriptor ready, for whatever reason. -/
theorem lost_of_lastReady (howed : s.owed fd b = true) (hpresent : present s.ep s.ready fd b = true)
    (hplain : Plain isEpoll s.ep fd) (hlast : s.ep.lastReady fd = true) : Lost isEpoll s fd b := by
  refine ⟨howed, hpresent, fun calls => ?_⟩
  obtain ⟨event, hget, het, hbit⟩ := polled_of_present hpresent hplain
  -- scans leave the registration and the readiness, and so find the descriptor ready again
  have hstale : ∀ s' : Epolls φ, s'.ep.interestList = s.ep.interestList → s'.ep.watchedFiles = s.ep.watchedFiles →
      s'.ready = s.ready → s'.ep.lastReady fd = true → (pwaits isEpoll s' calls).ep.interestList = s.ep.interestList ∧
        (pwaits isEpoll s' calls).ep.lastReady fd = true := by
    induction calls with
    | nil => exact fun s' hi _ _ hl => ⟨hi, hl⟩
    | cons c calls ih =>
      intro s' hi hw hr hl
      obtain ⟨m, buf⟩ := c
      by_cases hm : m ≤ 0 ∨ buf.isNone
      · have hstep : s'.step isEpoll (.pwait m buf) = s' := by simp only [step, if_pos hm]
        simpa only [pwaits, run, map_cons, foldl_cons, hstep] using ih s' hi hw hr hl
      · cases buf with
        | none => exact absurd (.inr rfl) hm
        | some writes =>
          refine ih (s'.step isEpoll (.pwait m (some writes))) ?_ ?_ ?_ ?_ <;>
            simp only [step, if_neg hm, epollPwait, if_neg (not_or.1 hm).1]
          · exact hi
          · exact hw
          · exact hr
          · rw [lastReady_collect (e := event) (by rw [hi]; exact hget)]
            have hpolled : s'.ep.polled isEpoll s'.ready fd event = s.ep.polled isEpoll s.ready fd event := by
              rw [polled, polled, hw, hr]
            rw [hpolled, bne_iff_ne]
            exact ne_zero_of_and hbit
  obtain ⟨hi, hl⟩ := hstale s rfl rfl rfl hlast
  exact fun maxevents buf => not_reported_of_stale (by rw [hi]; exact hget) het hl

def unready : Readiness := ⟨false, false, false, false⟩

def readable : Readiness := ⟨false, false, true, false⟩

def readWrite : Readiness := ⟨false, false, true, true⟩

def edge (flags : UInt32) : EpollEvent := ⟨EPOLLET ||| flags, 0⟩

/-- Descriptor 5 is watched for input and its file becomes readable. -/
def becomesReadable : List (EpollCall Nat) := [.ctl .add 5 0 (edge EPOLLIN), .change 0 readable]

/-- A call with a buffer that can be written. -/
def pwait (maxevents : Int) : EpollCall Nat := .pwait maxevents (some fun _ => true)

/-- `edge_reported` where input comes up between two scans. -/
theorem edge_reported_input : reported
    (((init fun _ => unready).run (fun _ => false) becomesReadable).ep.epollPwait (fun _ => false)
      ((init fun _ => unready).run (fun _ => false) becomesReadable).ready 1 (some fun _ => true)).2 5 .input = true := by
  have hfresh : ∀ fd : Nat, update (fun _ => false) 5 false fd = false := fun fd => by
    rw [update_apply, ite_self]
  refine edge_reported (c := becomesReadable) ⟨trivial, fun fd b _ => ⟨?_, fun _ _ _ => ?_⟩, trivial⟩ rfl (by decide)
    (fun _ writes hwrites => ⟨by decide, fun _ _ => ?_⟩) (by decide) (fun _ _ => rfl) (by decide)
  · exact hfresh fd
  · exact hfresh fd
  · cases hwrites
    rfl

/-- The file of descriptor 5 is read empty after a report and fills up again before the next scan. -/
def fillsUpAgain : List (EpollCall Nat) := becomesReadable ++ [pwait 1, .change 0 unready, .change 0 readable]

/-- Output comes up for descriptor 5 while it has input. -/
def outputAfterInput : List (EpollCall Nat) :=
  [.ctl .add 5 0 (edge (EPOLLIN ||| EPOLLOUT)), .change 0 readable, pwait 1, .change 0 readWrite]

/-- Descriptors 5 and 6 become readable, and a call asks for one event. -/
def cutOff : List (EpollCall Nat) :=
  [.ctl .add 5 0 (edge EPOLLIN), .ctl .add 6 1 (edge EPOLLIN), .change 0 readable, .change 1 readable, pwait 1]

/-- Descriptor 5 becomes readable, and the event for it cannot be written. -/
def faulting : List (EpollCall Nat) := becomesReadable ++ [.pwait 1 (some fun _ => false)]

/-- An edge between two scans, one of the other kind of readiness, one beyond `maxevents` and one whose event meets
`EFAULT` are lost. -/
theorem edges_lost :
    Lost (fun _ => false) ((init fun _ => unready).run (fun _ => false) fillsUpAgain) 5 .input ∧
    Lost (fun _ => false) ((init fun _ => unready).run (fun _ => false) outputAfterInput) 5 .output ∧
    Lost (fun _ => false) ((init fun _ => unready).run (fun _ => false) cutOff) 6 .input ∧
    Lost (fun _ => false) ((init fun _ => unready).run (fun _ => false) faulting) 5 .input := by
  refine ⟨lost_of_lastReady ?_ ?_ (fun _ _ => rfl) ?_, lost_of_lastReady ?_ ?_ (fun _ _ => rfl) ?_,
    lost_of_lastReady ?_ ?_ (fun _ _ => rfl) ?_, lost_of_lastReady ?_ ?_ (fun _ _ => rfl) ?_⟩
  all_goals decide

end Epolls

end ShellCore.Fs
