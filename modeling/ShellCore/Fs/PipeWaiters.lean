import ShellCore.Lib.Waiting
import ShellCore.Fs.Pipe

/-!
# What readers and writers of a pipe see

The bytes come out of a pipe as they went in. A task that sleeps on it is found by the transfers of the other side,
and by the last close of the other end; but each transfer wakes one task only, so the others sleep on unless nobody
else waits.
-/

namespace ShellCore.Fs.Pipe

open Relation

open Sched (Sleep)

variable {τ α : Type} {side : PipeEnd} {p : Pc τ α} {interrupted : Bool}

/-! ## First in, first out -/

section

variable [DecidableEq τ] [Fintype τ] {s s' : Pipe τ α} {t : τ} {cmd : Cmd τ α}

/-- The buffer holds what was accepted and not yet returned. -/
def Fifo (s : Pipe τ α) : Prop := ∃ bytes, s.ring.Holds bytes ∧ s.accepted = s.returned ++ bytes

omit [DecidableEq τ] [Fintype τ] in
theorem fifo_make (zero : α) : (make zero : Pipe τ α).Fifo := ⟨[], PipeRingBuffer.holds_new zero, rfl⟩

theorem Fifo.readSection (h : s.Fifo) (want : Nat) : (s.readSection t want).Fifo := by
  obtain ⟨bytes, hring, heq⟩ := h
  unfold Pipe.readSection
  simp only
  split
  case isTrue => exact ⟨bytes, hring, heq⟩
  case isFalse =>
    have hle : min s.ring.availableRead want ≤ bytes.length := by
      rw [hring.availableRead_eq]
      exact Nat.min_le_left ..
    obtain ⟨htake, hdrop⟩ := hring.readBytes hle
    refine ⟨_, hdrop, ?_⟩
    show s.accepted = s.returned ++ (s.ring.readBytes _).1 ++ _
    rw [htake, List.append_assoc, List.take_append_drop, heq]

omit [DecidableEq τ] [Fintype τ] in
theorem Fifo.accept (h : s.Fifo) {more} (hroom : more.length ≤ s.ring.availableWrite) : (s.accept more).Fifo := by
  obtain ⟨bytes, hring, heq⟩ := h
  rw [hring.availableWrite_eq] at hroom
  have hfits := hring.fits
  refine ⟨bytes ++ more, hring.writeBytes (by omega), ?_⟩
  show s.accepted ++ more = s.returned ++ (bytes ++ more)
  rw [heq, List.append_assoc]

theorem Fifo.writeSection (h : s.Fifo) (rest : List α) (already : Nat) : (s.writeSection t rest already).Fifo := by
  unfold Pipe.writeSection
  simp only
  split
  case isTrue => exact h
  case isFalse =>
    split
    case isTrue => exact h
    case isFalse =>
      split
      case isTrue => exact h
      case isFalse => exact h.accept (List.length_take_le ..)

theorem Fifo.writeNonblockSection (h : s.Fifo) (bytes : List α) : (s.writeNonblockSection t bytes).Fifo := by
  unfold Pipe.writeNonblockSection
  simp only
  split
  case isTrue => exact h
  case isFalse => exact h.accept (List.length_take_le ..)

/-- The buffer and the two logs are as before. -/
def SameBytes (s s' : Pipe τ α) : Prop := s'.ring = s.ring ∧ s'.accepted = s.accepted ∧ s'.returned = s.returned

omit [DecidableEq τ] [Fintype τ] in
theorem Fifo.same (h : s.Fifo) (hsame : SameBytes s s') : s'.Fifo := by
  obtain ⟨hring, haccepted, hreturned⟩ := hsame
  unfold Fifo
  rw [hring, haccepted, hreturned]
  exact h

theorem sameBytes_block (side : PipeEnd) (wait again : Pc τ α) : SameBytes s (s.block t side wait again) := by
  unfold block
  split
  · exact ⟨rfl, rfl, rfl⟩
  · exact ⟨rfl, rfl, rfl⟩

omit [Fintype τ] in
theorem sameBytes_schedule {resume} (h : s.schedule t resume = some s') : SameBytes s s' := by
  unfold schedule at h
  split at h
  · cases h
    exact ⟨rfl, rfl, rfl⟩
  · cases h
    exact ⟨rfl, rfl, rfl⟩
  · cases h

omit [Fintype τ] in
theorem sameBytes_look (queue : PipeEnd) (all : Bool) (u : τ) (k : After α) : SameBytes s (s.look t queue all u k) := by
  unfold look
  split
  · exact ⟨rfl, rfl, rfl⟩
  · exact ⟨rfl, rfl, rfl⟩
  · exact ⟨rfl, rfl, rfl⟩

theorem sameBytes_dropEnd (side : PipeEnd) : SameBytes s (s.dropEnd t side) := by
  unfold dropEnd
  simp only
  split
  · exact ⟨rfl, rfl, rfl⟩
  · exact ⟨rfl, rfl, rfl⟩

theorem Fifo.next (h : s.Fifo) (hstep : s.next t interrupted = some s') : s'.Fifo := by
  unfold Pipe.next at hstep
  cases hpc : s.pc t <;> simp only [hpc] at hstep
  case user => cases hstep
  case readLoop want =>
    cases hstep
    exact h.readSection want
  case readBlock | writeBlock =>
    cases hstep
    exact h.same (sameBytes_block ..)
  case readWait | writeWait => exact h.same (sameBytes_schedule hstep)
  case readRemove | readRecheck | writeSignal | writeRemove | wakeUpTask =>
    cases hstep
    exact h.same ⟨rfl, rfl, rfl⟩
  case writeLoop rest already =>
    cases hstep
    exact h.writeSection rest already
  case writeNonblock bytes =>
    cases hstep
    exact h.writeNonblockSection bytes
  case wakeUpOne queue all k =>
    split at hstep
    · cases hstep
      exact h.same ⟨rfl, rfl, rfl⟩
    · cases hstep
      exact h.same ⟨rfl, rfl, rfl⟩
  case popped =>
    cases hstep
    exact h.same (sameBytes_look ..)
  case leaving =>
    cases hstep
    exact h.same (sameBytes_dropEnd _)

omit [DecidableEq τ] [Fintype τ] in
theorem Pc.eq_user (h : p.isUser = true) : p = .user := by
  cases p <;> first | rfl | cases h

omit [Fintype τ] in
theorem call_eq {pc} (h : s.call t side pc = some s') :
    s.pc t = .user ∧ 0 < s.fds side ∧ s' = s.goto t pc := by
  obtain ⟨⟨huser, hfds⟩, h⟩ := Option.ite_none_right_eq_some.1 h
  exact ⟨Pc.eq_user huser, hfds, (Option.some.inj h).symm⟩

theorem Fifo.step (h : s.Fifo) (hstep : s.step t cmd = some s') : s'.Fifo := by
  cases cmd with
  | dup side =>
    obtain ⟨-, rfl⟩ := of_guard hstep
    exact h.same ⟨rfl, rfl, rfl⟩
  | close side =>
    obtain ⟨-, rfl⟩ := of_guard hstep
    exact h.same (sameBytes_dropEnd (s := { s with fds := _ }) side)
  | read | write | writeNonblock | probe =>
    obtain ⟨-, -, rfl⟩ := call_eq hstep
    exact h.same ⟨rfl, rfl, rfl⟩
  | signal u =>
    cases hstep
    exact h.same ⟨rfl, rfl, rfl⟩
  | next interrupted => exact h.next hstep

end

/-! ## Who waits and who wakes -/

/-- The queue that a task sleeps on. -/
def Pc.waitsOn : Pc τ α → Option PipeEnd
  | readWait _ => some .read
  | writeWait _ _ => some .write
  | _ => none

/-- The task that a wake-up has taken off a queue. -/
def Pc.hand : Pc τ α → Option τ
  | popped _ _ u _ | wakeUpTask _ _ u _ => some u
  | _ => none

/-- The task goes on to take a sleeper off the queue; a write that has put bytes into the buffer wakes a reader up before
it returns or sleeps. -/
def Pc.owes : Pc τ α → PipeEnd → Bool
  | writeLoop _ already, side => side = .read && 0 < already
  | wakeUpOne queue _ _, side | popped queue _ _ _, side => queue = side
  | wakeUpTask queue all _ _, side => all && queue = side
  | _, _ => false

/-- A wake-up is in flight. -/
def Pc.wakes : Pc τ α → Bool
  | writeLoop _ already => 0 < already
  | wakeUpOne _ _ _ | popped _ _ _ _ | wakeUpTask _ _ _ _ => true
  | _ => false

theorem Pc.owes_of_not_wakes (h : p.wakes = false) (side : PipeEnd) : p.owes side = false := by
  cases p <;> simp_all [wakes, owes]

theorem Pc.hand_of_not_wakes (h : p.wakes = false) : p.hand = none := by
  cases p <;> simp_all [wakes, hand]

theorem Pc.holds_of_waitsOn (h : p.waitsOn = some side) : p.holds = some side := by
  cases p <;> simp_all [waitsOn, holds]

@[simp] theorem After.holds_pc (k : After α) : (k.pc : Pc τ α).holds = k.holds := by
  cases k <;> rfl

@[simp] theorem After.waitsOn_pc (k : After α) : (k.pc : Pc τ α).waitsOn = none := by
  cases k <;> rfl

@[simp] theorem holds_woke (queue : PipeEnd) (all : Bool) (k : After α) : (woke queue all k : Pc τ α).holds = k.holds := by
  cases all with
  | true => rfl
  | false => exact k.holds_pc

@[simp] theorem waitsOn_woke (queue : PipeEnd) (all : Bool) (k : After α) : (woke queue all k : Pc τ α).waitsOn = none := by
  cases all with
  | true => rfl
  | false => exact k.waitsOn_pc

variable [DecidableEq τ] [Fintype τ] {s s' s₁ : Pipe τ α} {t : τ} {p : Pc τ α} {cmd : Cmd τ α}

def view (s : Pipe τ α) : WaitView τ PipeEnd :=
  .ofActors Pc.waitsOn (fun p u => p.hand = some u) (fun p side => p.owes side = true) s.pc (fun t => (s.sleep t).waits = true)
    s.waiters fun side => s.shouldBlock side = true

theorem endsClosed_goto (hfds : s₁.fds side = s.fds side) (hpc : s₁.pc = s.pc)
    (h : p.holds = some side ↔ (s.pc t).holds = some side) : (s₁.goto t p).endsClosed side = s.endsClosed side := by
  have hholds : ∀ u, ((s₁.goto t p).pc u).holds = some side ↔ (s.pc u).holds = some side := by
    intro u
    by_cases hu : u = t
    · subst hu
      simpa [goto] using h
    · simp [goto, hu, hpc]
  simp only [endsClosed, ne_eq, hholds]
  simp only [goto, hfds]

/-- The closures answer as before if the buffer, the descriptors and the end that the task holds are the same. -/
theorem shouldBlock_goto (hring : s₁.ring = s.ring) (hfds : s₁.fds = s.fds) (hpc : s₁.pc = s.pc)
    (h : p.holds = (s.pc t).holds) (side : PipeEnd) : (s₁.goto t p).shouldBlock side = s.shouldBlock side := by
  have hclosed : ∀ i, (s₁.goto t p).endsClosed i = s.endsClosed i := fun i =>
    endsClosed_goto (congrFun hfds i) hpc (by rw [h])
  cases side <;> simp only [shouldBlock, hclosed] <;> simp only [goto, hring]

variable {u : τ}

omit [DecidableEq τ] in
/-- Somebody who sleeps at an end keeps it open. -/
theorem endsClosed_of_asleep (h : s.view.asleep u side) : s.endsClosed side = false := by
  have hholds := Pc.holds_of_waitsOn h.1
  simp only [endsClosed, Bool.and_eq_false_iff, decide_eq_false_iff_not]
  exact .inr fun hall => hall u hholds

/-- A step that changes neither queues nor sleepers. -/
theorem follows_goto (hpc : s₁.pc = s.pc) (hsleep : s₁.sleep = s.sleep) (hq : s₁.waiters = s.waiters)
    (hwait : p.waitsOn = none) (hhand : ∀ u, (s.pc t).hand = some u → p.hand = some u ∨ (s.sleep u).waits = false)
    (howes : ∀ side, (s.pc t).owes side = true → p.owes side = true ∨
      ∀ u, (s₁.goto t p).view.asleep u side → u ∈ s.waiters side → p.hand = some u)
    (hcalm : ∀ side, s.shouldBlock side = true → (s₁.goto t p).shouldBlock side = true ∨ p.owes side = true) :
    s.view.Follows (s₁.goto t p).view t := by
  unfold view
  rw [← hpc, ← hsleep] at hhand
  rw [← hpc, ← hq] at howes
  rw [← hpc, ← hsleep, ← hq]
  exact WaitView.follows_update hwait (fun _ _ => id) (fun _ _ _ => .inl) (fun _ _ => id)
    (fun u h => (hhand u h).imp_right Bool.eq_false_iff.1) (fun side h => (howes side h).imp_right fun hall u hw hs => hall u ⟨hw, hs⟩)
    hcalm

/-- A step that changes nothing but where the task stands. -/
theorem follows_move (hholds : p.holds = (s.pc t).holds) (hwait : p.waitsOn = none)
    (hhand : ∀ u, (s.pc t).hand = some u → p.hand = some u ∨ (s.sleep u).waits = false)
    (howes : ∀ side, (s.pc t).owes side = true → p.owes side = true ∨
      ∀ u, (s.goto t p).view.asleep u side → u ∈ s.waiters side → p.hand = some u) :
    s.view.Follows (s.goto t p).view t :=
  follows_goto rfl rfl rfl hwait hhand howes fun side h => .inl ((shouldBlock_goto rfl rfl rfl hholds side).trans h)

/-- A step that ends the sleep of `u`. -/
theorem follows_wake {sleep} (hsleep : sleep.waits = false) (hholds : p.holds = (s.pc t).holds) (hwait : p.waitsOn = none)
    (hhand : ∀ v, (s.pc t).hand = some v → v = u)
    (howes : ∀ side, (s.pc t).owes side = true → p.owes side = true ∨ ∀ v ∈ s.waiters side, v ≠ u → (s.sleep v).waits = false) :
    s.view.Follows ((s.setSleep u sleep).goto t p).view t :=
  WaitView.follows_wake (W := fun x : Sleep => x.waits = true) (by simp [hsleep]) hwait (fun v hv => .inr (hhand v hv))
    (by simpa using howes) fun side h => .inl ((shouldBlock_goto (s := s) rfl rfl rfl hholds side).trans h)

theorem follows_readSection {want} (hpc : s.pc t = .readLoop want) :
    s.view.Follows (s.readSection t want).view t := by
  unfold Pipe.readSection
  simp only
  split
  case isTrue =>
    refine follows_move ?_ ?_ (by simp [hpc, Pc.hand]) (by simp [hpc, Pc.owes])
    · rw [hpc]
      split <;> rfl
    · split <;> rfl
  case isFalse hne =>
    refine follows_goto rfl rfl rfl rfl (by simp [hpc, Pc.hand]) (by simp [hpc, Pc.owes]) fun side hcalm => .inr ?_
    cases side with
    | read => simp [shouldBlock, hne] at hcalm
    | write => rfl

/-- After bytes were put into the buffer, a reader is going to be woken up. -/
theorem follows_accept {bytes} (hhand : (s.pc t).hand = none) (howes : (s.pc t).owes .write = false)
    (hroom : s.ring.availableWrite ≠ 0) (hwait : p.waitsOn = none) (hp : p.owes .read = true) : s.view.Follows ((s.accept bytes).goto t p).view t := by
  refine follows_goto rfl rfl rfl hwait (by simp [hhand]) ?_ ?_
  · intro side hside
    cases side with
    | read => exact .inl hp
    | write => simp [howes] at hside
  · intro side hcalm
    cases side with
    | read => exact .inr hp
    | write => simp [shouldBlock, hroom] at hcalm

/-- With the read ends closed no reader sleeps. -/
theorem not_asleep_of_closed (h : s.endsClosed .read = true) (hp : p.holds = (s.pc t).holds) (u : τ) :
    ¬(s.goto t p).view.asleep u .read := by
  intro hu
  have hopen := endsClosed_of_asleep hu
  rw [endsClosed_goto rfl rfl (by rw [hp]), h] at hopen
  cases hopen

theorem follows_writeSection {rest already} (hpc : s.pc t = .writeLoop rest already) :
    s.view.Follows (s.writeSection t rest already).view t := by
  have howes : ∀ side, (s.pc t).owes side = true → side = .read ∧ 0 < already := by simp [hpc, Pc.owes]
  have hhand : (s.pc t).hand = none := by rw [hpc]; rfl
  have hholds : (s.pc t).holds = some .write := by rw [hpc]; rfl
  -- the write returns without a wake-up when nobody can read any more
  have hbroken : s.endsClosed .read = true → s.view.Follows (s.goto t (.leaving .write)).view t := by
    intro hclosed
    refine follows_move hholds.symm rfl (by simp [hhand]) fun side hside => .inr fun u hu _ => ?_
    obtain ⟨rfl, -⟩ := howes side hside
    exact absurd hu (not_asleep_of_closed (p := .leaving .write) hclosed hholds.symm u)
  unfold Pipe.writeSection
  simp only
  split
  case isTrue =>
    split
    case isTrue hclosed => exact hbroken hclosed
    case isFalse =>
      split
      case isTrue =>
        refine follows_move hholds.symm rfl (by simp [hhand]) fun side hside => .inl ?_
        obtain ⟨rfl, -⟩ := howes side hside
        rfl
      case isFalse hzero =>
        exact follows_move hholds.symm rfl (by simp [hhand]) fun side hside => absurd (howes side hside).2 hzero
  case isFalse hroom =>
    split
    case isTrue =>
      refine follows_move hholds.symm rfl (by simp [hhand]) fun side hside => .inl ?_
      obtain ⟨rfl, -⟩ := howes side hside
      rfl
    case isFalse =>
      split
      case isTrue hclosed => exact hbroken hclosed
      case isFalse =>
        refine follows_accept hhand (by simp [hpc, Pc.owes]) hroom ?_ ?_
        · split <;> rfl
        · split
          · rfl
          · have : 0 < already + s.ring.availableWrite := by omega
            simp [Pc.owes, this]

theorem follows_writeNonblockSection {bytes} (hpc : s.pc t = .writeNonblock bytes) :
    s.view.Follows (s.writeNonblockSection t bytes).view t := by
  unfold Pipe.writeNonblockSection
  simp only
  split
  case isTrue => exact follows_move (by rw [hpc]; rfl) rfl (by simp [hpc, Pc.hand]) (by simp [hpc, Pc.owes])
  case isFalse h =>
    have hroom : s.ring.availableWrite ≠ 0 := by
      intro h0
      simp [h0] at h
    exact follows_accept (by rw [hpc]; rfl) (by rw [hpc]; rfl) hroom rfl rfl

theorem follows_block {wait again} (hhand : (s.pc t).hand = none)
    (howes : ∀ side, (s.pc t).owes side = false) (hwait : wait.waitsOn = some side)
    (hwait' : wait.holds = (s.pc t).holds) (hagain : again.holds = (s.pc t).holds) (hagain' : again.waitsOn = none) :
    s.view.Follows (s.block t side wait again).view t := by
  unfold block
  split
  case isFalse => exact follows_move hagain hagain' (by simp [hhand]) (by simp [howes])
  case isTrue hblock =>
    have hcalm : ∀ i, (((s.setSleep t (.saving false)).setWaiters side (s.waiters side ++ [t])).goto t wait).shouldBlock i =
        s.shouldBlock i := shouldBlock_goto rfl rfl rfl hwait'
    refine WaitView.follows_sleep hwait (fun u hu hs => ?_) (by simp [hhand]) (by simp [howes]) (fun i hi => (hcalm i).trans hi)
      ((hcalm side).trans hblock)
    simpa [goto, setSleep, setWaiters, hu] using hs

/-- What the others do to a sleeping task, and the scheduler. -/
theorem follows_setSleep {sleep} (h : sleep.waits = true → (s.sleep u).waits = true) :
    s.view.Follows (s.setSleep u sleep).view t := by
  refine WaitView.follows_waits (fun v => ?_) fun i hi => ?_
  · exact forall_update (motive := fun v (x : Sleep) => x.waits = true → (s.sleep v).waits = true) v h fun _ => id
  · cases i <;> exact hi

theorem follows_schedule {resume} (hpc : (s.pc t).waitsOn = some side)
    (hholds : resume.holds = (s.pc t).holds) (hwait : resume.waitsOn = none) (h : s.schedule t resume = some s') :
    s.view.Follows s'.view t := by
  have hhand : (s.pc t).hand = none := by
    cases hp : s.pc t <;> simp [hp, Pc.waitsOn] at hpc <;> rfl
  have howes : ∀ i, (s.pc t).owes i = false := by
    intro i
    cases hp : s.pc t <;> simp [hp, Pc.waitsOn] at hpc <;> rfl
  unfold schedule at h
  split at h
  case h_1 pending hs =>
    cases h
    refine follows_setSleep fun hw => ?_
    rw [Sleep.waits_commit] at hw
    rw [hs]
    exact hw
  case h_2 hs =>
    cases h
    exact follows_wake rfl hholds hwait (by simp [hhand]) (by simp [howes])
  case h_3 => cases h

theorem follows_removeByTid (hhand : (s.pc t).hand = none) (howes : ∀ side, (s.pc t).owes side = false)
    (hholds : p.holds = (s.pc t).holds) (hwait : p.waitsOn = none) :
    s.view.Follows ((s.removeByTid side t).goto t p).view t := by
  exact WaitView.follows_queue hwait (fun u hu hmem => by simp [hmem, hu]) (List.filter_subset_self _) (by simp [hhand]) (by simp [howes])
    fun i hi => .inl ((shouldBlock_goto rfl rfl rfl hholds i).trans hi)

/-- When `wake_up_one` has found somebody to wake up, nobody else waits in the queue. -/
def Orderly (s : Pipe τ α) (t : τ) : Cmd τ α → Prop
  | .next _ =>
    ∀ queue u k, s.pc t = .popped queue false u k → (s.sleep u).accepts = true →
      ∀ v ∈ s.waiters queue, v ≠ u → (s.sleep v).waits = false
  | _ => True

/-- A checker of `Orderly`. -/
def orderly (s : Pipe τ α) (t : τ) : Bool :=
  match s.pc t with
  | .popped queue false u _ => !(s.sleep u).accepts || (s.waiters queue).all fun v => v = u || !(s.sleep v).waits
  | _ => true

omit [Fintype τ] in
theorem orderly_spec (h : s.orderly t = true) : s.Orderly t cmd := by
  cases cmd with
  | next interrupted =>
    intro queue u k hpc hu v hv hvu
    simp only [orderly, hpc, hu, Bool.not_true, Bool.false_or, List.all_eq_true] at h
    simpa [hvu] using h v hv
  | _ => trivial

variable {queue : PipeEnd} {k : After α} {all : Bool}

theorem follows_wakeUpOne {rest} (hpc : s.pc t = .wakeUpOne queue all k) (hq : s.waiters queue = u :: rest) :
    s.view.Follows ((s.setWaiters queue rest).goto t (.popped queue all u k)).view t := by
  refine WaitView.follows_queue rfl (fun v _ hmem => ?_) ?_ (by simp [hpc, Pc.hand]) (fun i hi => .inl ?_) fun i hi =>
    .inl ((shouldBlock_goto (s := s) rfl rfl rfl (by rw [hpc]; rfl) i).trans hi)
  · rw [hq] at hmem
    exact (List.mem_cons.1 hmem).symm.imp_right fun h => congrArg some h.symm
  · rw [hq]
    exact List.subset_cons_self ..
  · simpa [hpc, Pc.owes] using hi

theorem follows_look (hpc : s.pc t = .popped queue all u k)
    (ho : all = false → (s.sleep u).accepts = true → ∀ v ∈ s.waiters queue, v ≠ u → (s.sleep v).waits = false) :
    s.view.Follows (s.look t queue all u k).view t := by
  have hhand : ∀ v, (s.pc t).hand = some v → v = u := by simp [hpc, Pc.hand]
  have howes : ∀ i, (s.pc t).owes i = true → i = queue := by simp [hpc, Pc.owes]
  have hholds : (s.pc t).holds = k.holds := by rw [hpc]; rfl
  unfold look
  split
  case h_1 pending hs =>
    refine follows_wake rfl (by rw [holds_woke, hholds]) (waitsOn_woke ..) hhand fun i hi => ?_
    obtain rfl := howes i hi
    cases all with
    | true => simp [woke, Pc.owes]
    | false => exact .inr (ho rfl (by rw [hs]; rfl))
  case h_2 hs =>
    refine follows_move hholds.symm rfl ?_ ?_
    · intro v hv
      obtain rfl := hhand v hv
      exact .inl rfl
    · intro i hi
      obtain rfl := howes i hi
      cases all with
      | true => simp [Pc.owes]
      | false =>
        refine .inr fun v hv hmem => ?_
        by_cases hvu : v = u
        · rw [hvu]
          rfl
        · have hw : (s.sleep v).waits = true := hv.2
          rw [ho rfl (by rw [hs]; rfl) v hmem hvu] at hw
          cases hw
  case h_3 hsaving hblocked =>
    refine follows_move hholds.symm rfl ?_ ?_
    · intro v hv
      obtain rfl := hhand v hv
      right
      cases hs : s.sleep v with
      | saving pending => exact absurd hs (hsaving pending)
      | blocked => exact absurd hs hblocked
      | _ => rfl
    · intro i hi
      obtain rfl := howes i hi
      simp [Pc.owes]

theorem follows_wakeUpTask (hpc : s.pc t = .wakeUpTask queue all u k) :
    s.view.Follows ((s.setSleep u (s.sleep u).wake).goto t (woke queue all k)).view t := by
  refine follows_wake (Sleep.waits_wake _) (by rw [holds_woke, hpc]; rfl) (waitsOn_woke ..) ?_ fun i hi => .inl ?_
  · simp [hpc, Pc.hand]
  · obtain ⟨rfl, rfl⟩ : all = true ∧ queue = i := by simpa [hpc, Pc.owes] using hi
    simp [woke, Pc.owes]

omit [DecidableEq τ] in
theorem endsClosed_iff : s.endsClosed side = true ↔ s.fds side = 0 ∧ ∀ u, (s.pc u).holds ≠ some side := by
  simp [endsClosed]

attribute [simp] PipeEnd.other Pc.holds

/-- The references to the end may change by a step of `t`; with the last one the other side is to be woken up. -/
theorem follows_ends (side : PipeEnd) (hring : s₁.ring = s.ring) (hwaiters : s₁.waiters = s.waiters) (hsleep : s₁.sleep = s.sleep)
    (hpc : s₁.pc = s.pc) (hhand : (s.pc t).hand = none) (howes : ∀ i, (s.pc t).owes i = false) (hwait : p.waitsOn = none)
    (hother : (s₁.goto t p).endsClosed side.other = s.endsClosed side.other)
    (hside : (s₁.goto t p).endsClosed side = true → s.endsClosed side = true ∨ p.owes side.other = true) :
    s.view.Follows (s₁.goto t p).view t := by
  refine follows_goto hpc hsleep hwaiters hwait (by simp [hhand]) (by simp [howes]) fun i hi => ?_
  have hring' : (s₁.goto t p).ring = s.ring := hring
  cases hc : (s₁.goto t p).endsClosed side with
  | false =>
    left
    cases i <;> cases side <;> simp_all [shouldBlock]
  | true =>
    rcases hside hc with hs | hs
    · left
      cases i <;> cases side <;> simp_all [shouldBlock]
    · cases i <;> cases side <;> simp_all [shouldBlock]

theorem follows_dropEnd (hring : s₁.ring = s.ring) (hwaiters : s₁.waiters = s.waiters)
    (hsleep : s₁.sleep = s.sleep) (hpc : s₁.pc = s.pc) (hfds : s₁.fds side.other = s.fds side.other)
    (hhand : (s.pc t).hand = none) (howes : ∀ i, (s.pc t).owes i = false) (hholds : (s.pc t).holds ≠ some side.other) :
    s.view.Follows (s₁.dropEnd t side).view t := by
  unfold dropEnd
  simp only
  split
  case isTrue =>
    rw [show (s₁.goto t .user).goto t (.wakeUpOne side.other true .user) = s₁.goto t (.wakeUpOne side.other true .user) by
      simp [goto]]
    refine follows_ends side hring hwaiters hsleep hpc hhand howes rfl (endsClosed_goto hfds hpc ?_) fun _ => .inr ?_
    · exact iff_of_false (by simp [After.holds]) hholds
    · simp [Pc.owes]
  case isFalse hopen =>
    refine follows_ends side hring hwaiters hsleep hpc hhand howes rfl (endsClosed_goto hfds hpc ?_) fun h =>
      absurd h hopen
    exact iff_of_false (by simp) hholds

theorem follows_call (hpc : s.pc t = .user) (hfds : 0 < s.fds side) (hp : p.holds = some side)
    (hwait : p.waitsOn = none) : s.view.Follows (s.goto t p).view t := by
  refine follows_ends side rfl rfl rfl rfl (by rw [hpc]; rfl) (by simp [hpc, Pc.owes]) hwait
    (endsClosed_goto rfl rfl ?_) fun h => ?_
  · rw [hpc, hp]
    cases side <;> simp
  · have hzero := (endsClosed_iff.1 h).1
    exact absurd hzero hfds.ne'

theorem follows_next (ho : s.Orderly t (.next interrupted)) (hstep : s.next t interrupted = some s') :
    s.view.Follows s'.view t := by
  unfold Pipe.next at hstep
  cases hpc : s.pc t <;> simp only [hpc] at hstep
  case user => cases hstep
  case readLoop want =>
    cases hstep
    exact follows_readSection hpc
  case readBlock | writeBlock =>
    cases hstep
    exact follows_block (by rw [hpc]; rfl) (by simp [hpc, Pc.owes]) rfl (by rw [hpc]; rfl) (by rw [hpc]; rfl) rfl
  case readWait | writeWait => exact follows_schedule (by rw [hpc]; rfl) (by rw [hpc]; rfl) rfl hstep
  case readRemove | writeRemove =>
    cases hstep
    exact follows_removeByTid (by rw [hpc]; rfl) (by simp [hpc, Pc.owes]) (by rw [hpc]; rfl) rfl
  case readRecheck | writeSignal =>
    cases hstep
    refine follows_move ?_ ?_ (by simp [hpc, Pc.hand]) (by simp [hpc, Pc.owes])
    · rw [hpc]
      repeat' split
      all_goals rfl
    · repeat' split
      all_goals rfl
  case writeLoop rest already =>
    cases hstep
    exact follows_writeSection hpc
  case writeNonblock bytes =>
    cases hstep
    exact follows_writeNonblockSection hpc
  case wakeUpOne queue all k =>
    split at hstep
    case h_1 hq =>
      cases hstep
      refine follows_move (by rw [hpc, After.holds_pc]; rfl) (After.waitsOn_pc k) (by simp [hpc, Pc.hand]) fun side hside => ?_
      obtain rfl : queue = side := by simpa [hpc, Pc.owes] using hside
      simp [hq]
    case h_2 u rest hq =>
      cases hstep
      exact follows_wakeUpOne hpc hq
  case popped queue all u k =>
    cases hstep
    refine follows_look hpc fun hall => ?_
    subst hall
    exact ho queue u k hpc
  case wakeUpTask queue all u k =>
    cases hstep
    exact follows_wakeUpTask hpc
  case leaving side =>
    cases hstep
    refine follows_dropEnd rfl rfl rfl rfl rfl (by rw [hpc]; rfl) (by simp [hpc, Pc.owes]) ?_
    rw [hpc]
    cases side <;> simp

theorem follows_step (ho : s.Orderly t cmd) (hstep : s.step t cmd = some s') : s.view.Follows s'.view t := by
  cases cmd with
  | dup side =>
    obtain ⟨⟨huser, hfds⟩, rfl⟩ := of_guard hstep
    have hpc := Pc.eq_user huser
    have hself : ∀ fds, ({ s with fds := fds } : Pipe τ α).goto t .user = { s with fds := fds } := by
      intro fds
      rw [← hpc]
      simp [goto]
    rw [← hself]
    refine follows_ends side rfl rfl rfl rfl (by rw [hpc]; rfl) (by simp [hpc, Pc.owes]) rfl
      (endsClosed_goto ?_ rfl (by rw [hpc])) fun h => ?_
    · cases side <;> simp
    · have hzero := (endsClosed_iff.1 h).1
      simp [goto] at hzero
  | close side =>
    obtain ⟨⟨huser, hfds⟩, rfl⟩ := of_guard hstep
    have hpc := Pc.eq_user huser
    refine follows_dropEnd rfl rfl rfl rfl ?_ (by rw [hpc]; rfl) (by simp [hpc, Pc.owes]) (by simp [hpc])
    cases side <;> simp
  | read want | write bytes | writeNonblock bytes | probe side =>
    obtain ⟨hpc, hfds, rfl⟩ := call_eq hstep
    exact follows_call hpc hfds rfl rfl
  | signal u =>
    cases hstep
    exact follows_setSleep (by simp)
  | next interrupted => exact follows_next ho hstep

/-! ## Whole runs -/

def OrderlyStep (s s' : Pipe τ α) : Prop := ∃ t cmd, s.Orderly t cmd ∧ s.step t cmd = some s'

omit [DecidableEq τ] in
theorem covered_make (zero : α) : (make zero : Pipe τ α).view.Covered where
  found u side hu := by
    obtain ⟨hw, -⟩ := hu
    cases hw
  due u side hu := by
    obtain ⟨hw, -⟩ := hu
    cases hw

def runOrderly : Pipe τ α → List (τ × Cmd τ α) → Option (Pipe τ α) := runGuarded (fun s t _ => s.orderly t) step

theorem orderlySteps_of_runOrderly {l} (h : s.runOrderly l = some s') :
    ReflTransGen OrderlyStep s s' :=
  reaches_of_runGuarded (fun _ t k _ ho hk => ⟨t, k, orderly_spec ho, hk⟩) h

/-- The task is blocked in a read or a write, and not woken up. -/
def BlockedOn (s : Pipe τ α) (t : τ) (side : PipeEnd) : Prop := (s.pc t).waitsOn = some side ∧ (s.sleep t).waits = true

/-- Reads return what writes have put in, in that order. If a wake-up never finds two tasks that wait on one queue, then
as soon as no wake-up is in flight a blocked reader has nothing to read and a blocked writer has no room. -/
theorem fifo_and_none_stranded (zero : α) (s : Pipe τ α) :
    (ReflTransGen Step (make zero) s → s.returned <+: s.accepted) ∧
      (ReflTransGen OrderlyStep (make zero) s → (∀ t, (s.pc t).wakes = false) →
        (∀ t, s.BlockedOn t .read → s.ring.availableRead = 0 ∧ s.endsClosed .write = false) ∧
        ∀ t, s.BlockedOn t .write → s.ring.availableWrite = 0 ∧ s.endsClosed .read = false) := by
  refine ⟨fun hr => ?_, fun hr hcalm => ?_⟩
  · obtain ⟨bytes, -, heq⟩ := inv_of_reachable (I := Fifo) (fifo_make zero) (fun _ _ h ⟨_, _, hstep⟩ => h.step hstep) hr
    exact ⟨bytes, heq.symm⟩
  · have hcov : s.view.Covered :=
      inv_of_reachable (I := fun s => s.view.Covered) (covered_make zero)
        (fun _ _ h ⟨_, _, ho, hstep⟩ => (follows_step ho hstep).covered h) hr
    have hblock : ∀ t side, s.BlockedOn t side → s.shouldBlock side = true := by
      intro t side ht
      refine hcov.calm_of_asleep (fun w i hw => ?_) (fun w u hw => ?_) ht
      · simp [view, WaitView.ofActors, Pc.owes_of_not_wakes (hcalm w)] at hw
      · simp [view, WaitView.ofActors, Pc.hand_of_not_wakes (hcalm w)] at hw
    exact ⟨fun t ht => by simpa [shouldBlock] using hblock t .read ht, fun t ht => by simpa [shouldBlock] using hblock t .write ht⟩

def nexts (t : τ) (n : Nat) : List (τ × Cmd τ α) := List.replicate n (t, .next false)

/-- A read of one byte that finds the buffer empty. -/
def blocks (t : τ) : List (τ × Cmd τ α) := (t, .read 1) :: nexts t 3

/-- A write that wakes a reader up, and the reader's return. -/
def transfers (t u : τ) (bytes : List α) : List (τ × Cmd τ α) := (u, .write bytes) :: (nexts u 5 ++ nexts t 6)

theorem fifo_and_none_stranded_transfers : ∃ s : Pipe (Fin 2) Nat,
    ReflTransGen OrderlyStep (make 0) s ∧ s.BlockedOn 0 .read ∧ s.accepted = [5] ∧
      s.returned <+: s.accepted ∧ s.ring.availableRead = 0 ∧ s.endsClosed .write = false := by
  obtain ⟨s, hrun, hblocked, haccepted, hcalm⟩ : ∃ s, (make 0 : Pipe (Fin 2) Nat).runOrderly
      (blocks 0 ++ transfers 0 1 [5] ++ blocks 0) = some s ∧ ((s.pc 0).waitsOn = some .read ∧ (s.sleep 0).waits = true) ∧
      s.accepted = [5] ∧ ∀ t, (s.pc t).wakes = false := exists_of_any (by decide +kernel)
  have hsteps := orderlySteps_of_runOrderly hrun
  obtain ⟨hfifo, hnone⟩ := fifo_and_none_stranded 0 s
  refine ⟨s, hsteps, hblocked, haccepted, hfifo (steps_of_guarded hsteps), ?_⟩
  exact (hnone hsteps hcalm).1 0 hblocked

/-- Two readers sleep, a write puts two bytes into the buffer and wakes the first one up, which takes one of them. -/
theorem reader_stranded : ∃ s : Pipe (Fin 3) Nat, ReflTransGen Step (make 0) s ∧
    (∀ t, (s.pc t).wakes = false) ∧ s.BlockedOn 1 .read ∧ s.ring.availableRead = 1 := by
  unfold BlockedOn
  exact exists_steps_of_any (blocks 0 ++ blocks 1 ++ transfers 0 2 [5, 6]) (by decide +kernel)

end ShellCore.Fs.Pipe
