import ShellCore.Lib.Actors

/-!
# POSIX timers

The registry of POSIX timers, with the calls that arm a timer, report on it and check all of them. Times are in nanoseconds.
A call reads the clock of a timer at the moment it comes to it.
-/

namespace ShellCore.Task

open Option hiding min_eq_left

open Function

/-- `saturating_add` and `saturating_mul` of a `u128`. -/
def saturate (n : Nat) : Nat := min n (2 ^ 128 - 1)

structure TimeSpec where
  tvSec : UInt64
  tvNsec : UInt64

structure ITimerSpec where
  itInterval : TimeSpec
  itValue : TimeSpec

structure PosixTimer where
  ownerPid : Nat
  clockId : Int
  expiresNs : Option Nat
  intervalNs : Nat
deriving DecidableEq

/-- What the two clocks show at one moment. -/
structure Clock where
  realtimeNs : UInt64
  timeUs : UInt64

def timespecToNs (value : TimeSpec) : Option Nat :=
  if value.tvNsec.toNat ≥ 1_000_000_000 then none
  else some (value.tvSec.toNat * 1_000_000_000 + value.tvNsec.toNat)

def nsToTimespec (value : Nat) : TimeSpec where
  tvSec := .ofNat (min (value / 1_000_000_000) (2 ^ 64 - 1))
  tvNsec := .ofNat (value % 1_000_000_000)

def clockNowNs (now : Clock) (clockId : Int) : Nat :=
  if clockId = 0 then now.realtimeNs.toNat else now.timeUs.toNat * 1_000

/-- One round of the loop of `check_posix_timers`: the timer afterwards, and whether it is one of the expired. -/
def PosixTimer.check (timer : PosixTimer) (nowNs : Nat) : PosixTimer × Bool :=
  match timer.expiresNs with
  | none => (timer, false)
  | some deadline =>
    if deadline > nowNs then (timer, false)
    else if timer.intervalNs = 0 then ({ timer with expiresNs := none }, true)
    else
      let elapsedPeriods := (nowNs - deadline) / timer.intervalNs + 1
      ({ timer with expiresNs := some (saturate (deadline + saturate (elapsedPeriods * timer.intervalNs))) }, true)

/-- `POSIX_TIMERS`, together with the latest time that a call has read, the first expiry of each timer since it was armed last
and how often it has expired since. -/
structure PosixTimers where
  timers : Int → Option PosixTimer
  clock : Clock
  first : Int → Option Nat
  fired : Int → Nat

namespace PosixTimers

/-- Timers as `timer_create` makes them, for a process and a clock each. -/
def created (timers : Int → Option (Nat × Int)) (clock : Clock) : PosixTimers where
  timers id := (timers id).map fun (ownerPid, clockId) => ⟨ownerPid, clockId, none, 0⟩
  clock := clock
  first _ := none
  fired _ := 0

variable (s : PosixTimers)

def getPosixTimerSpec (id : Int) (ownerPid : Nat) (now : Clock) : Option ITimerSpec := do
  let timer ← s.timers id
  if timer.ownerPid ≠ ownerPid then none
  else
    let remainingNs := (timer.expiresNs.map (· - clockNowNs now timer.clockId)).getD 0
    some ⟨nsToTimespec timer.intervalNs, nsToTimespec remainingNs⟩

def setPosixTimer (id : Int) (ownerPid : Nat) (newValue : ITimerSpec) (absolute : Bool) (now : Clock) :
    Option PosixTimers := do
  let intervalNs ← timespecToNs newValue.itInterval
  let valueNs ← timespecToNs newValue.itValue
  let timer ← s.timers id
  if timer.ownerPid ≠ ownerPid then none
  else
    let expiresNs := if valueNs = 0 then none else if absolute then some valueNs
      else some (saturate (clockNowNs now timer.clockId + valueNs))
    some {
      timers := update s.timers id (some { timer with expiresNs, intervalNs })
      clock := now
      first := update s.first id expiresNs
      fired := update s.fired id 0 }

/-- Whether a check that reads the time `now id` for the timer `id` finds it expired. -/
def expired (now : Int → Clock) (id : Int) : Bool :=
  (s.timers id).any fun timer => (timer.check (clockNowNs (now id) timer.clockId)).2

def checkPosixTimers (now : Int → Clock) (later : Clock) : PosixTimers where
  timers id := (s.timers id).map fun timer => (timer.check (clockNowNs (now id) timer.clockId)).1
  clock := later
  first := s.first
  fired id := s.fired id + (s.expired now id).toNat

end PosixTimers

/-- Both clocks have gone on. -/
def Clock.Before (now later : Clock) : Prop := now.realtimeNs ≤ later.realtimeNs ∧ now.timeUs ≤ later.timeUs

/-- The calls, at times that do not decrease. A check is done at `later`. -/
inductive PosixTimers.Step : PosixTimers → PosixTimers → Prop where
  | set {s s' : PosixTimers} {id : Int} {ownerPid : Nat} {newValue : ITimerSpec} {absolute : Bool} {now : Clock}
      (hnow : s.clock.Before now) (h : s.setPosixTimer id ownerPid newValue absolute now = some s') : Step s s'
  | check {s : PosixTimers} {now : Int → Clock} {later : Clock} (hnow : ∀ id, s.clock.Before (now id))
      (hlater : ∀ id, (now id).Before later) : Step s (s.checkPosixTimers now later)
  | get {s : PosixTimers} {now : Clock} (hnow : s.clock.Before now) : Step s { s with clock := now }

/-- A time as user space reads it. -/
def TimeSpec.ns (value : TimeSpec) : Nat := value.tvSec.toNat * 1_000_000_000 + value.tvNsec.toNat

/-- Timers do not drift: what holds at every moment and of the next check. -/
structure PosixTimers.Punctual (s : PosixTimers) : Prop where
  onGrid : ∀ id t e, s.timers id = some t → t.expiresNs = some e → ∃ f k, s.first id = some f ∧ e = f + k * t.intervalNs
  oneShot : ∀ id t f, s.timers id = some t → t.intervalNs = 0 → s.first id = some f →
    t.expiresNs = some f ∧ s.fired id = 0 ∨ t.expiresNs = none ∧ s.fired id = 1
  remaining : ∀ id t pid now spec, s.timers id = some t → t.intervalNs ≠ 0 → 0 < s.fired id → s.clock.Before now →
    s.getPosixTimerSpec id pid now = some spec → spec.itValue.ns ≤ spec.itInterval.ns
  fires : ∀ now id, s.expired now id = true ↔
    ∃ t e, s.timers id = some t ∧ t.expiresNs = some e ∧ e ≤ clockNowNs (now id) t.clockId
  ahead : ∀ now later id t e, (s.checkPosixTimers now later).timers id = some t → t.expiresNs = some e →
    clockNowNs (now id) t.clockId < e

/-! ## One timer -/

/-- The intervals and values that are accepted are shorter. -/
def longest : Nat := 2 ^ 64 * 1_000_000_000

/-- A timer that was armed for `first` and has expired `fired` times until the time `nowNs`. -/
structure PosixTimer.Timely (t : PosixTimer) (first : Option Nat) (fired nowNs : Nat) : Prop where
  short : t.intervalNs < longest
  armed : ∀ e, t.expiresNs = some e → e < 2 * longest ∧ ∃ f k, first = some f ∧ e = f + k * t.intervalNs
  oneShot : t.intervalNs = 0 → ∀ f, first = some f →
    t.expiresNs = some f ∧ fired = 0 ∨ t.expiresNs = none ∧ fired = 1
  soon : 0 < fired → ∀ e, t.expiresNs = some e → e ≤ nowNs + t.intervalNs

theorem saturate_eq {n : Nat} (h : n ≤ 2 * longest) : saturate n = n := by
  unfold saturate
  unfold longest at h
  omega

theorem clockNowNs_lt (now : Clock) (clockId : Int) : clockNowNs now clockId < longest := by
  have hr := now.realtimeNs.toNat_lt
  have ht := now.timeUs.toNat_lt
  unfold clockNowNs longest
  split <;> omega

theorem Clock.Before.clockNowNs_le {now later : Clock} (h : now.Before later) (clockId : Int) :
    clockNowNs now clockId ≤ clockNowNs later clockId := by
  have hr := UInt64.le_iff_toNat_le.1 h.1
  have ht := UInt64.le_iff_toNat_le.1 h.2
  unfold clockNowNs
  split <;> omega

theorem timespecToNs_lt {value : TimeSpec} {n : Nat} (h : timespecToNs value = some n) : n < longest := by
  obtain ⟨hlt, h⟩ := ite_none_left_eq_some.1 h
  have hs := value.tvSec.toNat_lt
  cases h
  unfold longest
  omega

theorem ns_nsToTimespec {value : Nat} (h : value < longest) : (nsToTimespec value).ns = value := by
  have hsec : value / 1_000_000_000 < 2 ^ 64 := Nat.div_lt_of_lt_mul (by unfold longest at h; omega)
  have hnsec : value % 1_000_000_000 < 2 ^ 64 := by omega
  rw [TimeSpec.ns, nsToTimespec, min_eq_left (by omega), UInt64.toNat_ofNat_of_lt' hsec, UInt64.toNat_ofNat_of_lt' hnsec]
  exact Nat.div_add_mod' ..

namespace PosixTimer

variable {t : PosixTimer} {first : Option Nat} {fired nowNs laterNs e : Nat}

/-- The next expiry is the first one on the grid after the time of the check. -/
theorem next_expiry {i : Nat} (hle : e ≤ nowNs) (hi : i ≠ 0) (hshort : i < longest) (hnow : nowNs < longest) :
    ∃ k, saturate (e + saturate (((nowNs - e) / i + 1) * i)) = e + k * i ∧ nowNs < e + k * i ∧ e + k * i ≤ nowNs + i := by
  refine ⟨(nowNs - e) / i + 1, ?_⟩
  have hdiv := Nat.div_add_mod (nowNs - e) i
  have hmod := Nat.mod_lt (nowNs - e) (Nat.pos_of_ne_zero hi)
  have hmul : ((nowNs - e) / i + 1) * i = i * ((nowNs - e) / i) + i := by rw [Nat.add_one_mul, Nat.mul_comm]
  refine ⟨?_, by omega, by omega⟩
  rw [saturate_eq (n := _ * _) (by omega), saturate_eq (by omega)]

theorem check_snd : (t.check nowNs).2 = true ↔ ∃ e, t.expiresNs = some e ∧ e ≤ nowNs := by
  unfold check
  split
  case h_1 h => simp [h]
  case h_2 e h =>
    split_ifs with hlt hi
    · simp [h, hlt]
    all_goals simpa [h] using hlt

theorem check_clockId : (t.check nowNs).1.clockId = t.clockId := by
  unfold check
  split
  · rfl
  · split_ifs <;> rfl

namespace Timely

variable (h : t.Timely first fired nowNs)

include h

theorem mono (hle : nowNs ≤ laterNs) : t.Timely first fired laterNs :=
  { h with soon := fun hf e he => (h.soon hf e he).trans (by omega) }

/-- After a check a timer expires later than the time of the check, and is on time if it was. -/
theorem check (hlater : laterNs < longest) : (∀ e, (t.check laterNs).1.expiresNs = some e → laterNs < e) ∧
    (nowNs ≤ laterNs → (t.check laterNs).1.Timely first (fired + (t.check laterNs).2.toNat) laterNs) := by
  unfold PosixTimer.check
  split
  case h_1 hnone => exact ⟨fun e he => (by cases hnone.symm.trans he), h.mono⟩
  case h_2 e he =>
    obtain ⟨-, f, k, hf, hgrid⟩ := h.armed e he
    by_cases hlt : e > laterNs
    · rw [if_pos hlt]
      refine ⟨fun e' he' => ?_, h.mono⟩
      cases he.symm.trans he'
      exact hlt
    rw [if_neg hlt]
    by_cases hi : t.intervalNs = 0
    · rw [if_pos hi]
      refine ⟨fun _ h => (by cases h), fun _ => ⟨h.short, fun _ h => (by cases h), fun _ f' hf' => .inr ⟨rfl, ?_⟩,
        fun _ _ h => (by cases h)⟩⟩
      -- the timer was still armed, so it had not expired before
      rcases h.oneShot hi f' hf' with ⟨-, hzero⟩ | ⟨hnone, -⟩
      · simp [hzero]
      · cases he.symm.trans hnone
    · obtain ⟨n, hnext, hafter, hsoon⟩ := next_expiry (not_lt.1 hlt) hi h.short hlater
      rw [if_neg hi]
      dsimp only
      rw [hnext]
      refine ⟨fun e' he' => ?_, fun _ => ⟨h.short, fun e' he' => ?_, fun hi' => absurd hi' hi, fun _ e' he' => ?_⟩⟩
      all_goals cases he'
      · exact hafter
      · have hshort := h.short
        exact ⟨hsoon.trans_lt (by omega), f, k + n, hf, by rw [hgrid, Nat.add_mul, Nat.add_assoc]⟩
      · exact hsoon

end Timely

end PosixTimer

/-! ## The registry -/

namespace PosixTimers

variable {s s' : PosixTimers} {id : Int} {t : PosixTimer}

/-- Every timer is on time. -/
def Timely (s : PosixTimers) : Prop :=
  ∀ id t, s.timers id = some t → t.Timely (s.first id) (s.fired id) (clockNowNs s.clock t.clockId)

theorem timely_created (timers : Int → Option (Nat × Int)) (clock : Clock) : (created timers clock).Timely := by
  intro id t ht
  obtain ⟨x, -, rfl⟩ := map_eq_some_iff.1 ht
  exact ⟨Nat.zero_lt_of_lt (Nat.lt_succ_self _), nofun, nofun, fun h => absurd h (lt_irrefl 0)⟩

theorem Timely.set (h : s.Timely) {pid : Nat} {v : ITimerSpec} {absolute : Bool} {now : Clock} (hnow : s.clock.Before now)
    (hset : s.setPosixTimer id pid v absolute now = some s') : s'.Timely := by
  unfold setPosixTimer at hset
  obtain ⟨interval, hinterval, hset⟩ := bind_eq_some_iff.1 hset
  obtain ⟨value, hvalue, hset⟩ := bind_eq_some_iff.1 hset
  obtain ⟨timer, -, hset⟩ := bind_eq_some_iff.1 hset
  obtain ⟨-, hset⟩ := ite_none_left_eq_some.1 hset
  cases hset
  intro id' t ht
  rcases update_cases ht with ⟨rfl, heq⟩ | ⟨hne, ht⟩
  · cases heq
    simp only [update_self]
    have hshort := timespecToNs_lt hvalue
    have hclock := clockNowNs_lt now timer.clockId
    refine ⟨timespecToNs_lt hinterval, fun e he => ⟨?_, e, 0, he, by simp⟩, fun _ f hf => .inl ⟨hf, rfl⟩, nofun⟩
    dsimp only at he
    split_ifs at he
    all_goals cases he
    · omega
    · rw [saturate_eq (by omega)]
      omega
  · simp only [update_of_ne hne]
    exact (h id' t ht).mono (hnow.clockNowNs_le _)

theorem Timely.check (h : s.Timely) {now : Int → Clock} {later : Clock} (hnow : ∀ id, s.clock.Before (now id))
    (hlater : ∀ id, (now id).Before later) : (s.checkPosixTimers now later).Timely := by
  intro id t ht
  obtain ⟨timer, htimer, rfl⟩ := map_eq_some_iff.1 ht
  have hcheck := ((h id timer htimer).check (clockNowNs_lt (now id) _)).2 ((hnow id).clockNowNs_le _)
  rw [PosixTimer.check_clockId]
  simp only [checkPosixTimers, expired, htimer, any_some]
  exact hcheck.mono ((hlater id).clockNowNs_le _)

theorem Timely.punctual (h : s.Timely) : s.Punctual where
  onGrid id t e ht he := ((h id t ht).armed e he).2
  oneShot id t f ht hi hf := (h id t ht).oneShot hi f hf
  remaining id t pid now spec ht hi hf hnow hspec := by
    unfold getPosixTimerSpec at hspec
    obtain ⟨t', ht', hspec⟩ := bind_eq_some_iff.1 hspec
    cases ht.symm.trans ht'
    cases (ite_none_left_eq_some.1 hspec).2
    have hshort := (h id t ht).short
    have hle : (t.expiresNs.map (· - clockNowNs now t.clockId)).getD 0 ≤ t.intervalNs := by
      cases he : t.expiresNs with
      | none => exact Nat.zero_le _
      | some e =>
        have hsoon := (h id t ht).soon hf e he
        have hclock := hnow.clockNowNs_le t.clockId
        simp only [map_some, getD_some]
        omega
    rwa [ns_nsToTimespec hshort, ns_nsToTimespec (hle.trans_lt hshort)]
  fires now id := by
    cases ht : s.timers id with
    | none => simp [expired, ht]
    | some t => simp [expired, ht, PosixTimer.check_snd]
  ahead now later id t e ht he := by
    obtain ⟨timer, htimer, rfl⟩ := map_eq_some_iff.1 ht
    rw [PosixTimer.check_clockId]
    exact ((h id timer htimer).check (clockNowNs_lt (now id) _)).1 e he

/-- Periodic timers do not drift, in every run. -/
theorem punctual_of_reachable {timers : Int → Option (Nat × Int)} {clock : Clock}
    (h : Relation.ReflTransGen Step (created timers clock) s) : s.Punctual := by
  refine (inv_of_reachable (I := Timely) (timely_created timers clock) (fun s s' hI hstep => ?_) h).punctual
  cases hstep with
  | set hnow h => exact hI.set hnow h
  | check hnow hlater => exact hI.check hnow hlater
  | get hnow => exact fun id t ht => (hI id t ht).mono (hnow.clockNowNs_le _)

/-- A timer with a period of one second that is armed at 2 s for 1 s later and checked at 5 s expires next at 6 s. -/
theorem punctual_period : ∃ s : PosixTimers, s.timers 7 = some ⟨1, 1, some 6_000_000_000, 1_000_000_000⟩ ∧ s.fired 7 = 1 ∧
    s.Punctual := by
  refine ⟨_, ?_, ?_, @punctual_of_reachable _ (fun _ => some (1, 1)) ⟨0, 0⟩ (.tail
    (.single (@Step.set _ _ 7 1 ⟨⟨1, 0⟩, ⟨1, 0⟩⟩ false ⟨0, 2_000_000⟩ ⟨by decide, by decide⟩ rfl))
    (@Step.check _ (fun _ => ⟨0, 5_000_000⟩) ⟨0, 5_000_000⟩ (fun _ => ⟨by decide, by decide⟩)
      fun _ => ⟨by decide, by decide⟩))⟩
  · decide +kernel
  · decide +kernel

end PosixTimers

end ShellCore.Task
