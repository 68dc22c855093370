import ShellCore.Lib.Actors
import ShellCore.Lib.Bytes

/-!
# Appending to a file

`OSInode::write` on descriptors opened with `O_APPEND`: the size is read first, then every slice of the user buffer is
written with the inode locked for that slice only. The descriptor is locked throughout, so each descriptor has one call at
a time.
-/

namespace ShellCore.Fs.Append

open Function Relation ByteBuf

/-- What a call has written, and the descriptor's offset after it; not in the code. -/
structure Block (α : Type) where
  start : Nat
  bytes : List α
  after : Option Nat := none

/-- A call in progress: the slices left, `current_offset`, `total_write` and the number of the call. -/
structure Writing (α : Type) where
  slices : List (List α)
  currentOffset : Nat
  totalWrite : Nat
  call : Nat

namespace Block

variable {α : Type}

/-- The bytes are in the file from `start` on, and if the call has returned it left the offset behind them. -/
structure Stored (file : List α) (b : Block α) : Prop where
  inside : b.start + b.bytes.length ≤ file.length
  intact : slice file b.start b.bytes.length = b.bytes
  offset : ∀ n, b.after = some n → n = b.start + b.bytes.length

def Apart (b c : Block α) : Prop :=
  b.bytes ≠ [] → c.bytes ≠ [] → b.start + b.bytes.length ≤ c.start ∨ c.start + c.bytes.length ≤ b.start

theorem Stored.mono {file file'} {b : Block α} (h : b.Stored file) (hp : file <+: file') :
    b.Stored file' := by
  obtain ⟨new, rfl⟩ := hp
  exact ⟨h.inside.trans (by simp), (slice_append_left h.inside).trans h.intact, h.offset⟩

end Block

structure System (δ α : Type) where
  file : List α
  offset : δ → Nat
  pc : δ → Option (Writing α)
  /-- The calls so far; not in the code. -/
  calls : Nat
  block : Nat → Block α

inductive Cmd (α : Type) where
  | write (slices : List (List α))
  /-- The inode takes `accepted` bytes of the next slice. -/
  | writeAt (accepted : Nat)
  | ret

namespace System

variable {δ α : Type} [DecidableEq δ] [Inhabited α]

/-- `write_at` of an inode that takes all the bytes; what lies between the end and `offset` reads as zeros. -/
def writeAt (file : List α) (offset : Nat) (buf : List α) : List α :=
  splice (file ++ List.replicate (offset - file.length) default) offset buf

variable (s : System δ α)

def step (d : δ) : Cmd α → Option (System δ α)
  | .write slices =>
    match s.pc d with
    | some _ => none
    | none => some
      { s with
        pc := update s.pc d (some ⟨slices, s.file.length, 0, s.calls⟩)
        calls := s.calls + 1
        block := update s.block s.calls { start := s.file.length, bytes := [] } }
  | .writeAt accepted =>
    match s.pc d with
    | some ⟨slice :: slices, current, total, call⟩ =>
      if accepted ≤ slice.length then some
        { s with
          file := writeAt s.file current (slice.take accepted)
          pc := update s.pc d
            (some ⟨if accepted = 0 then [] else slices, current + accepted, total + accepted, call⟩)
          block := update s.block call
            { s.block call with bytes := (s.block call).bytes ++ slice.take accepted } }
      else none
    | _ => none
  | .ret =>
    match s.pc d with
    | some ⟨[], _, total, call⟩ => some
      { s with
        offset := update s.offset d (s.offset d + total)
        pc := update s.pc d none
        block := update s.block call { s.block call with after := some (s.offset d + total) } }
    | _ => none

/-- The descriptor is at the end of the file when a call starts, and the end of the file is where the call goes on. -/
def atEnd (d : δ) : Cmd α → Prop
  | .write _ => s.offset d = s.file.length
  | .writeAt _ => ∀ w ∈ s.pc d, w.currentOffset = s.file.length
  | .ret => True

def Step (s s' : System δ α) : Prop := ∃ d cmd, s.step d cmd = some s'

/-- A step at the end of the file. -/
def EndStep (s s' : System δ α) : Prop := ∃ d cmd, s.atEnd d cmd ∧ s.step d cmd = some s'

/-- No call yet. -/
def opened (file : List α) (offset : δ → Nat) : System δ α := ⟨file, offset, fun _ => none, 0, fun _ => ⟨0, [], none⟩⟩

/-- What each call wrote is in the file, in one piece, and no two calls wrote to one place. -/
structure Appended : Prop where
  stored : ∀ i, (s.block i).Stored s.file
  apart : ∀ i j, i ≠ j → (s.block i).Apart (s.block j)

/-- A call in progress and its block. -/
structure Tracks (o calls : Nat) (b : Block α) (w : Writing α) : Prop where
  numbered : w.call < calls
  current : w.currentOffset = b.start + b.bytes.length
  total : w.totalWrite = b.bytes.length
  offset : o = b.start
  running : b.after = none

structure Inv : Prop extends Appended s where
  tracks : ∀ d, ∀ w ∈ s.pc d, Tracks (s.offset d) s.calls (s.block w.call) w
  own : ∀ d e, d ≠ e → ∀ w ∈ s.pc d, ∀ v ∈ s.pc e, w.call ≠ v.call

variable {s} {s' : System δ α}

omit [Inhabited α] in
/-- A step that changes a block, of the descriptor's call, and lets the file grow. -/
theorem Inv.change (h : s.Inv) {file d o n i v} {b : Block α}
    (hfile : s.file <+: file) (hn : s.calls ≤ n) (hv : ∀ w ∈ v, w.call = i ∧ Tracks o n b w)
    (hown : ∀ e ≠ d, ∀ w ∈ s.pc e, w.call ≠ i) (hb : b.Stored file) (hapart : ∀ j ≠ i, b.Apart (s.block j)) :
    Inv ⟨file, update s.offset d o, update s.pc d v, n, update s.block i b⟩ := by
  have hold := fun j => (h.stored j).mono hfile
  obtain ⟨⟨-, hap⟩, htr, ho⟩ := h
  refine ⟨⟨?_, ?_⟩, ?_, ?_⟩
  · grind [update_apply]
  · grind [update_apply, Block.Apart]
  · intro e w hw
    have ht := htr e w
    grind [update_apply, Tracks]
  · grind [update_apply]

omit [DecidableEq δ] [Inhabited α] in
/-- The block of a call that goes on at the end of the file ends there. -/
theorem Inv.grow (h : s.Inv) {d w} (hw : w ∈ s.pc d) (hend : w.currentOffset = s.file.length)
    (new : List α) : (∀ j ≠ w.call, Block.Apart { s.block w.call with bytes := (s.block w.call).bytes ++ new } (s.block j)) ∧
      Block.Stored (s.file ++ new) { s.block w.call with bytes := (s.block w.call).bytes ++ new } := by
  have ht := h.tracks d w hw
  have hcur := ht.current
  have hin := h.stored w.call
  refine ⟨fun j hj hb hc => ?_, ?_, ?_, ?_⟩
  · have hj' := (h.stored j).inside
    have hpos := List.length_pos_of_ne_nil hc
    by_cases hnil : (s.block w.call).bytes = []
    · rw [hnil] at hcur
      exact .inr (show _ ≤ (s.block w.call).start by simp at hcur; omega)
    · rcases h.apart w.call j hj.symm hnil hc with h' | h'
      · omega
      · exact .inr h'
  · simp; omega
  · have hlen : (s.file.take (s.block w.call).start).length = (s.block w.call).start := by simp; omega
    have hsplit : s.file ++ new = s.file.take (s.block w.call).start ++ ((s.block w.call).bytes ++ new ++ []) := by
      have h1 := hin.intact
      rw [slice, List.take_of_length_le (by simp; omega)] at h1
      rw [List.append_nil, ← List.append_assoc, ← h1, List.take_append_drop]
    rw [hsplit]
    exact slice_append_at hlen.symm rfl
  · simp [ht.running]

theorem writeAt_end (file buf : List α) : writeAt file file.length buf = file ++ buf := by
  simp [writeAt, splice]

theorem inv_step (h : s.Inv) (hstep : s.EndStep s') : s'.Inv := by
  obtain ⟨d, cmd, hend, hstep⟩ := hstep
  cases cmd with
  | write slices =>
    rw [step] at hstep
    split at hstep
    · cases hstep
    · rename_i hpc
      cases hstep
      rw [← update_eq_self d s.offset]
      refine h.change (List.prefix_refl _) (Nat.le_succ _) ?_ (fun e _ w hw => (h.tracks e w hw).numbered.ne)
        ⟨le_rfl, List.take_zero, nofun⟩ fun j _ hb => absurd rfl hb
      rintro w ⟨⟩
      exact ⟨rfl, Nat.lt_succ_self _, rfl, rfl, hend, rfl⟩
  | writeAt accepted =>
    rw [step] at hstep
    split at hstep
    · rename_i slice slices current total call hpc
      obtain ⟨hle, rfl⟩ := of_guard hstep
      have hcur : current = s.file.length := hend _ hpc
      have ht := h.tracks d _ hpc
      obtain ⟨hapart, hstored⟩ := h.grow hpc hcur (slice.take accepted)
      rw [hcur, writeAt_end, ← update_eq_self d s.offset]
      refine h.change (List.prefix_append s.file _) le_rfl ?_ (fun e he w hw => h.own e d he w hw _ hpc) hstored hapart
      rintro w ⟨⟩
      have hlen : ∀ l : List α, (l ++ slice.take accepted).length = l.length + accepted := by simp [hle]
      refine ⟨rfl, ht.numbered, ?_, ?_, ht.offset, ht.running⟩
      · rw [hlen, ← Nat.add_assoc, ← ht.current, hcur]
      · rw [hlen, ← ht.total]
    · cases hstep
  | ret =>
    rw [step] at hstep
    split at hstep
    · rename_i current total call hpc
      cases hstep
      have ht := h.tracks d _ hpc
      refine h.change (List.prefix_refl _) le_rfl nofun (fun e he w hw => h.own e d he w hw _ hpc) ?_
        fun j hj => h.apart call j hj.symm
      refine ⟨(h.stored call).inside, (h.stored call).intact, fun n hn => ?_⟩
      rw [← Option.some.inj hn]
      exact congrArg₂ _ ht.offset ht.total
    · cases hstep

/-- With every write at the end of the file, appending loses no data. -/
theorem appended_of_endSteps {file : List α} {offset : δ → Nat} (h : ReflTransGen EndStep (opened file offset) s) :
    s.Appended := by
  refine (inv_of_reachable (I := Inv) ?_ (fun _ _ hI hs => inv_step hI hs) h).toAppended
  exact ⟨⟨fun i => ⟨Nat.zero_le _, rfl, nofun⟩, fun i j _ hb => absurd rfl hb⟩, nofun, nofun⟩

/-- A buffer of two slices. -/
theorem appended_two_slices : ∃ s : System Bool Nat, s.file = [7, 1, 2] ∧ s.offset true = 3 ∧ s.Appended := by
  have hend : ∀ {s : System Bool Nat} {w : Writing Nat}, s.pc true = some w → w.currentOffset = s.file.length →
      ∀ k, s.atEnd true (.writeAt k) := fun hw he _ v hv => by cases hw.symm.trans hv; exact he
  refine ⟨_, ?_, ?_, @appended_of_endSteps Bool Nat _ _ _ [7] (fun _ => 1) (.tail (.tail (.tail (.tail .refl
    ⟨true, .write [[1], [2]], rfl, rfl⟩) ⟨true, .writeAt 1, hend rfl rfl 1, rfl⟩)
    ⟨true, .writeAt 1, hend rfl rfl 1, rfl⟩) ⟨true, .ret, trivial, rfl⟩)⟩
  · rfl
  · rfl

/-- Two calls read the size before either writes: the first one's byte is lost. -/
theorem append_overwrites : ∃ s : System Bool Nat, ReflTransGen Step (opened [] fun _ => 0) s ∧
    (s.block 0).bytes = [1] ∧ (s.block 1).bytes = [2] ∧ s.file = [2] ∧ ¬s.Appended := by
  refine ⟨_, .tail (.tail (.tail (.tail .refl ⟨true, .write [[1]], rfl⟩) ⟨false, .write [[2]], rfl⟩)
    ⟨true, .writeAt 1, rfl⟩) ⟨false, .writeAt 1, rfl⟩, rfl, rfl, rfl, fun h => ?_⟩
  have hlost : [2] = [1] := (h.stored 0).intact
  cases hlost

end System

end ShellCore.Fs.Append
