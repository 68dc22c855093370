import ShellCore.Ext4.Checksum
import ShellCore.Ext4.DirEntry

/-!
# Scanning directory blocks

Every directory operation walks the blocks of the directory and, inside a block, its records.
`scanBlock` is the inner loop and `scanDir` the outer one; both take the per-record action as a
parameter. The theorems evaluate the two loops on blocks given as lists of records.
-/

namespace ShellCore.Ext4

open ByteBuf List

/-- How a scan ended: the action stopped it, an entry did not decode, or the guard of the loop
failed at `off`. -/
inductive Scan (β : Type) where
  | found (b : β)
  | malformed
  | done (off : Nat)

/-- The loop over the records of one block, `while off + margin <= read_len`. The action sees the
offset of the previous record, that of the current one and its entry. -/
def scanBlock {β : Type} (margin : Nat) (visit : Option Nat → Nat → DirEntry → Option β)
    (buf : List UInt8) (readLen : Nat) (prev : Option Nat) (off : Nat) : Scan β :=
  if off + margin ≤ readLen then
    match _h : DirEntry.fromBytes (slice buf off (readLen - off)) with
    | none => .malformed
    | some d =>
      match visit prev off d with
      | some b => .found b
      | none => scanBlock margin visit buf readLen (some off) (off + d.recLen)
  else .done off
termination_by readLen - off
decreasing_by
  have hb := DirEntry.fromBytes_bounds _h
  have hlen : (slice buf off (readLen - off)).length ≤ readLen - off := by
    simp [slice]
  omega

/-- The offsets `0, BLOCK_SZ, ...` below `size`. -/
def blockOffsets (size : Nat) : List Nat :=
  (range ((size + blockSz - 1) / blockSz)).map (· * blockSz)

/-- The loop over the blocks of the directory. An empty read ends the operation like a malformed
entry does. -/
def scanDir {β : Type} (body : Nat → List UInt8 → Scan β) (data : List UInt8) : List Nat → Scan β
  | [] => .done 0
  | off :: offs =>
    let buf := slice data off blockSz
    if buf.length = 0 then .malformed
    else
      match body off buf with
      | .done _ => scanDir body data offs
      | r => r

/-! ## Scanning records -/

/-- The bytes of consecutive records. -/
def encode (rs : List Record) : List UInt8 := rs.flatMap Record.bytes

@[simp] theorem encode_nil : encode [] = [] := rfl

@[simp] theorem encode_cons (r : Record) (rs : List Record) : encode (r :: rs) = r.bytes ++ encode rs := rfl

@[simp] theorem encode_append (rs ss : List Record) : encode (rs ++ ss) = encode rs ++ encode ss := by
  simp [encode]

section Scanning

variable {β : Type} {visit : Option Nat → Nat → DirEntry → Option β}

/-- The offset of the last of the records `pre`, which start at `off`. -/
def lastOffset (prev : Option Nat) (off : Nat) (pre : List Record) : Option Nat :=
  if pre = [] then prev else some (off + (encode pre.dropLast).length)

variable {margin : Nat} {pre rs : List Record}

/-- One iteration at a record boundary. -/
theorem scanBlock_step {r prev} (hm : margin ≤ 8) :
    scanBlock margin visit (encode (pre ++ r :: rs)) (encode (pre ++ r :: rs)).length prev
        (encode pre).length =
      match visit prev (encode pre).length r.entry with
      | some b => .found b
      | none => scanBlock margin visit (encode (pre ++ r :: rs)) (encode (pre ++ r :: rs)).length
          (some (encode pre).length) (encode (pre ++ [r])).length := by
  have hr := r.recLen_ge
  have hlen : (encode (pre ++ r :: rs)).length =
      (encode pre).length + (r.recLen + (encode rs).length) := by simp
  have hslice : slice (encode (pre ++ r :: rs)) (encode pre).length
      ((encode (pre ++ r :: rs)).length - (encode pre).length) = r.bytes ++ encode rs := by
    rw [hlen, Nat.add_sub_cancel_left, encode_append, encode_cons]
    simpa using @slice_append_at _ (encode pre) (r.bytes ++ encode rs) [] _ _ rfl
      (by simp)
  rw [scanBlock, if_pos (by omega), hslice]
  split
  · simp_all
  · rename_i d hd
    rw [Record.fromBytes_bytes] at hd
    cases hd
    simp

/-- Records the action passes over. -/
theorem scanBlock_skip {pre mid rs prev}
    (hm : margin ≤ 8) (hskip : ∀ r ∈ mid, ∀ p o, visit p o r.entry = none) :
    scanBlock margin visit (encode (pre ++ (mid ++ rs))) (encode (pre ++ (mid ++ rs))).length prev
        (encode pre).length =
      scanBlock margin visit (encode (pre ++ (mid ++ rs))) (encode (pre ++ (mid ++ rs))).length
        (lastOffset prev (encode pre).length mid) (encode (pre ++ mid)).length := by
  induction mid generalizing pre prev with
  | nil => simp [lastOffset]
  | cons r mid ih =>
    have hr := hskip r mem_cons_self
    have htail := @ih (pre ++ [r]) (some (encode pre).length)
      fun x hx => hskip x (mem_cons_of_mem r hx)
    have hlast : lastOffset (some (encode pre).length) (encode (pre ++ [r])).length mid =
        lastOffset prev (encode pre).length (r :: mid) := by
      cases mid with
      | nil => simp [lastOffset]
      | cons x xs => simp [lastOffset, Nat.add_assoc]
    simp only [append_assoc, singleton_append, hlast] at htail
    rw [cons_append, scanBlock_step hm, hr]
    exact htail

/-- A block none of whose records the action stops at is scanned to its end. -/
theorem scanBlock_done {rs} (hm : 1 ≤ margin) (hm8 : margin ≤ 8)
    (hskip : ∀ r ∈ rs, ∀ p o, visit p o r.entry = none) :
    scanBlock margin visit (encode rs) (encode rs).length none 0 = .done (encode rs).length := by
  have h := @scanBlock_skip _ visit margin [] rs [] none hm8 hskip
  simp only [nil_append, append_nil, encode_nil, length_nil] at h
  rw [h, scanBlock, if_neg (by omega)]

/-- The first record the action stops at ends the scan. -/
theorem scanBlock_found {r b} (hm8 : margin ≤ 8) (hskip : ∀ r ∈ pre, ∀ p o, visit p o r.entry = none)
    (hr : visit (lastOffset none 0 pre) (encode pre).length r.entry = some b) :
    scanBlock margin visit (encode (pre ++ r :: rs)) (encode (pre ++ r :: rs)).length none 0 = .found b := by
  have h := @scanBlock_skip _ visit margin [] pre (r :: rs) none hm8 hskip
  simp only [nil_append, encode_nil, length_nil] at h
  rw [h, scanBlock_step hm8, hr]

end Scanning

/-! ## Scanning blocks -/

section Blocks

variable {β : Type} {body : Nat → List UInt8 → Scan β} {bs : List (List UInt8)}

theorem length_flatten_blocks (hlen : ∀ b ∈ bs, b.length = blockSz) : bs.flatten.length = bs.length * blockSz := by
  induction bs with
  | nil => simp
  | cons b bs ih =>
    rw [flatten_cons, length_append, hlen b mem_cons_self,
      ih fun x hx => hlen x (mem_cons_of_mem b hx), length_cons, Nat.add_mul, Nat.one_mul,
      Nat.add_comm]

theorem blockOffsets_flatten (hlen : ∀ b ∈ bs, b.length = blockSz) :
    blockOffsets bs.flatten.length = (range' 0 bs.length).map (· * blockSz) := by
  have hdiv : (bs.length * blockSz + blockSz - 1) / blockSz = bs.length := by
    unfold blockSz; omega
  rw [blockOffsets, length_flatten_blocks hlen, hdiv, range_eq_range']

variable {pre bs : List (List UInt8)} {b : List UInt8}

/-- The block read at a block boundary. -/
theorem slice_flatten_blocks (hlen : ∀ x ∈ pre ++ b :: bs, x.length = blockSz) :
    slice (pre ++ b :: bs).flatten (pre.length * blockSz) blockSz = b := by
  have hpre : pre.flatten.length = pre.length * blockSz :=
    length_flatten_blocks fun x hx => hlen x (mem_append_left _ hx)
  have hb : b.length = blockSz := hlen b (by simp)
  rw [flatten_append, flatten_cons]
  exact slice_append_at hpre.symm hb.symm

theorem scanDir_step {offs} (hlen : ∀ x ∈ pre ++ b :: bs, x.length = blockSz) :
    scanDir body (pre ++ b :: bs).flatten (pre.length * blockSz :: offs) =
      match body (pre.length * blockSz) b with
      | .done _ => scanDir body (pre ++ b :: bs).flatten offs
      | r => r := by
  have hb : b.length = blockSz := hlen b (by simp)
  simp only [scanDir, slice_flatten_blocks hlen]
  rw [if_neg (by rw [hb]; decide)]

/-- Blocks the action passes over. -/
theorem scanDir_skip {pre mid bs : List (List UInt8)}
    (hlen : ∀ x ∈ pre ++ (mid ++ bs), x.length = blockSz)
    (hdone : ∀ b ∈ mid, ∀ k, ∃ o, body k b = .done o) :
    scanDir body (pre ++ (mid ++ bs)).flatten
        ((range' pre.length (mid.length + bs.length)).map (· * blockSz)) =
      scanDir body (pre ++ (mid ++ bs)).flatten
        ((range' (pre.length + mid.length) bs.length).map (· * blockSz)) := by
  induction mid generalizing pre with
  | nil => simp
  | cons b mid ih =>
    obtain ⟨o, ho⟩ := hdone b mem_cons_self (pre.length * blockSz)
    have htail := @ih (pre ++ [b]) (by simpa using hlen)
      fun x hx => hdone x (mem_cons_of_mem b hx)
    simp only [append_assoc, singleton_append, length_append, length_singleton]
      at htail
    have hrange : (range' pre.length ((b :: mid).length + bs.length)).map (· * blockSz) =
        pre.length * blockSz ::
          (range' (pre.length + 1) (mid.length + bs.length)).map (· * blockSz) := by
      rw [length_cons, Nat.add_right_comm, range'_succ, map_cons]
    rw [hrange, cons_append, scanDir_step (by simpa using hlen), ho]
    rw [length_cons, ← Nat.add_assoc, Nat.add_right_comm]
    exact htail

theorem scanDir_done (hlen : ∀ b ∈ bs, b.length = blockSz) (hdone : ∀ b ∈ bs, ∀ k, ∃ o, body k b = .done o) :
    scanDir body bs.flatten (blockOffsets bs.flatten.length) = .done 0 := by
  have h := @scanDir_skip _ body [] bs [] (by simpa using hlen) hdone
  rw [blockOffsets_flatten hlen]
  simpa [scanDir] using h

/-- The first block the action stops in ends the scan. -/
theorem scanDir_found {v : β} (hlen : ∀ x ∈ pre ++ b :: bs, x.length = blockSz)
    (hdone : ∀ x ∈ pre, ∀ k, ∃ o, body k x = .done o)
    (hb : body (pre.length * blockSz) b = .found v) :
    scanDir body (pre ++ b :: bs).flatten (blockOffsets (pre ++ b :: bs).flatten.length) = .found v := by
  have h := @scanDir_skip _ body [] pre (b :: bs) (by simpa using hlen) hdone
  simp only [nil_append, length_nil, Nat.zero_add] at h
  rw [blockOffsets_flatten hlen, length_append, h, length_cons, range'_succ,
    map_cons, scanDir_step hlen, hb]

end Blocks

end ShellCore.Ext4
