import ShellCore.Mm.FrameAllocator
import ShellCore.Mm.MemorySet

/-!
# The three-level page table

A table is a root frame and the frames it owns, over the memory that holds them: 512 entries of 64
bits for each frame. A walk reads one entry at each level. Both architectures walk alike; they differ
in the layout of an entry and in how an entry says that it is absent, a leaf or a directory.

The map that the table stands for is `Nat → Option (PhysPageNum × PTEFlags)`: what was last installed
for each page. `Holds` relates the two through the frame of each directory, addressed by its level
and the part of the page number that leads to it.
-/

namespace ShellCore.Mm

open Function Option List

def Arch.paWidth : Arch → Nat
  | .riscv64 => 56
  | .loongarch64 => 48

/-- Physical page numbers have `PPN_WIDTH` bits. -/
abbrev PhysPageNum (arch : Arch) := Fin (2 ^ (arch.paWidth - 12))

/-- The flags `V R W X U G A D`, from bit 0 on. -/
abbrev PTEFlags := BitVec 8

/-- An entry of a frame. -/
abbrev Place (arch : Arch) := PhysPageNum arch × Nat

/-- What is installed for a page. -/
abbrev Install (arch : Arch) := PhysPageNum arch × PTEFlags

def PageSize.walkLevel : PageSize → Nat
  | .page4K => 2
  | .page2M => 1
  | .page1G => 0

/-- The size of the page that a leaf at level `i` maps. -/
def PageSize.ofLevel : Nat → PageSize
  | 0 => .page1G
  | 1 => .page2M
  | _ => .page4K

/-! ## Entries -/

/-- What reading, writing, executing and user access an entry grants, and whether it is global. -/
structure Rights where
  r : Bool
  w : Bool
  x : Bool
  u : Bool
  g : Bool
deriving DecidableEq

def PTEFlags.rights (flags : PTEFlags) : Rights :=
  ⟨flags.getLsbD 1, flags.getLsbD 2, flags.getLsbD 3, flags.getLsbD 4, flags.getLsbD 5⟩

/-- The flag at bit `n` if `c` holds. -/
def flagIf (c : Bool) (n : Nat) : BitVec 64 := if c then 1#64 <<< n else 0

/-- The flags `V`, `MAT0` and `P`. -/
def defaultLA64 : BitVec 64 := 1#64 ||| 1#64 <<< 4 ||| 1#64 <<< 7

def fromRiscvFlags (flags : PTEFlags) : BitVec 64 :=
  defaultLA64 ||| flagIf (flags.getLsbD 0) 0 ||| flagIf (flags.getLsbD 7) 1 ||| flagIf (flags.getLsbD 5) 6 |||
    flagIf (!flags.getLsbD 1) 61 ||| flagIf (flags.getLsbD 2) 8 ||| flagIf (flags.getLsbD 2) 1 |||
    flagIf (!flags.getLsbD 3) 62 ||| flagIf (flags.getLsbD 4) 2 ||| flagIf (flags.getLsbD 4) 3

/-- What an entry tells the walk. -/
inductive Look where
  | leaf
  | absent
  | dir
deriving DecidableEq

namespace Arch

/-- The number of bits below the page number in an entry. -/
def shift : Arch → Nat
  | .riscv64 => 10
  | .loongarch64 => 12

variable (arch : Arch)

theorem mod_paWidth_lt (n : Nat) : n % 2 ^ (arch.paWidth - 12) < 2 ^ (arch.paWidth - 12) :=
  Nat.mod_lt _ (Nat.two_pow_pos _)

def ppn (pte : BitVec 64) : PhysPageNum arch :=
  let bits := (pte >>> arch.shift).toNat
  ⟨bits % 2 ^ (arch.paWidth - 12), arch.mod_paWidth_lt bits⟩

def withPpn (ppn : PhysPageNum arch) (flags : BitVec 64) : BitVec 64 := BitVec.ofNat 64 ppn <<< arch.shift ||| flags

def isValid (pte : BitVec 64) : Bool := pte.getLsbD 0

def rights (pte : BitVec 64) : Rights :=
  match arch with
  | .riscv64 => ⟨pte.getLsbD 1, pte.getLsbD 2, pte.getLsbD 3, pte.getLsbD 4, pte.getLsbD 5⟩
  | .loongarch64 => ⟨!pte.getLsbD 61, pte.getLsbD 8, !pte.getLsbD 62, pte.getLsbD 2 && pte.getLsbD 3, pte.getLsbD 6⟩

/-- The test for an entry that `find_pte_create` fills and `map` may overwrite. -/
def isVacant (pte : BitVec 64) : Bool :=
  match arch with
  | .riscv64 => !isValid pte
  | .loongarch64 => pte == 0#64

/-- The entry of a directory: `V` alone, or no flags. -/
def newDir (frame : PhysPageNum arch) : BitVec 64 :=
  match arch with
  | .riscv64 => withPpn .riscv64 frame 1
  | .loongarch64 => withPpn .loongarch64 frame 0

/-- The flags that `map` and `set_entry` give to an entry on RISC-V. -/
def finalFlags (flags : PTEFlags) : PTEFlags :=
  flags ||| 1#8 ||| 1#8 <<< 6 ||| if flags.getLsbD 2 && !flags.getLsbD 4 then 1#8 <<< 7 else 0

/-- The entry that `map` writes. -/
def mapEntry (ppn : PhysPageNum arch) (flags : PTEFlags) : BitVec 64 :=
  match arch with
  | .riscv64 => withPpn .riscv64 ppn ((finalFlags flags).setWidth 64)
  | .loongarch64 => withPpn .loongarch64 ppn defaultLA64 ||| fromRiscvFlags flags

/-- The entry of a page. -/
def pageEntry : Option (Install arch) → BitVec 64
  | none => 0#64
  | some (ppn, flags) => arch.mapEntry ppn flags

/-- The entry that `set_entry` writes. -/
def resetEntry (ppn : PhysPageNum arch) (flags : PTEFlags) : BitVec 64 :=
  match arch with
  | .riscv64 => withPpn .riscv64 ppn ((finalFlags flags).setWidth 64)
  | .loongarch64 => withPpn .loongarch64 ppn (fromRiscvFlags (flags ||| 1#8)) ||| flagIf (flags.getLsbD 2) 1

/-- The tests of `find_pte` and `find_pte_mut` at level `i`. -/
def look (i : Nat) (pte : BitVec 64) : Look :=
  match arch with
  | .riscv64 =>
    if (i == 2 && isValid pte) || (i < 2 && (pte.getLsbD 1 || pte.getLsbD 2 || pte.getLsbD 3)) then .leaf
    else if !isValid pte then .absent else .dir
  | .loongarch64 => if pte == 0#64 then .absent else if i == 2 || pte.getLsbD 6 then .leaf else .dir

end Arch

/-! ## The laws of entries -/

namespace Arch

/-- The flags of an entry that `map` or `set_entry` writes. -/
def leafFlags (arch : Arch) (flags : PTEFlags) : BitVec 64 :=
  match arch with
  | .riscv64 => (finalFlags flags).setWidth 64
  | .loongarch64 => fromRiscvFlags flags

theorem leafFlags_spec (arch : Arch) : ∀ flags : PTEFlags, isValid (arch.leafFlags flags) = true ∧
    arch.rights (arch.leafFlags flags) = flags.rights ∧
    (arch.leafFlags flags >>> arch.shift).toNat % 2 ^ (arch.paWidth - 12) = 0 := by
  cases arch <;> decide +kernel

theorem fromRiscvFlags_again : ∀ flags : PTEFlags, defaultLA64 ||| fromRiscvFlags flags = fromRiscvFlags flags ∧
    fromRiscvFlags (flags ||| 1#8) ||| flagIf (flags.getLsbD 2) 1 = fromRiscvFlags flags := by
  decide +kernel

variable {arch : Arch} {p : PhysPageNum arch} {bits : BitVec 64} {flags : PTEFlags} {i n : Nat}

theorem mapEntry_eq : arch.mapEntry p flags = arch.withPpn p (arch.leafFlags flags) := by
  cases arch with
  | riscv64 => rfl
  | loongarch64 => rw [mapEntry, withPpn, BitVec.or_assoc, (fromRiscvFlags_again flags).1, withPpn, leafFlags]

theorem resetEntry_eq : arch.resetEntry p flags = arch.mapEntry p flags := by
  rw [mapEntry_eq]
  cases arch with
  | riscv64 => rfl
  | loongarch64 => rw [resetEntry, withPpn, BitVec.or_assoc, (fromRiscvFlags_again flags).2, withPpn, leafFlags]

theorem shift_le (arch : Arch) : arch.shift + (arch.paWidth - 12) ≤ 64 := by
  cases arch <;> decide

/-- Outside the page number an entry has the bits of its flags. -/
theorem getLsbD_withPpn (h : n < arch.shift ∨ arch.shift + (arch.paWidth - 12) ≤ n) :
    (arch.withPpn p bits).getLsbD n = bits.getLsbD n := by
  rw [withPpn, BitVec.getLsbD_or, BitVec.getLsbD_shiftLeft, BitVec.getLsbD_ofNat]
  rcases h with h | h
  · simp [h]
  · have hp : (p : Nat).testBit (n - arch.shift) = false :=
      Nat.testBit_lt_two_pow (Nat.lt_of_lt_of_le p.isLt (Nat.pow_le_pow_right (by decide) (by omega)))
    simp [hp]

theorem isValid_withPpn : isValid (arch.withPpn p bits) = isValid bits :=
  getLsbD_withPpn (Or.inl (by cases arch <;> decide))

theorem rights_withPpn : arch.rights (arch.withPpn p bits) = arch.rights bits := by
  cases arch <;> simp only [rights] <;> repeat rw [getLsbD_withPpn (by decide)]

theorem ppn_withPpn (h : (bits >>> arch.shift).toNat % 2 ^ (arch.paWidth - 12) = 0) :
    arch.ppn (arch.withPpn p bits) = p := by
  have hs := arch.shift_le
  have hp : (p : Nat) * 2 ^ arch.shift < 2 ^ 64 := by
    calc (p : Nat) * 2 ^ arch.shift < 2 ^ (arch.paWidth - 12) * 2 ^ arch.shift :=
          Nat.mul_lt_mul_of_pos_right p.isLt (Nat.two_pow_pos _)
      _ ≤ 2 ^ 64 := by rw [← Nat.pow_add]; exact Nat.pow_le_pow_right (by decide) (by omega)
  have hp' : (p : Nat) < 2 ^ 64 := Nat.lt_of_le_of_lt (Nat.le_mul_of_pos_right _ (Nat.two_pow_pos _)) hp
  rw [BitVec.toNat_ushiftRight, Nat.shiftRight_eq_div_pow] at h
  apply Fin.ext
  simp only [ppn, withPpn, BitVec.ushiftRight_or_distrib, BitVec.toNat_or, Nat.or_mod_two_pow, h, Nat.or_zero,
    BitVec.toNat_ushiftRight, BitVec.toNat_shiftLeft, BitVec.toNat_ofNat, Nat.shiftLeft_eq, Nat.shiftRight_eq_div_pow]
  rw [Nat.mod_eq_of_lt hp', Nat.mod_eq_of_lt hp, Nat.mul_div_cancel _ (Nat.two_pow_pos _), Nat.mod_eq_of_lt p.isLt]

@[simp] theorem ppn_mapEntry : arch.ppn (arch.mapEntry p flags) = p := by
  rw [mapEntry_eq, ppn_withPpn (arch.leafFlags_spec flags).2.2]

theorem rights_mapEntry : arch.rights (arch.mapEntry p flags) = flags.rights := by
  rw [mapEntry_eq, rights_withPpn, (arch.leafFlags_spec flags).2.1]

@[simp] theorem isValid_mapEntry : isValid (arch.mapEntry p flags) = true := by
  rw [mapEntry_eq, isValid_withPpn, (arch.leafFlags_spec flags).1]

@[simp] theorem ppn_newDir : arch.ppn (arch.newDir p) = p := by
  cases arch <;> exact ppn_withPpn rfl

theorem ne_zero_of_isValid (h : isValid bits = true) : bits ≠ 0#64 := by
  rintro rfl
  cases h

@[simp] theorem look_zero : arch.look i 0#64 = .absent := by
  cases arch <;> simp [look, isValid]

@[simp] theorem look_mapEntry : arch.look 2 (arch.mapEntry p flags) = .leaf := by
  have hv : isValid (arch.mapEntry p flags) = true := isValid_mapEntry
  have := ne_zero_of_isValid hv
  cases arch <;> simp_all [look]

@[simp] theorem pageEntry_none : arch.pageEntry none = 0#64 := rfl

@[simp] theorem pageEntry_some {e : Install arch} : arch.pageEntry (some e) = arch.mapEntry e.1 e.2 := rfl

@[simp] theorem isVacant_zero : arch.isVacant 0#64 = true := by
  cases arch <;> rfl

@[simp] theorem isVacant_mapEntry : arch.isVacant (arch.mapEntry p flags) = false := by
  have hv : isValid (arch.mapEntry p flags) = true := isValid_mapEntry
  have := ne_zero_of_isValid hv
  cases arch <;> simp_all [isVacant]

theorem newDir_spec (hp : 0 < (p : Nat)) (hi : i < 2) :
    arch.look i (arch.newDir p) = .dir ∧ arch.isVacant (arch.newDir p) = false := by
  have hne : i ≠ 2 := by omega
  have hppn : arch.ppn (arch.newDir p) = p := ppn_newDir
  cases arch with
  | riscv64 =>
    have hbit : ∀ n < 10, (newDir .riscv64 p).getLsbD n = (1#64).getLsbD n := fun n hn => getLsbD_withPpn (Or.inl hn)
    have h0 := hbit 0 (by decide)
    have h1 := hbit 1 (by decide)
    have h2 := hbit 2 (by decide)
    have h3 := hbit 3 (by decide)
    simp_all [look, isVacant, isValid]
  | loongarch64 =>
    have h0 : newDir .loongarch64 p ≠ 0 := by
      intro h0
      rw [h0] at hppn
      rw [← hppn] at hp
      exact absurd hp (by decide)
    have h6 : (newDir .loongarch64 p).getLsbD 6 = false := getLsbD_withPpn (Or.inl (by decide))
    simp_all [look, isVacant]

end Arch

/-! ## The table and its operations -/

namespace PageWalk

structure Table (arch : Arch) where
  rootPpn : PhysPageNum arch
  frames : List (PhysPageNum arch)
  /-- The entries of each frame. -/
  mem : PhysPageNum arch → Nat → BitVec 64
  /-- The frames that the allocator will hand out. -/
  supply : List (PhysPageNum arch)

variable {arch : Arch}

namespace Table

variable (t : Table arch)

/-- `frame_alloc(..).unwrap()`: the frame is cleared. -/
def frameAlloc : Option (PhysPageNum arch × Table arch) :=
  match t.supply with
  | [] => none
  | frame :: rest => some (frame, { t with mem := update t.mem frame fun _ => 0#64, supply := rest })

def write (loc : Place arch) (pte : BitVec 64) : Table arch :=
  { t with mem := update t.mem loc.1 (update (t.mem loc.1) loc.2 pte) }

def new (mem : PhysPageNum arch → Nat → BitVec 64) (supply : List (PhysPageNum arch)) : Option (Table arch) :=
  match supply with
  | [] => none
  | frame :: rest => some ⟨frame, [frame], update mem frame fun _ => 0#64, rest⟩

variable (vpn : Nat)

/-- The index of each level, from the root on. -/
def indexes : List Nat := [vpn >>> 9 >>> 9 &&& 511, vpn >>> 9 &&& 511, vpn &&& 511]

/-- The loop of `find_pte_create`. -/
def createFrom (pageSize : PageSize) (t : Table arch) (i : Nat) (ppn : PhysPageNum arch) :
    List Nat → Option (Option (Place arch) × Table arch)
  | [] => some (none, t)
  | idx :: idxs =>
    let pte := t.mem ppn idx
    if i = pageSize.walkLevel then
      -- a leaf above the last level is a huge page on LoongArch
      some (some (ppn, idx), if arch = .loongarch64 ∧ i ≠ 2 then t.write (ppn, idx) (pte ||| 1#64 <<< 6) else t)
    else if arch.isVacant pte then
      t.frameAlloc.bind fun (frame, t) =>
        { t.write (ppn, idx) (arch.newDir frame) with frames := t.frames ++ [frame] }.createFrom pageSize (i + 1)
          (arch.ppn (arch.newDir frame)) idxs
    else t.createFrom pageSize (i + 1) (arch.ppn pte) idxs

def findPteCreate (pageSize : PageSize) :
    Option (Option (Place arch) × Table arch) := t.createFrom pageSize 0 t.rootPpn (indexes vpn)

/-- The loop of `find_pte_mut`: the place of the leaf. -/
def findFrom (t : Table arch) (i : Nat) (ppn : PhysPageNum arch) : List Nat → Option ((Place arch) × PageSize)
  | [] => none
  | idx :: idxs =>
    match arch.look i (t.mem ppn idx) with
    | .leaf => some ((ppn, idx), .ofLevel i)
    | .absent => none
    | .dir => t.findFrom (i + 1) (arch.ppn (t.mem ppn idx)) idxs

def findPteMut : Option ((Place arch) × PageSize) :=
  t.findFrom 0 t.rootPpn (indexes vpn)

def findPte : Option (BitVec 64 × PageSize) :=
  (t.findPteMut vpn).map fun x => (t.mem x.1.1 x.1.2, x.2)

def translate : Option (BitVec 64) := (t.findPte vpn).map (·.1)

def map (ppn : PhysPageNum arch) (flags : PTEFlags) (pageSize : PageSize) :
    Option (Table arch) := do
  let (loc, t) ← t.findPteCreate vpn pageSize
  let loc ← loc
  if arch.isVacant (t.mem loc.1 loc.2) then some (t.write loc (arch.mapEntry ppn flags)) else none

def unmap : Option (Table arch) := do
  let (loc, _) ← t.findPteMut vpn
  if Arch.isValid (t.mem loc.1 loc.2) then some (t.write loc 0#64) else none

def setEntry (ppn : PhysPageNum arch) (flags : PTEFlags) : Option (Table arch) := do
  let (loc, _) ← t.findPteMut vpn
  return t.write loc (arch.resetEntry ppn flags)

def setFlags (flags : PTEFlags) : Option (Table arch) := do
  let pte ← t.translate vpn
  t.setEntry vpn (arch.ppn pte) flags

/-- A leaf of another size at the source fails the `debug_assert_eq`. -/
def moveEntry (src dst : Nat) (pageSize : PageSize) : Option (Bool × Table arch) :=
  if src = dst then some (true, t)
  else match t.findPte src with
    | none => some (false, t)
    | some (entry, srcPageSize) =>
      if !Arch.isValid entry || srcPageSize ≠ pageSize then some (false, t)
      else if (t.translate dst).any Arch.isValid then some (false, t)
      else do
        let (loc, t) ← t.findPteCreate dst pageSize
        match loc with
        | none => return (false, t)
        | some loc =>
          if Arch.isValid (t.mem loc.1 loc.2) then return (false, t)
          let t := t.write loc entry
          let (loc, srcPageSize) ← t.findPteMut src
          if srcPageSize = pageSize then return (true, t.write loc 0#64) else none

end Table

open Table

/-- The calls on 4 KiB pages, at page numbers of 27 bits. -/
inductive Call (arch : Arch) where
  | map (vpn : Fin (2 ^ VPN_WIDTH)) (ppn : PhysPageNum arch) (flags : PTEFlags)
  | unmap (vpn : Fin (2 ^ VPN_WIDTH))
  | setEntry (vpn : Fin (2 ^ VPN_WIDTH)) (ppn : PhysPageNum arch) (flags : PTEFlags)
  | setFlags (vpn : Fin (2 ^ VPN_WIDTH)) (flags : PTEFlags)
  | moveEntry (src dst : Fin (2 ^ VPN_WIDTH))

def Table.call (t : Table arch) : Call arch → Option (Table arch)
  | .map vpn ppn flags => t.map vpn ppn flags .page4K
  | .unmap vpn => t.unmap vpn
  | .setEntry vpn ppn flags => t.setEntry vpn ppn flags
  | .setFlags vpn flags => t.setFlags vpn flags
  | .moveEntry src dst => (t.moveEntry src dst .page4K).map (·.2)

/-- What was last installed for each page. -/
abbrev Installed (arch : Arch) := Nat → Option (Install arch)

/-- Nothing moves onto a mapped page. -/
def Installed.move (m : Installed arch) (src dst : Nat) : Installed arch :=
  if src = dst ∨ m dst ≠ none then m else update (update m dst (m src)) src none

/-- The calls on the map: a page is mapped once, and only mapped pages are unmapped or changed. -/
def Installed.call (m : Installed arch) : Call arch → Option (Installed arch)
  | .map vpn ppn flags => if m vpn = none then some (update m vpn (some (ppn, flags))) else none
  | .unmap vpn => (m vpn).map fun _ => update m vpn none
  | .setEntry vpn ppn flags => (m vpn).map fun _ => update m vpn (some (ppn, flags))
  | .setFlags vpn flags => (m vpn).map fun x => update m vpn (some (x.1, flags))
  | .moveEntry src dst => some (m.move src dst)

/-! ## The directories on the way to a page -/

open Arch

/-- The frames of the directories, by level and by the part of the page number that leads there, and
what is installed for each page. -/
structure Tree (arch : Arch) where
  node : Nat × Nat → Option (PhysPageNum arch)
  page : Installed arch

/-- The entry that leads to `k` at level `i`; level 3 is the pages. -/
def Tree.slot (x : Tree arch) (i k : Nat) : BitVec 64 :=
  if i = 3 then arch.pageEntry (x.page k) else (x.node (i, k)).elim 0#64 arch.newDir

structure Holds (t : Table arch) (x : Tree arch) : Prop where
  root : x.node (0, 0) = some t.rootPpn
  entry : ∀ i k f j, x.node (i, k) = some f → j < 512 → t.mem f j = x.slot (i + 1) (512 * k + j)
  bare : ∀ i k j, i < 3 → x.node (i, k) = none → j < 512 → x.slot (i + 1) (512 * k + j) = 0#64
  level : ∀ i k f, x.node (i, k) = some f → i < 3
  apart : ∀ n n' f, x.node n = some f → x.node n' = some f → n = n'
  owned : ∀ n f, x.node n = some f → f ∈ t.frames
  once : (t.frames ++ t.supply).Nodup
  positive : ∀ f ∈ t.frames ++ t.supply, 0 < (f : Nat)

variable {t t' : Table arch} {x : Tree arch} {i j k v : Nat} {f g : PhysPageNum arch} {js : List Nat}

theorem Tree.slot_node (h : i < 2) : x.slot (i + 1) k = (x.node (i + 1, k)).elim 0#64 arch.newDir := if_neg (by omega)

theorem Table.mem_write {loc : Place arch} {pte : BitVec 64} :
    (t.write loc pte).mem f j = if f = loc.1 ∧ j = loc.2 then pte else t.mem f j := by
  by_cases hf : f = loc.1
  · subst hf
    simp [write, update_apply]
  · simp [write, hf]

theorem Tree.slot_update_page {o : Option (Install arch)} : Tree.slot ⟨x.node, update x.page v o⟩ i k =
    if i = 3 ∧ k = v then arch.pageEntry o else x.slot i k := by
  by_cases hi : i = 3 <;> by_cases hk : k = v <;> simp [slot, hi, hk]

theorem Tree.slot_update_node {n : Nat × Nat} (hn : n.1 ≠ 3) : Tree.slot ⟨update x.node n (some g), x.page⟩ i k =
    if (i, k) = n then arch.newDir g else x.slot i k := by
  by_cases h : (i, k) = n
  · subst h
    simp [slot, show i ≠ 3 from hn]
  · simp [slot, h]

theorem Tree.slot_page : x.slot 3 k = arch.pageEntry (x.page k) := if_pos rfl

/-- The indexes and the directories on the way to a page. -/
theorem indexes_eq (hv : v < 2 ^ 27) : indexes v = [v / 512 / 512, v / 512 % 512, v % 512] := by
  have h511 : ∀ n, n &&& 511 = n % 512 := fun n => Nat.and_two_pow_sub_one_eq_mod n 9
  have h9 : ∀ n, n >>> 9 = n / 512 := fun n => Nat.shiftRight_eq_div_pow n 9
  simp only [indexes, h511, h9]
  rw [Nat.mod_eq_of_lt (show v / 512 / 512 < 512 by omega)]

namespace Holds

variable (h : Holds t x)

include h

theorem findFrom_dir (hi : i < 2) (hf : x.node (i, k) = some f) (hj : j < 512) :
    t.findFrom i f (j :: js) = (x.node (i + 1, 512 * k + j)).bind fun g => t.findFrom (i + 1) g js := by
  rw [findFrom, h.entry i k f j hf hj, Tree.slot_node hi]
  cases hg : x.node (i + 1, 512 * k + j) with
  | none => simp
  | some g =>
    have hpos := h.positive g (mem_append_left _ (h.owned _ g hg))
    simp [(newDir_spec hpos hi).1]

theorem findFrom_page (hf : x.node (2, k) = some f) (hj : j < 512) :
    t.findFrom 2 f [j] = (x.page (512 * k + j)).map fun _ => ((f, j), .page4K) := by
  rw [findFrom, h.entry 2 k f j hf hj, Tree.slot_page]
  cases x.page (512 * k + j) with
  | none => simp
  | some e => simp [PageSize.ofLevel]

variable (hv : v < 2 ^ 27)

include hv

theorem findPteMut_eq : t.findPteMut v = (x.node (1, v / 512 / 512)).bind fun _ => (x.node (2, v / 512)).bind fun f =>
      (x.page v).map fun _ => ((f, v % 512), .page4K) := by
  have h1 : 512 * 0 + v / 512 / 512 = v / 512 / 512 := by omega
  have h2 : 512 * (v / 512 / 512) + v / 512 % 512 = v / 512 := by omega
  have h3 : 512 * (v / 512) + v % 512 = v := by omega
  rw [findPteMut, indexes_eq hv, h.findFrom_dir (by decide) h.root (by omega), h1]
  cases hf : x.node (1, v / 512 / 512) with
  | none => rfl
  | some f =>
    rw [bind_some, bind_some, h.findFrom_dir (by decide) hf (by omega), h2]
    cases hg : x.node (2, v / 512) with
    | none => rfl
    | some g => rw [bind_some, bind_some, h.findFrom_page hg (by omega), h3]

theorem unmapped (he : x.page v = none) : t.findPteMut v = none := by
  rw [h.findPteMut_eq hv, he]
  cases x.node (1, v / 512 / 512) <;> cases x.node (2, v / 512) <;> rfl

omit hv in
/-- A slot that leads somewhere belongs to a directory. -/
theorem node_of_slot (hi : i < 3) (hs : x.slot (i + 1) k ≠ 0#64) : ∃ f, x.node (i, k / 512) = some f := by
  cases hf : x.node (i, k / 512) with
  | some f => exact ⟨f, rfl⟩
  | none =>
    have hzero := h.bare i _ (k % 512) hi hf (by omega)
    rw [Nat.div_add_mod] at hzero
    exact absurd hzero hs

theorem mapped {e : Install arch} (he : x.page v = some e) :
    ∃ f, x.node (2, v / 512) = some f ∧ t.findPteMut v = some ((f, v % 512), .page4K) ∧
      t.mem f (v % 512) = arch.mapEntry e.1 e.2 := by
  have hslot : x.slot 3 v = arch.mapEntry e.1 e.2 := by rw [Tree.slot_page, he, pageEntry_some]
  obtain ⟨f, hf⟩ := h.node_of_slot (by decide) (hslot ▸ ne_zero_of_isValid isValid_mapEntry)
  have hdir : x.slot 2 (v / 512) = arch.newDir f := by rw [Tree.slot_node (by decide), hf, elim_some]
  have hpos := h.positive f (mem_append_left _ (h.owned _ f hf))
  have hne : arch.newDir f ≠ 0#64 := fun h0 => by
    have := (newDir_spec hpos (show 0 < 2 by decide)).2
    rw [h0, isVacant_zero] at this
    cases this
  obtain ⟨g, hg⟩ := h.node_of_slot (by decide) (hdir ▸ hne)
  refine ⟨f, hf, ?_, ?_⟩
  · rw [h.findPteMut_eq hv, hg, hf, he]
    rfl
  · rw [h.entry 2 _ f _ hf (by omega), Nat.div_add_mod, hslot]

theorem findPte_eq : t.findPte v = (x.page v).map fun e => (arch.mapEntry e.1 e.2, .page4K) := by
  rw [findPte]
  cases he : x.page v with
  | none => rw [h.unmapped hv he]; rfl
  | some e =>
    obtain ⟨f, -, hfind, hmem⟩ := h.mapped hv he
    rw [hfind, map_some, hmem, map_some]

omit hv

/-- Two directories have no entry in common. -/
theorem same_place {i' k' j' : Nat} (hf : x.node (i, k) = some f) (hj : j < 512)
    (hg : x.node (i', k') = some g) (hj' : j' < 512) :
    g = f ∧ j' = j ↔ i' + 1 = i + 1 ∧ 512 * k' + j' = 512 * k + j := by
  constructor
  · rintro ⟨rfl, rfl⟩
    obtain ⟨rfl, rfl⟩ := Prod.mk.inj (h.apart _ _ g hg hf)
    exact ⟨rfl, rfl⟩
  · rintro ⟨hi, hk⟩
    obtain rfl : i' = i := by omega
    obtain rfl : k' = k := by omega
    exact ⟨some.inj (hg.symm.trans hf), by omega⟩

/-- Writing the entry of a page whose last directory is there. -/
theorem write (hf : x.node (2, v / 512) = some f) (o : Option (Install arch)) :
    Holds (t.write (f, v % 512) (arch.pageEntry o)) ⟨x.node, update x.page v o⟩ := by
  refine ⟨h.root, ?_, ?_, h.level, h.apart, h.owned, h.once, h.positive⟩
  · intro i k g j hg hj
    have hsame := h.same_place hf (Nat.mod_lt v (by decide)) hg hj
    rw [Nat.div_add_mod] at hsame
    simp only [mem_write, Tree.slot_update_page, hsame, h.entry i k g j hg hj]
  · intro i k j hi hnone hj
    have hne : ¬(i + 1 = 3 ∧ 512 * k + j = v) := by
      rintro ⟨hi, hk⟩
      obtain rfl : i = 2 := by omega
      obtain rfl : k = v / 512 := by omega
      cases hnone.symm.trans hf
    rw [Tree.slot_update_page, if_neg hne, h.bare i k j hi hnone hj]

/-- A new directory behind a vacant entry. -/
theorem grow (hi : i < 2) (hf : x.node (i, k) = some f) (hj : j < 512)
    (hvacant : x.node (i + 1, 512 * k + j) = none) {rest : List (PhysPageNum arch)} (hs : t.supply = g :: rest) :
    Holds (Table.write ⟨t.rootPpn, t.frames ++ [g], update t.mem g fun _ => 0#64, rest⟩ (f, j) (arch.newDir g))
      ⟨update x.node (i + 1, 512 * k + j) (some g), x.page⟩ := by
  have happend : t.frames ++ [g] ++ rest = t.frames ++ t.supply := by rw [hs, append_assoc, singleton_append]
  have hfresh : ∀ n f', x.node n = some f' → f' ≠ g := by
    rintro n f' hn rfl
    have honce := h.once
    rw [hs] at honce
    exact disjoint_of_nodup_append honce (h.owned n f' hn) mem_cons_self
  have hnode : ∀ n f', update x.node (i + 1, 512 * k + j) (some g) n = some f' →
      n = (i + 1, 512 * k + j) ∧ f' = g ∨ x.node n = some f' :=
    fun _ _ hn => (update_cases hn).imp (fun ⟨he, hg⟩ => ⟨he, some.inj hg⟩) And.right
  have hkeep : ∀ n f', x.node n = some f' → update x.node (i + 1, 512 * k + j) (some g) n = some f' := by
    intro n f' hn
    rwa [update_of_ne]
    rintro rfl
    cases hvacant.symm.trans hn
  refine ⟨hkeep _ _ h.root, ?_, ?_, ?_, ?_, ?_, happend ▸ h.once, happend ▸ h.positive⟩
  · intro i' k' f' j' hf' hj'
    rw [mem_write, Tree.slot_update_node (by omega)]
    rcases hnode _ _ hf' with ⟨hn, rfl⟩ | hold
    · obtain ⟨rfl, rfl⟩ := Prod.mk.inj hn
      have hne : f' ≠ f := (hfresh _ f hf).symm
      rw [if_neg (by simp [hne]), if_neg (by simp), h.bare _ _ j' (by omega) hvacant hj']
      simp
    · simp only [h.same_place hf hj hold hj', update_of_ne (hfresh _ f' hold), h.entry i' k' f' j' hold hj', Prod.mk.injEq]
  · intro i' k' j' hi' hnone hj'
    rw [Tree.slot_update_node (by omega)]
    by_cases he : (i' + 1, 512 * k' + j') = (i + 1, 512 * k + j)
    · obtain ⟨h1, h2⟩ := Prod.mk.inj he
      obtain rfl : i' = i := by omega
      obtain rfl : k' = k := by omega
      cases hnone.symm.trans (hkeep _ _ hf)
    · rw [if_neg he]
      refine h.bare i' k' j' hi' (eq_none_iff_forall_ne_some.2 fun f' hf' => ?_) hj'
      cases hnone.symm.trans (hkeep _ _ hf')
  · intro i' k' f' hf'
    rcases hnode _ _ hf' with ⟨hn, -⟩ | hold
    · obtain ⟨rfl, -⟩ := Prod.mk.inj hn
      omega
    · exact h.level i' k' f' hold
  · intro n n' f' hn hn'
    rcases hnode _ _ hn with ⟨h1, rfl⟩ | h1 <;> rcases hnode _ _ hn' with ⟨h2, h3⟩ | h2
    · exact h1.trans h2.symm
    · exact absurd rfl (hfresh _ _ h2)
    · exact absurd h3 (hfresh _ _ h1)
    · exact h.apart _ _ _ h1 h2
  · intro n f' hn
    rcases hnode _ _ hn with ⟨-, rfl⟩ | hold
    · exact mem_append_right _ mem_cons_self
    · exact mem_append_left _ (h.owned _ _ hold)

theorem createFrom_dir (hi : i < 2) (hf : x.node (i, k) = some f) (hj : j < 512) (hs : t.supply ≠ []) :
    ∃ t' x' g, Holds t' x' ∧ x'.page = x.page ∧ x'.node (i + 1, 512 * k + j) = some g ∧
      t.supply.length ≤ t'.supply.length + 1 ∧
      t.createFrom .page4K i f (j :: js) = t'.createFrom .page4K (i + 1) g js := by
  have hlevel : i ≠ PageSize.walkLevel .page4K := Nat.ne_of_lt hi
  have hmem := h.entry i k f j hf hj
  rw [Tree.slot_node hi] at hmem
  rw [createFrom, if_neg hlevel, hmem]
  cases hg : x.node (i + 1, 512 * k + j) with
  | some g =>
    have hpos := h.positive g (mem_append_left _ (h.owned _ g hg))
    refine ⟨t, x, g, h, rfl, hg, by omega, ?_⟩
    simp [(newDir_spec hpos hi).2]
  | none =>
    obtain ⟨g, rest, hs⟩ := exists_cons_of_ne_nil hs
    refine ⟨_, _, g, h.grow hi hf hj hg hs, rfl, update_self .., by simp [Table.write, hs], ?_⟩
    simp [frameAlloc, hs, Table.write]

include hv

theorem findPteCreate (hs : 2 ≤ t.supply.length) :
    ∃ t' x' f, Holds t' x' ∧ x'.page = x.page ∧ x'.node (2, v / 512) = some f ∧
      t.supply.length ≤ t'.supply.length + 2 ∧ t.findPteCreate v .page4K = some (some (f, v % 512), t') := by
  obtain ⟨t₁, x₁, g, h₁, hpage₁, hg, hlen₁, hfind₁⟩ :=
    @createFrom_dir arch t x 0 (v / 512 / 512) 0 _ [v / 512 % 512, v % 512] h (by decide) h.root (by omega)
      (ne_nil_of_length_pos (by omega))
  obtain ⟨t₂, x₂, f, h₂, hpage₂, hf, hlen₂, hfind₂⟩ :=
    @createFrom_dir arch t₁ x₁ 1 (v / 512 % 512) _ g [v % 512] h₁ (by decide) hg (by omega)
      (ne_nil_of_length_pos (by omega))
  rw [show 512 * (512 * 0 + v / 512 / 512) + v / 512 % 512 = v / 512 by omega] at hf
  refine ⟨t₂, x₂, f, h₂, hpage₂.trans hpage₁, hf, by omega, ?_⟩
  rw [Table.findPteCreate, indexes_eq hv, hfind₁, hfind₂]
  simp [createFrom, PageSize.walkLevel]

/-- The entry of a mapped page can be written. -/
theorem overwrite {e : Install arch} (he : x.page v = some e) :
    ∃ loc, t.findPteMut v = some (loc, .page4K) ∧ t.mem loc.1 loc.2 = arch.mapEntry e.1 e.2 ∧
      ∀ o : Option (Install arch), Holds (t.write loc (arch.pageEntry o))
        ⟨x.node, update x.page v o⟩ := by
  obtain ⟨f, hf, hfind, hmem⟩ := h.mapped hv he
  exact ⟨(f, v % 512), hfind, hmem, h.write hf⟩

omit hv

theorem mem_create (hf : x.node (2, v / 512) = some f) : t.mem f (v % 512) = arch.pageEntry (x.page v) := by
  rw [h.entry 2 _ f _ hf (by omega), Nat.div_add_mod, Tree.slot_page]

end Holds

/-- The table stands for the map, and at least `n` frames are left. -/
def Stands (n : Nat) (t : Table arch) (m : Installed arch) : Prop :=
  ∃ x : Tree arch, Holds t x ∧ x.page = m ∧ n ≤ t.supply.length

namespace Stands

variable {n : Nat} {m : Installed arch} (h : Stands (n + 2) t m)

include h

variable (hv : v < 2 ^ 27)

include hv

theorem map (ppn : PhysPageNum arch) (flags : PTEFlags) :
    Rel (Stands n) (t.map v ppn flags .page4K) (if m v = none then some (update m v (some (ppn, flags))) else none) := by
  obtain ⟨x, h, rfl, hlen⟩ := h
  obtain ⟨t', x', f, h', hpage, hf, hlen', hfind⟩ := h.findPteCreate hv (by omega)
  simp only [Table.map, hfind, bind_eq_bind, bind_some, h'.mem_create hf, hpage]
  cases he : x.page v with
  | none =>
    rw [if_pos rfl, pageEntry_none, if_pos isVacant_zero]
    exact .some ⟨_, h'.write hf (some (ppn, flags)), by rw [hpage], show n ≤ t'.supply.length by omega⟩
  | some e =>
    rw [pageEntry_some, if_neg (by simp), if_neg (by simp)]
    exact .none

/-- A page is not mapped and not found, or its entry is found and can be overwritten. -/
theorem find :
    m v = none ∧ t.findPteMut v = none ∨ ∃ e loc, m v = some e ∧ t.findPteMut v = some (loc, .page4K) ∧
      t.mem loc.1 loc.2 = arch.mapEntry e.1 e.2 ∧ ∀ o, Stands n (t.write loc (arch.pageEntry o)) (update m v o) := by
  obtain ⟨x, h, rfl, hlen⟩ := h
  cases he : x.page v with
  | none => exact Or.inl ⟨rfl, h.unmapped hv he⟩
  | some e =>
    obtain ⟨loc, hfind, hmem, hwrite⟩ := h.overwrite hv he
    exact Or.inr ⟨e, loc, rfl, hfind, hmem, fun o => ⟨_, hwrite o, rfl, show n ≤ t.supply.length by omega⟩⟩

theorem unmap :
    Rel (Stands n) (t.unmap v) ((m v).map fun _ => update m v none) := by
  rcases h.find hv with ⟨he, hfind⟩ | ⟨e, loc, he, hfind, hmem, hwrite⟩ <;> rw [Table.unmap, he, hfind]
  · exact .none
  · simp only [bind_eq_bind, bind_some, hmem, if_pos isValid_mapEntry]
    exact .some (hwrite none)

theorem setEntry (ppn : PhysPageNum arch) (flags : PTEFlags) :
    Rel (Stands n) (t.setEntry v ppn flags) ((m v).map fun _ => update m v (some (ppn, flags))) := by
  rcases h.find hv with ⟨he, hfind⟩ | ⟨e, loc, he, hfind, -, hwrite⟩ <;> rw [Table.setEntry, he, hfind]
  · exact .none
  · rw [bind_eq_bind, bind_some, resetEntry_eq]
    exact .some (hwrite (some (ppn, flags)))

theorem setFlags (flags : PTEFlags) :
    Rel (Stands n) (t.setFlags v flags) ((m v).map fun e => update m v (some (e.1, flags))) := by
  have hset := fun ppn => h.setEntry hv ppn flags
  obtain ⟨x, h, rfl, -⟩ := h
  rw [Table.setFlags, Table.translate, h.findPte_eq hv]
  cases he : x.page v with
  | none => exact .none
  | some e =>
    have := hset e.1
    rw [he] at this
    simpa using this

omit hv

theorem moveEntry {src dst : Nat} (hsrc : src < 2 ^ 27) (hdst : dst < 2 ^ 27) :
    ∃ r t', t.moveEntry src dst .page4K = some (r, t') ∧ Stands n t' (Installed.move m src dst) := by
  obtain ⟨x, h, rfl, hlen⟩ := h
  have hkeep : Stands n t x.page := ⟨x, h, rfl, by omega⟩
  rw [moveEntry, Installed.move]
  by_cases heq : src = dst
  · rw [if_pos heq, if_pos (Or.inl heq)]
    exact ⟨true, t, rfl, hkeep⟩
  rw [if_neg heq, Table.translate, h.findPte_eq hsrc, h.findPte_eq hdst]
  by_cases hd : x.page dst = none
  · rw [if_neg (by simp [heq, hd])]
    cases he : x.page src with
    | none =>
      refine ⟨false, t, rfl, ?_⟩
      rwa [update_eq_self_iff.2, update_eq_self_iff.2 hd.symm]
      rw [update_of_ne heq, he]
    | some e =>
      -- the entry is written at its new place, then found again at the old one
      obtain ⟨t', x', f, h', hpage, hf, hlen', hfind⟩ := h.findPteCreate hdst (by omega)
      have hmem := h'.mem_create hf
      rw [hpage, hd, pageEntry_none] at hmem
      obtain ⟨loc, hloc, -, hwrite⟩ := (h'.write hf (some e)).overwrite hsrc (e := e)
        ((update_of_ne heq _ _).trans (by rw [hpage, he]))
      rw [pageEntry_some] at hloc
      refine ⟨true, _, ?_, ⟨_, hwrite none, by rw [hpage], show n ≤ t'.supply.length by omega⟩⟩
      simp [hd, hfind, hmem, hloc, show isValid 0#64 = false from rfl]
  · rw [if_pos (Or.inr hd)]
    obtain ⟨d, hd⟩ := ne_none_iff_exists'.1 hd
    cases he : x.page src with
    | none => exact ⟨false, t, rfl, hkeep⟩
    | some e => exact ⟨false, t, by simp [hd], hkeep⟩

theorem call (c : Call arch) : Rel (Stands n) (t.call c) (Installed.call m c) := by
  cases c with
  | map v ppn flags => exact h.map v.isLt ppn flags
  | unmap v => exact h.unmap v.isLt
  | setEntry v ppn flags => exact h.setEntry v.isLt ppn flags
  | setFlags v flags => exact h.setFlags v.isLt flags
  | moveEntry src dst =>
    obtain ⟨r, t', hmove, hstands⟩ := h.moveEntry src.isLt dst.isLt
    rw [Table.call, hmove]
    exact .some hstands

omit h

theorem run (cs : List (Call arch)) (h : Stands (2 * cs.length) t m) :
    Rel (Stands 0) (cs.foldlM Table.call t) (cs.foldlM Installed.call m) := by
  induction cs generalizing t m with
  | nil => exact .some h
  | cons c cs ih =>
    rw [foldlM_cons, foldlM_cons]
    have hcall := (h : Stands (2 * cs.length + 2) t m).call c
    generalize t.call c = t', Installed.call m c = m' at hcall ⊢
    cases hcall with
    | none => exact .none
    | some h => exact ih h

theorem new {mem : PhysPageNum arch → Nat → BitVec 64} {supply : List (PhysPageNum arch)} (hfresh : supply.Nodup)
    (hpos : ∀ f ∈ supply, 0 < (f : Nat)) (hlen : n + 1 ≤ supply.length) :
    ∃ t, Table.new mem supply = some t ∧ Stands n t fun _ => none := by
  obtain ⟨root, rest, rfl⟩ := exists_cons_of_length_pos (show 0 < supply.length by omega)
  refine ⟨_, rfl, ⟨fun n => if n = (0, 0) then some root else none, fun _ => none⟩, ?_, rfl, by simpa using hlen⟩
  have hroot : ∀ n f, (if n = (0, 0) then some root else none) = some f → n = (0, 0) ∧ root = f := by
    intro n f hn
    exact ⟨(ite_none_right_eq_some.1 hn).1, some.inj (ite_none_right_eq_some.1 hn).2⟩
  have hslot : ∀ i k, Tree.slot ⟨fun n => if n = (0, 0) then some root else none, fun _ => none⟩ (i + 1) k = 0#64 := by
    intro i k
    simp [Tree.slot]
  refine ⟨rfl, ?_, fun i k j _ _ _ => hslot i _, ?_, ?_, ?_, hfresh, hpos⟩
  · intro i k f j hf _
    obtain ⟨-, rfl⟩ := hroot _ _ hf
    rw [hslot]
    simp
  · intro i k f hf
    obtain ⟨rfl, -⟩ := Prod.mk.inj (hroot _ _ hf).1
    decide
  · intro n n' f hn hn'
    exact (hroot _ _ hn).1.trans (hroot _ _ hn').1.symm
  · intro n f hn
    exact mem_singleton.2 (hroot _ _ hn).2.symm

end Stands

/-- The frames that a walk can come to, by level. -/
inductive Table.Reaches (t : Table arch) : Nat → PhysPageNum arch → Prop where
  | root : t.Reaches 0 t.rootPpn
  | dir {i j : Nat} {f : PhysPageNum arch} : t.Reaches i f → i < 2 → j < 512 → arch.look i (t.mem f j) = .dir →
      t.Reaches (i + 1) (arch.ppn (t.mem f j))

theorem Holds.node_of_reaches (h : Holds t x) (hr : t.Reaches i f) : ∃ k, x.node (i, k) = some f := by
  induction hr with
  | root => exact ⟨0, h.root⟩
  | @dir i j f _ hi hj hlook ih =>
    obtain ⟨k, hk⟩ := ih
    rw [h.entry i k f j hk hj, Tree.slot_node hi] at hlook ⊢
    refine ⟨512 * k + j, ?_⟩
    cases hg : x.node (i + 1, 512 * k + j) with
    | none => simp [hg] at hlook
    | some g => simp

/-- What the table must show of a map. -/
structure Refines (t : Table arch) (m : Installed arch) : Prop where
  find : ∀ v < 2 ^ VPN_WIDTH, t.findPte v = (m v).map fun e => (arch.mapEntry e.1 e.2, .page4K)
  shown : ∀ v e, m v = some e → arch.ppn (arch.mapEntry e.1 e.2) = e.1 ∧ arch.rights (arch.mapEntry e.1 e.2) = e.2.rights
  owned : ∀ i f, t.Reaches i f → t.frames.count f = 1

theorem Stands.refines {m : Installed arch} {n : Nat} (h : Stands n t m) : Refines t m := by
  obtain ⟨x, h, rfl, -⟩ := h
  refine ⟨fun v hv => h.findPte_eq hv, fun v e _ => ⟨ppn_mapEntry, rights_mapEntry⟩, fun i f hr => ?_⟩
  obtain ⟨k, hk⟩ := h.node_of_reaches hr
  exact count_eq_one_of_mem (nodup_append.1 h.once).1 (h.owned _ f hk)

/-- Whatever is called on a new table, it refines the map, and it panics exactly where a call on the
map is not allowed. -/
theorem table_refines_map (mem : PhysPageNum arch → Nat → BitVec 64) (supply : List (PhysPageNum arch))
    (cs : List (Call arch)) (hfresh : supply.Nodup) (hpos : ∀ f ∈ supply, 0 < (f : Nat))
    (hlen : 2 * cs.length + 1 ≤ supply.length) :
    ∃ t, Table.new mem supply = some t ∧
      Rel Refines (cs.foldlM Table.call t) (cs.foldlM Installed.call fun _ => none) := by
  obtain ⟨t, hnew, hstands⟩ : ∃ t, Table.new mem supply = some t ∧ Stands (2 * cs.length) t fun _ => none :=
    Stands.new hfresh hpos hlen
  refine ⟨t, hnew, ?_⟩
  have hrun := hstands.run cs
  generalize cs.foldlM Table.call t = t', cs.foldlM Installed.call _ = m' at hrun ⊢
  cases hrun with
  | none => exact .none
  | some h => exact .some h.refines

theorem table_refines_map_moved : ([1, 2, 3, 4, 5] : List (PhysPageNum .loongarch64)).Nodup ∧
    ([.map 5 7 0x13, .moveEntry 5 70000].foldlM Installed.call fun _ => none : Option (Installed .loongarch64)).isSome ∧
    ∃ t : Table .loongarch64, Table.new (fun _ _ => 1) [1, 2, 3, 4, 5] = some t ∧
      Rel Refines ([.map 5 7 0x13, .moveEntry 5 70000].foldlM Table.call t)
        ([.map 5 7 0x13, .moveEntry 5 70000].foldlM Installed.call fun _ => none) :=
  ⟨by decide, rfl, table_refines_map _ _ _ (by decide) (by simp) (by decide)⟩

/-- The unwrap of `set_entry` fails for a page that is not mapped. -/
theorem setEntry_unmapped_panics :
    ((Table.new (fun _ _ => 0) [1] : Option (Table .riscv64)).map fun t => (t.call (.setEntry 0 1 0)).isSome) = some false := by
  rfl

end PageWalk

end ShellCore.Mm
