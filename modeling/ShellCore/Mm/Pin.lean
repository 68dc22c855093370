import ShellCore.Mm.Fault
import ShellCore.Mm.HeapFrame

/-!
# What a pinned range holds

A segment is a piece of one frame, found through the area and the page-table entry of its page. The segments of a range that
ends in user space follow each other byte by byte; past it the address is cut to 39 bits while the end of the range is not.
-/

namespace ShellCore.Mm.MemorySet

open UserBufferSegment

/-- Where the hardware finds the byte of a user address. -/
def physByte (ms : MemorySet) (va : Nat) : Option (Frame × Nat) :=
  if va < USER_APP_MAX_SIZE then (ms.pt (va / PAGE_SIZE)).map fun pte => (pte.ppn, va % PAGE_SIZE) else none

/-- The kernel's mark of a frame that is shared copy-on-write: its private area may be written, its entry may not. -/
def CopyOnWrite (area : MapArea) (pte : Pte) : Prop :=
  area.isShared = false ∧ area.mapPerm.w = true ∧ pte.flags.w = false

/-- The area of a page (the last one that does not start above it) and its entry both let the user access it. -/
def Accessible (ms : MemorySet) (write : Bool) (vpn : Nat) : Prop :=
  ∃ k area pte, ms.areas.lastLe vpn = some (k, area) ∧ area.contains vpn = true ∧ areaAllowsUserAccess area.mapPerm write = true ∧
    ms.pt vpn = some pte ∧ areaAllowsUserAccess pte.flags write = true ∧ (write = true → ¬CopyOnWrite area pte)

/-- The physical bytes of a segment. -/
def UserBufferSegment.bytes (s : UserBufferSegment) : List (Frame × Nat) :=
  (List.range s.count).map fun i => (s.frame, s.offset + i)

/-- The segments are the `len` bytes from `start` on, each through a page the user may access. -/
structure Holds (ms : MemorySet) (write : Bool) (start len : Nat) (segments : List UserBufferSegment) : Prop where
  total : (segments.flatMap bytes).length = len
  byte : ∀ i < len, (segments.flatMap bytes)[i]? = ms.physByte (start + i)
  access : ∀ i < len, ms.Accessible write ((start + i) / PAGE_SIZE)

variable {b : Build} {ms : MemorySet} {write : Bool} {va top : Nat} {s : UserBufferSegment}

theorem Holds.nil {start : Nat} : ms.Holds write start 0 [] := ⟨rfl, by simp, by simp⟩

theorem Holds.append {start n k : Nat} {l l' : List UserBufferSegment} (h : ms.Holds write start n l)
    (h' : ms.Holds write (start + n) k l') : ms.Holds write start (n + k) (l ++ l') := by
  refine ⟨?_, ?_, ?_⟩
  · rw [List.flatMap_append, List.length_append, h.total, h'.total]
  · intro i hi
    rw [List.flatMap_append]
    rcases Nat.lt_or_ge i n with hlt | hge
    · rw [List.getElem?_append_left (by rw [h.total]; exact hlt)]
      exact h.byte i hlt
    · rw [List.getElem?_append_right (by rw [h.total]; exact hge), h.total, h'.byte (i - n) (by omega),
        show start + n + (i - n) = start + i by omega]
  · intro i hi
    rcases Nat.lt_or_ge i n with hlt | hge
    · exact h.access i hlt
    · have := h'.access (i - n) (by omega)
      rwa [show start + n + (i - n) = start + i by omega] at this

/-- The areas have the same starts. -/
def SameKeys (ms ms' : MemorySet) : Prop := ∀ k, ms'.areas.get? k = none ↔ ms.areas.get? k = none

variable {m : Arith} {fv : Files} {ms' ms'' : MemorySet} {phys phys' : Phys} {r : Bool} {addr : Nat}

theorem SameKeys.refl : SameKeys ms ms := fun _ => Iff.rfl

theorem SameKeys.trans (h : SameKeys ms ms') (h' : SameKeys ms' ms'') : SameKeys ms ms'' := fun k => (h' k).trans (h k)

theorem SameKeys.lastLe (h : SameKeys ms ms') (k : Nat) : ms'.areas.lastLe k = none ↔ ms.areas.lastLe k = none := by
  simp only [OrdMap.lastLe_eq_none, h _]

end ShellCore.Mm.MemorySet
