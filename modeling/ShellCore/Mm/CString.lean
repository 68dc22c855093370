import ShellCore.Mm.Pin

/-!
# Copying a string from user memory

`copy_user_cstring` pins the rest of a page at a time. As long as nobody else changes the address space, this is the
byte-by-byte scan `cstring`, which stops at the first NUL, at the first byte that cannot be read and after one byte more than
the limit. Whether a page can be read is read off its area and its entry. The trampoline page has no area and is the exception.
-/

namespace ShellCore.Mm

namespace MemorySet

end MemorySet

/-! ## The scan byte by byte -/

section Scan

open MemorySet

variable {l : List (Option UInt8)} {bytes : List UInt8}

end Scan

namespace MemorySet

/-- The page that its area and its entry both let the user read. -/
def readPage (ms : MemorySet) (phys : Phys) (vpn : Nat) : Option Page :=
  match ms.areas.lastLe vpn, ms.pt vpn with
  | some (_, area), some pte =>
    if area.contains vpn && areaAllowsUserAccess area.mapPerm false && areaAllowsUserAccess pte.flags false then
      some (phys.mem pte.ppn)
    else none
  | _, _ => none

variable {b : Build} {fv : Files} {P : MemorySet → Phys → Prop} {pages : Nat → Option Page} {ms : MemorySet} {phys : Phys}
  {ptr maxLen va : Nat}

section Pin

variable {len faults : Nat} (hpos : 0 < len) (hlen : len ≤ PAGE_SIZE - va % PAGE_SIZE)
  (hspace : va + len ≤ USER_TRAMPOLINE)

include hspace hpos

include hlen

end Pin

end MemorySet

end ShellCore.Mm
