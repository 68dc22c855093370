import ShellCore.Mm.MemorySet

/-!
# Page faults and kernel access to user memory

`handle_page_fault` populates a page of an area, `handle_cow_fault` gives a private page a frame of
its own. The kernel reaches user memory by pinning: it looks up the frames of a range and faults in
what is missing.
-/

namespace ShellCore.Mm

open VirtAddr

namespace MemorySet

/-- A piece of a frame that holds a piece of the user range. -/
structure UserBufferSegment where
  frame : Frame
  offset : Nat
  count : Nat
deriving DecidableEq

def areaAllowsUserAccess (permission : MapPermission) (write : Bool) : Bool :=
  permission.u && if write then permission.w else permission.r

variable (b : Build)

end MemorySet

end ShellCore.Mm
