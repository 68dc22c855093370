import ShellCore.Fs.Dentry

/-!
# Opening a file

`open_file` looks a path up and creates the file if it is missing. What the file object lets through is decided by
`read_write` from the whole word of flags; the access mode in the two low bits is only looked at by `sys_openat` itself.
-/

namespace ShellCore.Fs

def modeFifo : UInt32 := 0o010000

def modeReg : UInt32 := 0o100000

namespace OpenFlags

def WRONLY : UInt32 := 1
def RDWR : UInt32 := 2
def CREATE : UInt32 := 0x40
def TRUNC : UInt32 := 0x200
def APPEND : UInt32 := 0x400
def NONBLOCK : UInt32 := 0x800
def DIRECTORY : UInt32 := 0x10000
def NOFOLLOW : UInt32 := 0x20000

def all : UInt32 := WRONLY ||| RDWR ||| CREATE ||| TRUNC ||| APPEND ||| NONBLOCK ||| DIRECTORY ||| NOFOLLOW

def fromBitsTruncate (bits : UInt32) : UInt32 := bits &&& all

def contains (flags bit : UInt32) : Bool := flags &&& bit == bit

variable (flags : UInt32)

/-- Whether the file can be read, and whether it can be written. -/
def readWrite : Bool × Bool :=
  if flags = 0 then (true, false)
  else if contains flags WRONLY then (false, true)
  else (true, true)

def shouldCreate : Bool := contains flags CREATE

def shouldBeDirectory : Bool := contains flags DIRECTORY

def isNofollow : Bool := contains flags NOFOLLOW

end OpenFlags

open OpenFlags

def tmpfileFlag : UInt32 := 0x400000

/-- The two low bits of the flags. -/
def accessMode (flags : UInt32) : UInt32 := flags &&& 3

/-- What `sys_openat` makes of the access mode. -/
def modeReadWrite (flags : UInt32) : Bool × Bool :=
  if accessMode flags = 0 then (true, false)
  else if accessMode flags = 1 then (false, true)
  else (true, true)

/-- The dentries together with what creates files. -/
structure Namespace (ν : Type) extends Dentries ν where
  /-- The child that is mounted or cached. A lookup caches what it finds, except below `/proc`. -/
  held : ν → Name → Option ν
  /-- `create_file` of the directory's inode, with the new dentry. -/
  createFile : ν → Name → UInt32 → Option ν
  /-- The dentry of a file without a name. -/
  anonymous : ν → ν
  root_dir : toDentries.isDir root = true
  parent_dir : ∀ n m, parent n = some m → toDentries.isDir m = true
  created : ∀ parent name mode child, createFile parent name mode = some child → mode &&& modeFormat = modeReg →
    toDentries.mode child &&& modeFormat = modeReg
  anonymous_regular : ∀ parent, toDentries.mode (anonymous parent) &&& modeFormat = modeReg

namespace Namespace

variable {ν : Type} (T : Namespace ν)

def isFifo (n : ν) : Bool := T.mode n &&& modeFormat == modeFifo

def isRegular (n : ν) : Bool := T.mode n &&& modeFormat == modeReg

/-- `none` if the kernel panics. -/
def createFileInDentry (parent : ν) (name : Name) (mode : UInt32) : Option ν :=
  match T.held parent name with
  | some child => some child
  | none => T.createFile parent name (mode &&& 0o7777 ||| modeReg)

end Namespace

structure OSInode (ν : Type) where
  readable : Bool
  writable : Bool
  append : Bool
  dentry : ν

namespace Namespace

variable {ν : Type} (T : Namespace ν)

/-- The file object for a dentry. -/
def osInode (flags : UInt32) (dentry : ν) : OSInode ν where
  readable := (readWrite flags).1
  writable := (readWrite flags).2
  append := contains flags APPEND
  dentry := dentry

/-- `none` if the kernel panics. -/
def openFile (base : ν) (path : Path) (flags mode : UInt32) : Option (Option (OSInode ν)) :=
  let start := if isAbsolute path then T.root else base
  match T.findTree start path (!isNofollow flags) with
  | .ok target => some (some (osInode flags target))
  | .error _ =>
    if !shouldCreate flags then some none
    else
      match T.findTree start (parentPath path) true with
      | .error _ => some none
      | .ok parent => (T.createFileInDentry parent (fileName path) mode).map fun dentry => some (osInode flags dentry)

/-- The dentry that is there for the path: what the lookup finds, or else, for a file to be created, the child that the
parent directory holds under the last component. -/
def existing (base : ν) (path : Path) (flags : UInt32) : Option ν :=
  let start := if isAbsolute path then T.root else base
  match T.findTree start path (!isNofollow flags) with
  | .ok target => some target
  | .error _ =>
    if !shouldCreate flags then none
    else
      match T.findTree start (parentPath path) true with
      | .error _ => none
      | .ok parent => T.held parent (fileName path)

/-- The file type of what is created is not the caller's. -/
theorem regular_format (mode : UInt32) : (mode &&& 0o7777 ||| modeReg) &&& modeFormat = modeReg := by
  have hperm : mode &&& 0o7777 &&& modeFormat = 0 := by
    rw [UInt32.and_assoc, show (0o7777 : UInt32) &&& modeFormat = 0 by decide, UInt32.and_zero]
  have hreg : modeReg &&& modeFormat = modeReg := by decide
  have hdistrib : (mode &&& 0o7777 ||| modeReg) &&& modeFormat = mode &&& 0o7777 &&& modeFormat ||| modeReg &&& modeFormat := by
    apply UInt32.toNat_inj.1
    simp only [UInt32.toNat_and, UInt32.toNat_or]
    exact Nat.and_or_distrib_right ..
  rw [hdistrib, hperm, hreg, UInt32.zero_or]

variable {T} {base dentry : ν} {path : Path} {flags mode : UInt32} {inode : OSInode ν}

/-- What is opened is there already, or is a new regular file. -/
theorem openFile_eq_some (h : T.openFile base path flags mode = some (some inode)) :
    ∃ dentry, inode = osInode flags dentry ∧
      (T.existing base path flags = some dentry ∨ T.existing base path flags = none ∧ T.isRegular dentry = true) := by
  simp only [openFile] at h
  simp only [existing]
  generalize (if isAbsolute path then T.root else base) = start at h ⊢
  split at h
  case h_1 target hfound =>
    obtain rfl := Option.some.inj (Option.some.inj h)
    exact ⟨target, rfl, .inl rfl⟩
  case h_2 e hmissing =>
    split at h
    · cases Option.some.inj h
    · split at h
      · cases Option.some.inj h
      case h_2 parent hparent =>
        obtain ⟨dentry, hcreate, hinode⟩ := Option.map_eq_some_iff.1 h
        refine ⟨dentry, (Option.some.inj hinode).symm, ?_⟩
        unfold createFileInDentry at hcreate
        split at hcreate
        case h_1 child hheld =>
          cases hcreate
          left
          simp_all
        case h_2 hheld =>
          right
          refine ⟨by simp_all, ?_⟩
          simp [isRegular, T.created _ _ _ _ hcreate (regular_format _)]

end Namespace

end ShellCore.Fs
