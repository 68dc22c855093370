import ShellCore.Fs.Open
import ShellCore.Lib.Actors
import ShellCore.Mm.MemorySet

/-!
# Descriptors and what is done through them

Processes open files, read and write through descriptors and map files into memory. Every call looks at the file object of
the descriptor before it hands anything to the inode; what the inode does then is left open.
-/

namespace ShellCore.Fs

open Function

open Mm (MMapProt)

inductive Errno where
  | EBADF
  | ENOENT
  | ENOTDIR
  | EISDIR
  /-- `EIO`. -/
  | EIo
  | EMFILE
  | EINVAL
  | EACCES
  | EEXIST
  | ENOMEM
  | ENOSYS
  /-- A memory access that faults. -/
  | fault
deriving DecidableEq

/-- What the inodes and the named pipes do, on a state `σ` of their own. -/
structure Vfs (ν σ : Type) where
  readAt : ν → Nat → Nat → σ → List UInt8
  /-- How many bytes are written. -/
  writeAt : ν → Nat → List UInt8 → σ → Nat × σ
  truncate : ν → Nat → σ → Bool × σ
  getSize : ν → σ → Nat
  pipeRead : ν → Nat → σ → List UInt8 × σ
  pipeWrite : ν → List UInt8 → σ → Nat × σ

/-- An open file: an `OSInode`, or the end or both ends of a named pipe. -/
structure File (ν : Type) extends OSInode ν where
  fifo : Bool

structure Desc (ν : Type) extends File ν where
  offset : Nat

/-- A page of an address space. -/
structure Mapping where
  /-- The file and the page of the file; `none` for anonymous memory. -/
  backing : Option (Nat × Nat)
  shared : Bool
  prot : MMapProt
  /-- The contents of a private page that has been written to. -/
  copy : Option (List UInt8)

structure ProcInfo (ν : Type) where
  pwd : ν
  umask : UInt32
  /-- The limit on the number of descriptors. -/
  nofile : Nat

structure Sys (ν σ τ : Type) where
  files : List (Desc ν)
  fds : τ → Nat → Option Nat
  pages : τ → Nat → Option Mapping
  proc : τ → ProcInfo ν
  disk : σ

/-- What a call answers, and the bytes that it has taken out of a file. -/
structure Reply where
  ret : Except Errno Nat
  data : List UInt8

inductive Cmd (τ : Type) where
  | openat (dirfd : Int) (path : Path) (flags mode : UInt32)
  | read (fd len : Nat)
  | readv (fd : Nat) (lens : List Nat)
  | pread64 (fd count offset : Nat)
  | write (fd : Nat) (bytes : List UInt8)
  | writev (fd : Nat) (iovs : List (List UInt8))
  | pwrite64 (fd : Nat) (bytes : List UInt8) (offset : Nat)
  | ftruncate (fd len : Nat)
  /-- `rounds` bounds the rounds of the loop. -/
  | sendfile (outFd inFd count rounds : Nat)
  | splice (fdIn : Nat) (offIn : Option Nat) (fdOut : Nat) (offOut : Option Nat) (len rounds : Nat)
  /-- `fd` is `none` for an anonymous mapping. -/
  | mmap (start len : Nat) (prot : MMapProt) (shared fixed : Bool) (fd : Option Nat) (page : Nat)
  | mprotect (start len : Nat) (prot : MMapProt)
  | munmap (start len : Nat)
  | load (vpn : Nat)
  | store (vpn offset : Nat) (byte : UInt8)
  | dup (fd newFd : Nat)
  | close (fd : Nat)
  | fork (child : τ)

namespace Vfs

variable {ν σ : Type} (V : Vfs ν σ) (f : Desc ν)

/-- `read` of the file: the bytes, the new offset and the new state. -/
def read (len : Nat) (disk : σ) : List UInt8 × Nat × σ :=
  if f.fifo then
    let r := V.pipeRead f.dentry len disk
    (r.1, f.offset, r.2)
  else
    let bytes := V.readAt f.dentry f.offset len disk
    (bytes, f.offset + bytes.length, disk)

/-- `write` of the file: the number of bytes, the new offset and the new state. -/
def write (bytes : List UInt8) (disk : σ) : Nat × Nat × σ :=
  if f.fifo then
    let r := V.pipeWrite f.dentry bytes disk
    (r.1, f.offset, r.2)
  else
    let r := V.writeAt f.dentry (if f.append then V.getSize f.dentry disk else f.offset) bytes disk
    (r.1, f.offset + r.1, r.2)

/-- `pread` of the file, which a pipe does not have. -/
def pread (offset len : Nat) (disk : σ) : List UInt8 :=
  if f.fifo then [] else V.readAt f.dentry offset len disk

/-- `write_at` of the file. -/
def pwrite (offset : Nat) (bytes : List UInt8) (disk : σ) : Nat × σ :=
  if f.fifo then V.pipeWrite f.dentry bytes disk else V.writeAt f.dentry offset bytes disk

end Vfs

namespace Sys

variable {ν σ τ : Type} [DecidableEq τ]

def init (proc : τ → ProcInfo ν) (disk : σ) : Sys ν σ τ where
  files := []
  fds _ _ := none
  pages _ _ := none
  proc := proc
  disk := disk

variable (s : Sys ν σ τ) (V : Vfs ν σ) (t : τ) (fd : Nat)

/-- The file of a descriptor. -/
def file : Option (Nat × Desc ν) := (s.fds t fd).bind fun d => s.files[d]?.map fun f => (d, f)

/-! ## Transfers -/

def setOffset (d : Nat) (f : Desc ν) (offset : Nat) : Sys ν σ τ := { s with files := s.files.set d { f with offset } }

def fileRead (d len : Nat) : List UInt8 × Sys ν σ τ :=
  match s.files[d]? with
  | none => ([], s)
  | some f =>
    let r := V.read f len s.disk
    (r.1, { s.setOffset d f r.2.1 with disk := r.2.2 })

def fileWrite (d : Nat) (bytes : List UInt8) : Nat × Sys ν σ τ :=
  match s.files[d]? with
  | none => (0, s)
  | some f =>
    let r := V.write f bytes s.disk
    (r.1, { s.setOffset d f r.2.1 with disk := r.2.2 })

def fileReadAt (d offset len : Nat) : List UInt8 :=
  match s.files[d]? with
  | none => []
  | some f => V.pread f offset len s.disk

def fileWriteAt (d offset : Nat) (bytes : List UInt8) : Nat × Sys ν σ τ :=
  match s.files[d]? with
  | none => (0, s)
  | some f =>
    let r := V.pwrite f offset bytes s.disk
    (r.1, { s with disk := r.2 })

/-- Reads into each buffer, up to the first that is not filled. -/
def readEach (d : Nat) : Sys ν σ τ → List Nat → List UInt8 × Sys ν σ τ
  | s, [] => ([], s)
  | s, len :: lens =>
    if len = 0 then readEach d s lens
    else
      let r := s.fileRead V d len
      if r.1.length < len then r
      else
        let rest := readEach d r.2 lens
        (r.1 ++ rest.1, rest.2)

/-- A write at `offset`, if there is one. -/
def writeSome (d : Nat) (offset : Option Nat) (bytes : List UInt8) : Nat × Sys ν σ τ :=
  match offset with
  | none => s.fileWrite V d bytes
  | some offset => s.fileWriteAt V d offset bytes

/-- A read at `offset`, if there is one. -/
def readSome (d : Nat) (offset : Option Nat) (len : Nat) : List UInt8 × Sys ν σ τ :=
  match offset with
  | none => s.fileRead V d len
  | some offset => (s.fileReadAt V d offset len, s)

/-- Writes the bytes in as many pieces as it takes, up to the first write of nothing. -/
def writeAll (d : Nat) : Nat → Option Nat → Sys ν σ τ → List UInt8 → Nat × Sys ν σ τ
  | 0, _, s, _ => (0, s)
  | fuel + 1, offset, s, bytes =>
    if bytes = [] then (0, s)
    else
      let r := s.writeSome V d offset bytes
      if r.1 = 0 then (0, r.2)
      else
        let rest := writeAll d fuel (offset.map (· + r.1)) r.2 (bytes.drop r.1)
        (r.1 + rest.1, rest.2)

def writeEach (d : Nat) : Sys ν σ τ → List (List UInt8) → Nat × Sys ν σ τ
  | s, [] => (0, s)
  | s, bytes :: iovs =>
    let r := writeAll V d bytes.length none s bytes
    if r.1 < bytes.length then r
    else
      let rest := writeEach d r.2 iovs
      (r.1 + rest.1, rest.2)

def sendfileBuffer : Nat := 4096

/-- The loop of `sys_sendfile`; `none` if it takes more rounds. -/
def sendLoop (dIn dOut count : Nat) : Nat → Sys ν σ τ → Nat → List UInt8 → Option (Sys ν σ τ × Reply)
  | 0, _, _, _ => none
  | rounds + 1, s, total, data =>
    if count ≤ total then some (s, ⟨.ok total, data⟩)
    else
      let r := s.fileRead V dIn (min (count - total) sendfileBuffer)
      if r.1 = [] then some (r.2, ⟨.ok total, data⟩)
      else
        let w := writeAll V dOut r.1.length none r.2 r.1
        if w.1 < r.1.length ∧ total = 0 then some (w.2, ⟨.error .EBADF, data ++ r.1⟩)
        else sendLoop dIn dOut count rounds w.2 (total + w.1) (data ++ r.1)

def spliceChunk : Nat := 64 * 1024

/-- The loop of `sys_splice`; `none` if it takes more rounds. -/
def spliceLoop (dIn dOut len : Nat) :
    Nat → Sys ν σ τ → Option Nat → Option Nat → Nat → List UInt8 → Option (Sys ν σ τ × Reply)
  | 0, _, _, _, _, _ => none
  | rounds + 1, s, offIn, offOut, total, data =>
    if len ≤ total then some (s, ⟨.ok total, data⟩)
    else
      let r := s.readSome V dIn offIn (min (len - total) spliceChunk)
      if r.1 = [] then some (r.2, ⟨.ok total, data⟩)
      else
        let w := writeAll V dOut r.1.length offOut r.2 r.1
        if w.1 < r.1.length then some (w.2, ⟨.ok (total + w.1), data ++ r.1⟩)
        else spliceLoop dIn dOut len rounds w.2 (offIn.map (· + r.1.length)) (offOut.map (· + w.1)) (total + w.1) (data ++ r.1)

/-! ## System calls -/

def fail (e : Errno) : Option (Sys ν σ τ × Reply) := some (s, ⟨.error e, []⟩)

/-- A call on one descriptor, if its file allows it. -/
def onFile (allowed : Desc ν → Bool) (call : Nat → Desc ν → Sys ν σ τ × Reply) :
    Option (Sys ν σ τ × Reply) :=
  match s.file t fd with
  | none => s.fail .EBADF
  | some (d, f) => if !allowed f then s.fail .EBADF else some (call d f)

/-- The answer to a read, and to a write. -/
def answerRead (r : List UInt8 × Sys ν σ τ) : Sys ν σ τ × Reply := (r.2, ⟨.ok r.1.length, r.1⟩)

def answerWrite (r : Nat × Sys ν σ τ) : Sys ν σ τ × Reply := (r.2, ⟨.ok r.1, []⟩)

def sysRead (fd len : Nat) : Option (Sys ν σ τ × Reply) :=
  s.onFile t fd (·.readable) fun d _ => answerRead (s.fileRead V d len)

def sysReadv (lens : List Nat) : Option (Sys ν σ τ × Reply) :=
  s.onFile t fd (·.readable) fun d _ => answerRead (readEach V d s ((lens.take 1024).map (min · (1024 * 1024))))

def sysPread64 (fd count offset : Nat) : Option (Sys ν σ τ × Reply) :=
  s.onFile t fd (·.readable) fun d _ => answerRead (s.fileReadAt V d offset count, s)

def sysWrite (bytes : List UInt8) : Option (Sys ν σ τ × Reply) :=
  s.onFile t fd (·.writable) fun d _ => answerWrite (s.fileWrite V d bytes)

def sysWritev (iovs : List (List UInt8)) : Option (Sys ν σ τ × Reply) :=
  if 1024 < iovs.length then s.fail .EINVAL
  else s.onFile t fd (·.writable) fun d _ => answerWrite (writeEach V d s iovs)

def sysPwrite64 (bytes : List UInt8) (offset : Nat) : Option (Sys ν σ τ × Reply) :=
  s.onFile t fd (·.writable) fun d _ => answerWrite (s.fileWriteAt V d offset bytes)

def sysFtruncate (fd len : Nat) : Option (Sys ν σ τ × Reply) :=
  s.onFile t fd (·.writable) fun _ f =>
    if f.fifo then (s, ⟨.error .EINVAL, []⟩)
    else
      let r := V.truncate f.dentry len s.disk
      ({ s with disk := r.2 }, ⟨if r.1 then .ok 0 else .error .EINVAL, []⟩)

def sysSendfile (outFd inFd count rounds : Nat) : Option (Sys ν σ τ × Reply) :=
  match s.file t outFd, s.file t inFd with
  | some (dOut, fOut), some (dIn, fIn) =>
    if !fOut.writable || !fIn.readable then s.fail .EBADF
    else if fOut.fifo || fIn.fifo then s.fail .ENOSYS
    else sendLoop V dIn dOut count rounds s 0 []
  | _, _ => s.fail .EBADF

def sysSplice (fdIn : Nat) (offIn : Option Nat) (fdOut : Nat) (offOut : Option Nat) (len rounds : Nat) :
    Option (Sys ν σ τ × Reply) :=
  if len = 0 then some (s, ⟨.ok 0, []⟩)
  else
    match s.file t fdIn, s.file t fdOut with
    | some (dIn, fIn), some (dOut, fOut) =>
      if !fIn.readable || !fOut.writable then s.fail .EBADF
      else if !fIn.fifo && !fOut.fifo then s.fail .EINVAL
      else if fIn.fifo && offIn.isSome || fOut.fifo && offOut.isSome then s.fail .EINVAL
      else spliceLoop V dIn dOut len rounds s offIn offOut 0 []
    | _, _ => s.fail .EBADF

/-! ## Mappings -/

/-- The pages of a range get what `g` says. -/
def setPages (start len : Nat) (g : Nat → Option Mapping) : Sys ν σ τ :=
  { s with pages := update s.pages t fun v => if start ≤ v ∧ v < start + len then g v else s.pages t v }

/-- Whether the file of a page, if it has one, can be written. -/
def backingWritable (m : Mapping) : Bool :=
  match m.backing with
  | none => true
  | some (d, _) => s.files[d]?.any fun f => f.writable

/-- The permission check of `sys_mmap`. -/
def mmapDenied (prot : MMapProt) (shared : Bool) (f : Desc ν) : Bool :=
  !f.readable || shared && prot.write && !f.writable

def sysMmap (start len : Nat) (prot : MMapProt) (shared fixed : Bool) (fd : Option Nat) (page : Nat) :
    Option (Sys ν σ τ × Reply) :=
  let file := fd.bind (s.file t)
  if fd.isSome && file.isNone then s.fail .EBADF
  else if len = 0 then s.fail .EINVAL
  else if file.any fun x => mmapDenied prot shared x.2 then s.fail .EACCES
  else if !fixed && (List.range' start len).any (fun v => (s.pages t v).isSome) then s.fail .EEXIST
  else
    some (s.setPages t start len fun v => some ⟨file.map fun x => (x.1, page + (v - start)), shared, prot, none⟩,
      ⟨.ok start, []⟩)

def sysMprotect (start len : Nat) (prot : MMapProt) : Option (Sys ν σ τ × Reply) :=
  if (List.range' start len).any (fun v => (s.pages t v).isNone) then s.fail .ENOMEM
  else if prot.write && (List.range' start len).any
      (fun v => (s.pages t v).any fun m => m.shared && !s.backingWritable m) then s.fail .EACCES
  else some (s.setPages t start len fun v => (s.pages t v).map fun m => { m with prot }, ⟨.ok 0, []⟩)

def sysMunmap (start len : Nat) : Option (Sys ν σ τ × Reply) :=
  some (s.setPages t start len fun _ => none, ⟨.ok 0, []⟩)

def pageSize : Nat := 4096

/-- The contents of a page of a file. -/
def filePage (d page : Nat) : List UInt8 := s.fileReadAt V d (page * pageSize) pageSize

def load (vpn : Nat) : Option (Sys ν σ τ × Reply) :=
  match s.pages t vpn with
  | none => s.fail .fault
  | some m =>
    if !m.prot.read then s.fail .fault
    else
      match m.copy, m.backing with
      | some bytes, _ => some (s, ⟨.ok 0, bytes⟩)
      | none, none => some (s, ⟨.ok 0, []⟩)
      | none, some (d, page) => some (s, ⟨.ok 0, s.filePage V d page⟩)

/-- A store to a private page goes to a copy of it. -/
def store (vpn offset : Nat) (byte : UInt8) : Option (Sys ν σ τ × Reply) :=
  match s.pages t vpn with
  | none => s.fail .fault
  | some m =>
    if !m.prot.write then s.fail .fault
    else
      match m.backing with
      | none => some (s, ⟨.ok 0, []⟩)
      | some (d, page) =>
        if m.shared then some ((s.fileWriteAt V d (page * pageSize + offset) [byte]).2, ⟨.ok 0, []⟩)
        else
          let copy := (m.copy.getD (s.filePage V d page)).set offset byte
          some (s.setPages t vpn 1 fun _ => some { m with copy := some copy }, ⟨.ok 0, []⟩)

/-! ## `openat` -/

variable (T : Namespace ν)

/-- Where the lookup of the path starts. -/
def startDentry (t : τ) (dirfd : Int) (path : Path) : Option ν :=
  if isAbsolute path then some T.root
  else if dirfd = -100 then some (s.proc t).pwd
  else if dirfd < 0 then none
  else
    match s.file t dirfd.toNat with
    | none => none
    | some (_, f) => if f.fifo then none else some f.dentry

/-- The lowest descriptor that is free. -/
def allocFd : Option Nat := (List.range (s.proc t).nofile).find? fun fd => (s.fds t fd).isNone

/-- The descriptor is entered in the table. -/
def setFd (file : File ν) : Option (Sys ν σ τ × Reply) :=
  match s.allocFd t with
  | none => s.fail .EMFILE
  | some fd =>
    some ({ s with
      files := s.files ++ [⟨file, 0⟩]
      fds := update s.fds t (update (s.fds t) fd (some s.files.length)) }, ⟨.ok fd, []⟩)

/-- `open_fifo_file`. -/
def openFifoFile (inode : OSInode ν) (readWrite : Bool × Bool) : File ν where
  readable := readWrite.1 || !readWrite.2
  writable := readWrite.2 || !readWrite.1
  append := false
  dentry := inode.dentry
  fifo := true

/-- A regular file that is opened for writing is truncated if that is asked for. -/
def truncateOnOpen (dentry : ν) (flags : UInt32) : Bool × σ :=
  if T.isRegular dentry && (modeReadWrite flags).2 &&
      OpenFlags.contains (OpenFlags.fromBitsTruncate flags) OpenFlags.TRUNC then V.truncate dentry 0 s.disk
  else (true, s.disk)

/-- `path` is what `normalize_leading_dot_path` has made of the caller's path. -/
def sysOpenat (t : τ) (dirfd : Int) (path : Path) (flags mode : UInt32) : Option (Sys ν σ τ × Reply) :=
  match s.startDentry T t dirfd path with
  | none => s.fail .EBADF
  | some start =>
    if flags &&& tmpfileFlag ≠ 0 then
      match T.findTree start path true with
      | .error _ => s.fail .ENOENT
      | .ok target =>
        if !T.isDir target then s.fail .ENOTDIR
        else s.setFd t ⟨⟨(modeReadWrite flags).1, (modeReadWrite flags).2, false, T.anonymous target⟩, false⟩
    else
      let openFlags := OpenFlags.fromBitsTruncate flags
      match T.openFile start path openFlags (mode &&& ~~~(s.proc t).umask) with
      | none => none
      | some none => s.fail .ENOENT
      | some (some inode) =>
        if OpenFlags.shouldBeDirectory openFlags && !T.isDir inode.dentry then s.fail .ENOTDIR
        else if T.isDir inode.dentry && (modeReadWrite flags).2 then s.fail .EISDIR
        else
          let truncated := s.truncateOnOpen V T inode.dentry flags
          let s := { s with disk := truncated.2 }
          if !truncated.1 then s.fail .EIo
          else s.setFd t (if T.isFifo inode.dentry then openFifoFile inode (modeReadWrite flags) else ⟨inode, false⟩)

/-- `none` if the kernel panics, or if the call does not return in the rounds that are given. -/
def step (t : τ) : Cmd τ → Option (Sys ν σ τ × Reply)
  | .openat dirfd path flags mode => s.sysOpenat V T t dirfd path flags mode
  | .read fd len => s.sysRead V t fd len
  | .readv fd lens => s.sysReadv V t fd lens
  | .pread64 fd count offset => s.sysPread64 V t fd count offset
  | .write fd bytes => s.sysWrite V t fd bytes
  | .writev fd iovs => s.sysWritev V t fd iovs
  | .pwrite64 fd bytes offset => s.sysPwrite64 V t fd bytes offset
  | .ftruncate fd len => s.sysFtruncate V t fd len
  | .sendfile outFd inFd count rounds => s.sysSendfile V t outFd inFd count rounds
  | .splice fdIn offIn fdOut offOut len rounds => s.sysSplice V t fdIn offIn fdOut offOut len rounds
  | .mmap start len prot shared fixed fd page => s.sysMmap t start len prot shared fixed fd page
  | .mprotect start len prot => s.sysMprotect t start len prot
  | .munmap start len => s.sysMunmap t start len
  | .load vpn => s.load V t vpn
  | .store vpn offset byte => s.store V t vpn offset byte
  | .dup fd newFd =>
    match s.fds t fd with
    | none => s.fail .EBADF
    | some d => some ({ s with fds := update s.fds t (update (s.fds t) newFd (some d)) }, ⟨.ok newFd, []⟩)
  | .close fd => some ({ s with fds := update s.fds t (update (s.fds t) fd none) }, ⟨.ok 0, []⟩)
  | .fork child =>
    some ({ s with
      fds := update s.fds child (s.fds t)
      pages := update s.pages child (s.pages t)
      proc := update s.proc child (s.proc t) }, ⟨.ok 0, []⟩)

def Step (V : Vfs ν σ) (s s' : Sys ν σ τ) : Prop := ∃ t cmd reply, s.step V T t cmd = some (s', reply)

end Sys

end ShellCore.Fs
