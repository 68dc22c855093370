import ShellCore.Fs.Descriptor

/-!
# What a descriptor lets through

The checks of the calls keep to what the file object says. What it says is the access mode only if no other flag is set, or
for a named pipe or a file without a name: otherwise a file that is opened for reading can be written.
-/

namespace ShellCore.Fs

open Function Relation OpenFlags Option Namespace Dentries

open Mm (MMapProt)

variable {ν σ τ : Type} [DecidableEq τ] {T : Namespace ν} {V : Vfs ν σ} {call : Nat → Desc ν → Sys ν σ τ × Reply}
  {f : Desc ν} {allowed : Desc ν → Bool} {fd : Nat} {offIn offOut : Option Nat}

namespace Sys

/-- The open file that a command writes to. -/
def writesTo (s : Sys ν σ τ) (t : τ) : Cmd τ → Option Nat
  | .write fd _ | .writev fd _ | .pwrite64 fd _ _ | .ftruncate fd _ => s.fds t fd
  | .sendfile outFd _ _ _ => s.fds t outFd
  | .splice _ _ fdOut _ _ _ => s.fds t fdOut
  | .store vpn _ _ => (s.pages t vpn).bind fun m => if m.shared then m.backing.map Prod.fst else none
  | _ => none

/-- The open file that a command reads from. -/
def readsFrom (s : Sys ν σ τ) (t : τ) : Cmd τ → Option Nat
  | .read fd _ | .readv fd _ | .pread64 fd _ _ => s.fds t fd
  | .sendfile _ inFd _ _ => s.fds t inFd
  | .splice fdIn _ _ _ _ _ => s.fds t fdIn
  | .load vpn => (s.pages t vpn).bind fun m => m.backing.map Prod.fst
  | _ => none

/-- No command changes a file through this open file. -/
def Frozen (T : Namespace ν) (V : Vfs ν σ) (s : Sys ν σ τ) (d : Nat) : Prop :=
  ∀ t cmd s' reply, s.writesTo t cmd = some d → s.step V T t cmd = some (s', reply) → s'.disk = s.disk

/-- No command gets data through this open file. -/
def Mute (T : Namespace ν) (V : Vfs ν σ) (s : Sys ν σ τ) (d : Nat) : Prop :=
  ∀ t cmd s' reply, s.readsFrom t cmd = some d → s.step V T t cmd = some (s', reply) → reply.data = []

/-- The open file lets through what the flags ask for, from here on, and is no symbolic link that was to be followed. -/
structure Grants (T : Namespace ν) (V : Vfs ν σ) (s : Sys ν σ τ) (d : Nat) (flags : UInt32) : Prop where
  readOnly : accessMode flags = 0 → ∀ s', ReflTransGen (Step T V) s s' → s'.Frozen T V d
  writeOnly : accessMode flags = 1 → ∀ s', ReflTransGen (Step T V) s s' → s'.Mute T V d
  link : isNofollow flags = false → ∀ f, s.files[d]? = some f → T.isSymlink f.dentry = false

/-! ## Open files stay what they are -/

/-- The open files are kept, except for their offsets. -/
def Keeps (s s' : Sys ν σ τ) : Prop := ∀ (d : Nat) (f : Desc ν), s.files[d]? = some f → ∃ f', s'.files[d]? = some f' ∧ f'.toFile = f.toFile

/-- A transfer: the descriptors and the mappings are not changed. -/
structure Transfers (s s' : Sys ν σ τ) : Prop where
  keeps : s.Keeps s'
  pages : s'.pages = s.pages

variable {s s' s₁ : Sys ν σ τ} {t : τ} {cmd : Cmd τ} {reply : Reply} {d : Nat}

section

omit [DecidableEq τ]

theorem Keeps.refl (s : Sys ν σ τ) : s.Keeps s := fun _ f h => ⟨f, h, rfl⟩

theorem Keeps.trans (h : s.Keeps s₁) (h' : s₁.Keeps s') : s.Keeps s' := by
  intro d f hf
  obtain ⟨f₁, hf₁, heq₁⟩ := h d f hf
  obtain ⟨f₂, hf₂, heq₂⟩ := h' d f₁ hf₁
  exact ⟨f₂, hf₂, heq₂.trans heq₁⟩

theorem Transfers.refl (s : Sys ν σ τ) : s.Transfers s := ⟨.refl s, rfl⟩

theorem Transfers.trans (h : s.Transfers s₁) (h' : s₁.Transfers s') : s.Transfers s' :=
  ⟨h.keeps.trans h'.keeps, h'.pages.trans h.pages⟩

theorem transfers_setOffset (hf : s.files[d]? = some f) (offset : Nat) (disk : σ) :
    s.Transfers { s.setOffset d f offset with disk } := by
  refine ⟨fun i g hg => ?_, rfl⟩
  by_cases hi : d = i
  · subst hi
    cases hf.symm.trans hg
    have hlt := (List.getElem?_eq_some_iff.1 hf).1
    exact ⟨{ f with offset }, by simp [setOffset, hlt], rfl⟩
  · exact ⟨g, by simpa [setOffset, hi] using hg, rfl⟩

variable (s)

theorem transfers_fileRead (d len : Nat) : s.Transfers (s.fileRead V d len).2 := by
  unfold fileRead
  split
  · exact .refl s
  case h_2 f hf => exact transfers_setOffset hf ..

theorem transfers_fileWrite (d : Nat) (bytes : List UInt8) : s.Transfers (s.fileWrite V d bytes).2 := by
  unfold fileWrite
  split
  · exact .refl s
  case h_2 f hf => exact transfers_setOffset hf ..

theorem transfers_disk (disk : σ) : s.Transfers { s with disk } := ⟨fun _ f h => ⟨f, h, rfl⟩, rfl⟩

theorem transfers_fileWriteAt (d offset : Nat) (bytes : List UInt8) :
    s.Transfers (s.fileWriteAt V d offset bytes).2 := by
  unfold fileWriteAt
  split
  · exact .refl s
  · exact transfers_disk ..

theorem transfers_readEach (d : Nat) (s : Sys ν σ τ) (lens : List Nat) : s.Transfers (readEach V d s lens).2 := by
  induction lens generalizing s with
  | nil => exact .refl s
  | cons len lens ih =>
    rw [readEach]
    split
    · exact ih s
    · have hread := transfers_fileRead (V := V) s d len
      dsimp only
      split
      · exact hread
      · exact hread.trans (ih _)

theorem transfers_writeSome (d : Nat) (offset : Option Nat) (bytes : List UInt8) :
    s.Transfers (s.writeSome V d offset bytes).2 := by
  cases offset with
  | none => exact transfers_fileWrite ..
  | some offset => exact transfers_fileWriteAt ..

theorem transfers_readSome (d : Nat) (offset : Option Nat) (len : Nat) :
    s.Transfers (s.readSome V d offset len).2 := by
  cases offset with
  | none => exact transfers_fileRead ..
  | some offset => exact .refl s

variable {s}

theorem transfers_writeAll (d fuel : Nat) (offset : Option Nat) (s : Sys ν σ τ) (bytes : List UInt8) :
    s.Transfers (writeAll V d fuel offset s bytes).2 := by
  induction fuel generalizing s bytes offset with
  | zero => exact .refl s
  | succ fuel ih =>
    have hwrite := transfers_writeSome (V := V) s d offset bytes
    rw [writeAll]
    split
    · exact .refl s
    · dsimp only
      split
      · exact hwrite
      · exact hwrite.trans (ih _ _ _)

theorem transfers_writeEach (d : Nat) (s : Sys ν σ τ) (iovs : List (List UInt8)) :
    s.Transfers (writeEach V d s iovs).2 := by
  induction iovs generalizing s with
  | nil => exact .refl s
  | cons bytes iovs ih =>
    rw [writeEach]
    have hwrite := transfers_writeAll (V := V) d bytes.length none s bytes
    dsimp only
    split
    · exact hwrite
    · exact hwrite.trans (ih _)

theorem transfers_sendLoop {dIn dOut count rounds total data}
    (h : sendLoop V dIn dOut count rounds s total data = some (s', reply)) : s.Transfers s' := by
  induction rounds generalizing s total data with
  | zero => cases h
  | succ rounds ih =>
    have hread := transfers_fileRead (V := V) s dIn (min (count - total) sendfileBuffer)
    rw [sendLoop] at h
    split at h
    · obtain ⟨rfl, -⟩ := Prod.mk.inj (some.inj h)
      exact .refl s
    · dsimp only at h
      generalize s.fileRead V dIn (min (count - total) sendfileBuffer) = r at h hread
      split at h
      · cases h
        exact hread
      · have hwrite := hread.trans (transfers_writeAll (V := V) dOut r.1.length none r.2 r.1)
        split at h
        · cases h
          exact hwrite
        · exact hwrite.trans (ih h)

theorem transfers_spliceLoop {dIn dOut len rounds total data}
    (h : spliceLoop V dIn dOut len rounds s offIn offOut total data = some (s', reply)) : s.Transfers s' := by
  induction rounds generalizing s offIn offOut total data with
  | zero => cases h
  | succ rounds ih =>
    have hread := transfers_readSome (V := V) s dIn offIn (min (len - total) spliceChunk)
    rw [spliceLoop] at h
    split at h
    · obtain ⟨rfl, -⟩ := Prod.mk.inj (some.inj h)
      exact .refl s
    · dsimp only at h
      generalize s.readSome V dIn offIn (min (len - total) spliceChunk) = r at h hread
      split at h
      · cases h
        exact hread
      · have hwrite := hread.trans (transfers_writeAll (V := V) dOut r.1.length offOut r.2 r.1)
        split at h
        · cases h
          exact hwrite
        · exact hwrite.trans (ih h)

theorem eq_of_fail {e} (h : s.fail e = some (s', reply)) : s' = s ∧ reply.data = [] := by
  cases h
  exact ⟨rfl, rfl⟩

theorem transfers_fail {e} (h : s.fail e = some (s', reply)) : s.Transfers s' := by
  rw [(eq_of_fail h).1]
  exact .refl s

theorem file_eq_some : s.file t fd = some (d, f) ↔ s.fds t fd = some d ∧ s.files[d]? = some f := by
  simp only [file, bind_eq_some_iff, map_eq_some_iff, Prod.mk.injEq]
  constructor
  · rintro ⟨d', hd, f', hf, rfl, rfl⟩
    exact ⟨hd, hf⟩
  · rintro ⟨hd, hf⟩
    exact ⟨d, hd, f, hf, rfl, rfl⟩

/-- A call on one descriptor fails, or its file lets it through. -/
theorem onFile_spec (h : s.onFile t fd allowed call = some (s', reply)) : (s' = s ∧ reply.data = []) ∨
      ∃ d f, s.fds t fd = some d ∧ s.files[d]? = some f ∧ allowed f = true ∧ call d f = (s', reply) := by
  unfold onFile at h
  split at h
  · exact .inl (eq_of_fail h)
  case h_2 d f hfile =>
    obtain ⟨hfd, hf⟩ := file_eq_some.1 hfile
    split at h
    · exact .inl (eq_of_fail h)
    case isFalse hallowed => exact .inr ⟨d, f, hfd, hf, by simpa using hallowed, some.inj h⟩

theorem transfers_onFile
    (hcall : ∀ d f, s.Transfers (call d f).1) (h : s.onFile t fd allowed call = some (s', reply)) : s.Transfers s' := by
  rcases onFile_spec h with ⟨rfl, -⟩ | ⟨d, f, -, -, -, heq⟩
  · exact .refl s'
  · have := hcall d f
    rwa [heq] at this

/-- The file does not allow the call. -/
theorem onFile_refused (hfd : s.fds t fd = some d) (hf : s.files[d]? = some f) (hallowed : allowed f = false)
    (h : s.onFile t fd allowed call = some (s', reply)) : s' = s ∧ reply.data = [] := by
  rcases onFile_spec h with h | ⟨d', f', hfd', hf', hallowed', -⟩
  · exact h
  · cases hfd.symm.trans hfd'
    cases hf.symm.trans hf'
    cases hallowed.symm.trans hallowed'

theorem transfers_ftruncate {fd len} (h : s.sysFtruncate V t fd len = some (s', reply)) : s.Transfers s' := by
  refine transfers_onFile (fun d f => ?_) h
  split
  · exact .refl s
  · exact transfers_disk ..

/-- `sendfile` fails, or both its files let it through. -/
theorem sysSendfile_spec {outFd inFd count rounds} (h : s.sysSendfile V t outFd inFd count rounds = some (s', reply)) :
    (s' = s ∧ reply.data = []) ∨
      ∃ dOut fOut dIn fIn, s.file t outFd = some (dOut, fOut) ∧ s.file t inFd = some (dIn, fIn) ∧ fOut.writable = true ∧
        fIn.readable = true ∧ sendLoop V dIn dOut count rounds s 0 [] = some (s', reply) := by
  unfold sysSendfile at h
  split at h
  case h_1 dOut fOut dIn fIn hout hin =>
    split_ifs at h with hbad hfifo
    · exact .inl (eq_of_fail h)
    · exact .inl (eq_of_fail h)
    · simp only [Bool.or_eq_true, Bool.not_eq_true', not_or, Bool.not_eq_false] at hbad
      exact .inr ⟨dOut, fOut, dIn, fIn, hout, hin, hbad.1, hbad.2, h⟩
  case h_2 => exact .inl (eq_of_fail h)

/-- `splice` fails or has nothing to do, or both its files let it through. -/
theorem sysSplice_spec {fdIn fdOut len rounds}
    (h : s.sysSplice V t fdIn offIn fdOut offOut len rounds = some (s', reply)) :
    (s' = s ∧ reply.data = []) ∨
      ∃ dIn fIn dOut fOut, s.file t fdIn = some (dIn, fIn) ∧ s.file t fdOut = some (dOut, fOut) ∧ fIn.readable = true ∧
        fOut.writable = true ∧ spliceLoop V dIn dOut len rounds s offIn offOut 0 [] = some (s', reply) := by
  unfold sysSplice at h
  split at h
  · cases h
    exact .inl ⟨rfl, rfl⟩
  · split at h
    case h_1 dIn fIn dOut fOut hin hout =>
      split_ifs at h with hbad hpipe hoffset
      · exact .inl (eq_of_fail h)
      · exact .inl (eq_of_fail h)
      · exact .inl (eq_of_fail h)
      · simp only [Bool.or_eq_true, Bool.not_eq_true', not_or, Bool.not_eq_false] at hbad
        exact .inr ⟨dIn, fIn, dOut, fOut, hin, hout, hbad.1, hbad.2, h⟩
    case h_2 => exact .inl (eq_of_fail h)

/-! ## Mappings -/

/-- A mapping shows a file that can be read, and is writable and shared only if the file can be written. -/
def MapsOk (s : Sys ν σ τ) : Prop :=
  ∀ t v m d page, s.pages t v = some m → m.backing = some (d, page) →
    ∃ f, s.files[d]? = some f ∧ f.readable = true ∧ (m.shared = true → m.prot.write = true → f.writable = true)

theorem MapsOk.keeps (h : s.MapsOk) (hk : s.Keeps s') (hpages : ∀ t v m, s'.pages t v = some m → ∃ t' v', s.pages t' v' = some m) :
    s'.MapsOk := by
  intro t v m d page hm hback
  obtain ⟨t', v', hm'⟩ := hpages t v m hm
  obtain ⟨f, hf, hread, hwrite⟩ := h t' v' m d page hm' hback
  obtain ⟨f', hf', heq⟩ := hk d f hf
  refine ⟨f', hf', ?_, ?_⟩
  · rw [heq]
    exact hread
  · rw [heq]
    exact hwrite

theorem MapsOk.transfers (h : s.MapsOk) (ht : s.Transfers s') : s'.MapsOk :=
  h.keeps ht.keeps fun t v m hm => ⟨t, v, by rwa [← ht.pages]⟩

end

theorem MapsOk.setPages (h : s.MapsOk) {start len} {g : Nat → Option Mapping}
    (hg : ∀ v m d page, start ≤ v → v < start + len → g v = some m → m.backing = some (d, page) →
      ∃ f, s.files[d]? = some f ∧ f.readable = true ∧ (m.shared = true → m.prot.write = true → f.writable = true)) :
    (s.setPages t start len g).MapsOk := by
  intro u v m d page hm hback
  simp only [Sys.setPages] at hm
  revert hm
  refine forall_update u (fun hm => ?_) fun u hm => h u v m d page hm hback
  dsimp only at hm
  split at hm
  case isTrue hv => exact hg v m d page hv.1 hv.2 hm hback
  case isFalse => exact h t v m d page hm hback

theorem MapsOk.mmap (h : s.MapsOk) {start len page prot shared fixed fd}
    (hstep : s.sysMmap t start len prot shared fixed fd page = some (s', reply)) : s.Keeps s' ∧ s'.MapsOk := by
  unfold sysMmap at hstep
  dsimp only at hstep
  split_ifs at hstep with hbad hlen hdenied hconflict
  iterate 4
    · rw [(eq_of_fail hstep).1]
      exact ⟨.refl s, h⟩
  · cases hstep
    refine ⟨.refl s, h.setPages fun v m d page' _ _ hm hback => ?_⟩
    cases hm
    obtain ⟨⟨d', f⟩, hfile, heq⟩ := map_eq_some_iff.1 hback
    obtain ⟨rfl, -⟩ := Prod.mk.inj heq
    obtain ⟨fd, -, hfd⟩ := bind_eq_some_iff.1 hfile
    have hallowed : mmapDenied prot shared f = false := by
      rw [hfile] at hdenied
      simpa using hdenied
    simp only [mmapDenied, Bool.or_eq_false_iff, Bool.not_eq_false'] at hallowed
    refine ⟨f, (file_eq_some.1 hfd).2, hallowed.1, fun hshared hwrite => ?_⟩
    have hw := hallowed.2
    dsimp only at hshared hwrite
    simpa [hshared, hwrite] using hw

theorem MapsOk.mprotect (h : s.MapsOk) {start len prot}
    (hstep : s.sysMprotect t start len prot = some (s', reply)) : s.Keeps s' ∧ s'.MapsOk := by
  unfold sysMprotect at hstep
  split_ifs at hstep with hgap hdenied
  iterate 2
    · rw [(eq_of_fail hstep).1]
      exact ⟨.refl s, h⟩
  · cases hstep
    refine ⟨.refl s, h.setPages fun v m d page hlo hhi hm hback => ?_⟩
    obtain ⟨m₀, hm₀, rfl⟩ := map_eq_some_iff.1 hm
    obtain ⟨f, hf, hread, -⟩ := h t v m₀ d page hm₀ hback
    refine ⟨f, hf, hread, fun hshared hwrite => ?_⟩
    -- the page is one of those that have been checked
    by_contra hw
    apply hdenied
    refine Bool.and_eq_true_iff.2 ⟨hwrite, List.any_eq_true.2 ⟨v, List.mem_range'_1.2 ⟨hlo, hhi⟩, ?_⟩⟩
    have hback' : m₀.backing = some (d, page) := hback
    have hshared' : m₀.shared = true := hshared
    have hw' : f.writable = false := Bool.eq_false_iff.2 hw
    simp [hm₀, hshared', backingWritable, hback', hf, hw']

theorem MapsOk.store (h : s.MapsOk) {vpn offset byte}
    (hstep : s.store V t vpn offset byte = some (s', reply)) : s.Keeps s' ∧ s'.MapsOk := by
  unfold Sys.store at hstep
  split at hstep
  · rw [(eq_of_fail hstep).1]
    exact ⟨.refl s, h⟩
  case h_2 m hm =>
    split at hstep
    · rw [(eq_of_fail hstep).1]
      exact ⟨.refl s, h⟩
    · split at hstep
      · cases hstep
        exact ⟨.refl s, h⟩
      case h_2 d page hback =>
        split at hstep
        · cases hstep
          have ht := transfers_fileWriteAt (V := V) s d (page * pageSize + offset) [byte]
          exact ⟨ht.keeps, h.transfers ht⟩
        · cases hstep
          refine ⟨.refl s, h.setPages fun v m' d' page' _ _ hm' hback' => ?_⟩
          cases hm'
          exact h t vpn m d' page' hm hback'

/-! ## `openat` -/

/-- What `openat` enters in the table: the file, with everything else left as it was but the disk. -/
structure Entered (s s' : Sys ν σ τ) (t : τ) (fd : Nat) (file : File ν) : Prop where
  files : s'.files = s.files ++ [⟨file, 0⟩]
  fds : s'.fds t fd = some s.files.length
  pages : s'.pages = s.pages

theorem setFd_spec {file} (h : s.setFd t file = some (s', reply)) :
    (s' = s ∧ reply = ⟨.error .EMFILE, []⟩) ∨ ∃ fd, reply = ⟨.ok fd, []⟩ ∧ s.Entered s' t fd file ∧ s'.disk = s.disk := by
  unfold setFd at h
  split at h
  · cases h
    exact .inl ⟨rfl, rfl⟩
  case h_2 fd _ =>
    cases h
    exact .inr ⟨fd, rfl, ⟨rfl, by simp, rfl⟩, rfl⟩

/-- The file that `openat` makes. -/
def openedFile (T : Namespace ν) (start : ν) (path : Path) (flags mode : UInt32) : Option (File ν) :=
  if flags &&& tmpfileFlag ≠ 0 then
    match T.findTree start path true with
    | .error _ => none
    | .ok target => some ⟨⟨(modeReadWrite flags).1, (modeReadWrite flags).2, false, T.anonymous target⟩, false⟩
  else
    match T.openFile start path (fromBitsTruncate flags) mode with
    | some (some inode) =>
      some (if T.isFifo inode.dentry then openFifoFile inode (modeReadWrite flags) else ⟨inode, false⟩)
    | _ => none

theorem sysOpenat_spec {dirfd path flags mode}
    (h : s.sysOpenat V T t dirfd path flags mode = some (s', reply)) :
    (s.Transfers s' ∧ ∃ e, reply = ⟨.error e, []⟩) ∨
      ∃ start file fd, s.startDentry T t dirfd path = some start ∧
        openedFile T start path flags (mode &&& ~~~(s.proc t).umask) = some file ∧ reply = ⟨.ok fd, []⟩ ∧
        s.Entered s' t fd file := by
  have hfail : ∀ {s₁ : Sys ν σ τ} {e : Errno}, s.Transfers s₁ → s₁.fail e = some (s', reply) →
      s.Transfers s' ∧ ∃ e, reply = ⟨.error e, []⟩ := by
    intro s₁ e ht hf
    cases hf
    exact ⟨ht, e, rfl⟩
  have hset : ∀ (disk : σ) {file : File ν}, ({ s with disk } : Sys ν σ τ).setFd t file = some (s', reply) →
      (s.Transfers s' ∧ ∃ e, reply = ⟨.error e, []⟩) ∨ ∃ fd, reply = ⟨.ok fd, []⟩ ∧ s.Entered s' t fd file := by
    intro disk file hf
    rcases setFd_spec hf with ⟨rfl, rfl⟩ | ⟨fd, hreply, hentered, -⟩
    · exact .inl ⟨transfers_disk s disk, _, rfl⟩
    · exact .inr ⟨fd, hreply, hentered.files, hentered.fds, hentered.pages⟩
  unfold sysOpenat at h
  split at h
  · exact .inl (hfail (.refl s) h)
  case h_2 start hstart =>
    split at h
    case isTrue htmp =>
      split at h
      · exact .inl (hfail (.refl s) h)
      case h_2 target htarget =>
        split at h
        · exact .inl (hfail (.refl s) h)
        · refine (hset s.disk h).imp_right fun ⟨fd, hreply, hentered⟩ => ⟨start, _, fd, hstart, ?_, hreply, hentered⟩
          simp [openedFile, htmp, htarget]
    case isFalse htmp =>
      dsimp only at h
      split at h
      · cases h
      · exact .inl (hfail (.refl s) h)
      case h_3 inode hinode =>
        split at h
        · exact .inl (hfail (.refl s) h)
        · split at h
          · exact .inl (hfail (.refl s) h)
          · split at h
            · exact .inl (hfail (transfers_disk s _) h)
            · refine (hset _ h).imp_right fun ⟨fd, hreply, hentered⟩ => ⟨start, _, fd, hstart, ?_, hreply, hentered⟩
              simp only [openedFile, htmp, hinode, if_false]

omit [DecidableEq τ] in
theorem Entered.keeps {file} (h : s.Entered s' t fd file) : s.Keeps s' := by
  intro d f hf
  refine ⟨f, ?_, rfl⟩
  rw [h.files, List.getElem?_append_left (List.getElem?_eq_some_iff.1 hf).1, hf]

/-! ## Whole runs -/

/-- A step keeps the open files, and the mappings keep to what they allow. -/
theorem MapsOk.step (h : s.MapsOk) (hstep : s.step V T t cmd = some (s', reply)) : s.Keeps s' ∧ s'.MapsOk := by
  have htransfers : s.Transfers s' → s.Keeps s' ∧ s'.MapsOk := fun ht => ⟨ht.keeps, h.transfers ht⟩
  cases cmd with
  | openat dirfd path flags mode =>
    rcases sysOpenat_spec hstep with ⟨ht, -⟩ | ⟨start, file, fd, -, -, -, hentered⟩
    · exact htransfers ht
    · refine ⟨hentered.keeps, h.keeps hentered.keeps fun u v m hm => ⟨u, v, ?_⟩⟩
      rwa [← hentered.pages]
  | read fd len => exact htransfers (transfers_onFile (fun d _ => transfers_fileRead s d len) hstep)
  | readv fd lens => exact htransfers (transfers_onFile (fun d _ => transfers_readEach d s _) hstep)
  | pread64 fd count offset => exact htransfers (transfers_onFile (fun _ _ => .refl s) hstep)
  | write fd bytes => exact htransfers (transfers_onFile (fun d _ => transfers_fileWrite s d bytes) hstep)
  | writev fd iovs =>
    simp only [Sys.step, sysWritev] at hstep
    split at hstep
    · exact htransfers (transfers_fail hstep)
    · exact htransfers (transfers_onFile (fun d _ => transfers_writeEach d s iovs) hstep)
  | pwrite64 fd bytes offset => exact htransfers (transfers_onFile (fun d _ => transfers_fileWriteAt s d offset bytes) hstep)
  | ftruncate fd len => exact htransfers (transfers_ftruncate hstep)
  | sendfile outFd inFd count rounds =>
    rcases sysSendfile_spec hstep with ⟨rfl, -⟩ | ⟨_, _, _, _, -, -, -, -, hloop⟩
    · exact htransfers (.refl s')
    · exact htransfers (transfers_sendLoop hloop)
  | splice fdIn offIn fdOut offOut len rounds =>
    rcases sysSplice_spec hstep with ⟨rfl, -⟩ | ⟨_, _, _, _, -, -, -, -, hloop⟩
    · exact htransfers (.refl s')
    · exact htransfers (transfers_spliceLoop hloop)
  | mmap start len prot shared fixed fd page => exact h.mmap hstep
  | mprotect start len prot => exact h.mprotect hstep
  | munmap start len =>
    cases hstep
    exact ⟨.refl s, h.setPages nofun⟩
  | load vpn =>
    simp only [Sys.step, Sys.load] at hstep
    split at hstep
    · exact htransfers (transfers_fail hstep)
    · split at hstep
      · exact htransfers (transfers_fail hstep)
      · split at hstep <;>
        · cases hstep
          exact htransfers (.refl s)
  | store vpn offset byte => exact h.store hstep
  | dup fd newFd =>
    simp only [Sys.step] at hstep
    split at hstep
    · exact htransfers (transfers_fail hstep)
    · cases hstep
      exact ⟨.refl s, h⟩
  | close fd =>
    cases hstep
    exact ⟨.refl s, h⟩
  | fork child =>
    cases hstep
    refine ⟨.refl s, h.keeps (.refl s) fun u v m hm => ?_⟩
    revert hm
    dsimp only
    exact forall_update u (fun hm => ⟨t, v, hm⟩) fun u hm => ⟨u, v, hm⟩

omit [DecidableEq τ] in
theorem mapsOk_init (proc : τ → ProcInfo ν) (disk : σ) : (init proc disk : Sys ν σ τ).MapsOk :=
  nofun

/-- A whole run. -/
theorem MapsOk.steps (h : s.MapsOk) (hr : ReflTransGen (Step T V) s s') : s.Keeps s' ∧ s'.MapsOk := by
  induction hr with
  | refl => exact ⟨.refl s, h⟩
  | tail _ hstep ih =>
    obtain ⟨t, cmd, reply, hstep⟩ := hstep
    obtain ⟨hk, hm⟩ := ih.2.step hstep
    exact ⟨ih.1.trans hk, hm⟩

/-! ## What the file object says -/

omit [DecidableEq τ] in
theorem eq_of_fds {fd d' f f'} (hfd : s.fds t fd = some d) (hf : s.files[d]? = some f)
    (hfile : s.file t fd = some (d', f')) : f' = f := by
  obtain ⟨hfd', hf'⟩ := file_eq_some.1 hfile
  cases hfd.symm.trans hfd'
  rw [hf] at hf'
  exact (some.inj hf').symm

/-- Nothing is changed through a file that cannot be written. -/
theorem MapsOk.frozen (h : s.MapsOk) (hf : s.files[d]? = some f) (hw : f.writable = false) : s.Frozen T V d := by
  intro t cmd s' reply hto hstep
  cases cmd with
  | write fd bytes | pwrite64 fd bytes offset | ftruncate fd len => rw [(onFile_refused hto hf hw hstep).1]
  | writev fd iovs =>
    simp only [Sys.step, sysWritev] at hstep
    split at hstep
    · rw [(eq_of_fail hstep).1]
    · rw [(onFile_refused hto hf hw hstep).1]
  | sendfile outFd inFd count rounds =>
    rcases sysSendfile_spec hstep with ⟨rfl, -⟩ | ⟨dOut, fOut, _, _, hout, -, hwritable, -⟩
    · rfl
    · rw [eq_of_fds hto hf hout, hw] at hwritable
      cases hwritable
  | splice fdIn offIn fdOut offOut len rounds =>
    rcases sysSplice_spec hstep with ⟨rfl, -⟩ | ⟨_, _, dOut, fOut, -, hout, -, hwritable, -⟩
    · rfl
    · rw [eq_of_fds hto hf hout, hw] at hwritable
      cases hwritable
  | store vpn offset byte =>
    obtain ⟨m, hm, hto⟩ := bind_eq_some_iff.1 hto
    obtain ⟨hshared, hto⟩ := ite_none_right_eq_some.1 hto
    obtain ⟨⟨d', page⟩, hback, rfl⟩ := map_eq_some_iff.1 hto
    obtain ⟨f', hf', -, hallowed⟩ := h t vpn m d' page hm hback
    cases hf.symm.trans hf'
    have hprot : m.prot.write = false := by
      by_contra hp
      have := hallowed hshared (Bool.eq_true_of_not_eq_false hp)
      cases hw.symm.trans this
    simp only [Sys.step, Sys.store, hm, hprot, Bool.not_false, if_true] at hstep
    rw [(eq_of_fail hstep).1]
  | _ => cases hto

/-- Nothing is read through a file that cannot be read. -/
theorem MapsOk.mute (h : s.MapsOk) (hf : s.files[d]? = some f) (hr : f.readable = false) : s.Mute T V d := by
  intro t cmd s' reply hfrom hstep
  cases cmd with
  | read fd len | readv fd lens | pread64 fd count offset => exact (onFile_refused hfrom hf hr hstep).2
  | sendfile outFd inFd count rounds =>
    rcases sysSendfile_spec hstep with ⟨-, hdata⟩ | ⟨_, _, dIn, fIn, -, hin, -, hreadable, -⟩
    · exact hdata
    · rw [eq_of_fds hfrom hf hin, hr] at hreadable
      cases hreadable
  | splice fdIn offIn fdOut offOut len rounds =>
    rcases sysSplice_spec hstep with ⟨-, hdata⟩ | ⟨dIn, fIn, _, _, hin, -, hreadable, -⟩
    · exact hdata
    · rw [eq_of_fds hfrom hf hin, hr] at hreadable
      cases hreadable
  | load vpn =>
    obtain ⟨m, hm, hfrom⟩ := bind_eq_some_iff.1 hfrom
    obtain ⟨⟨d', page⟩, hback, rfl⟩ := map_eq_some_iff.1 hfrom
    obtain ⟨f', hf', hreadable, -⟩ := h t vpn m d' page hm hback
    cases hf.symm.trans hf'
    cases hr.symm.trans hreadable
  | _ => cases hfrom

end Sys

/-! ## Flags -/

namespace OpenFlags

variable {flags : UInt32}

/-- The bits that are kept by `from_bits_truncate`. -/
theorem contains_fromBitsTruncate (flags : UInt32) {bit} (h : all &&& bit = bit) :
    contains (fromBitsTruncate flags) bit = contains flags bit := by
  simp only [contains, fromBitsTruncate, UInt32.and_assoc, h]

theorem and_one (flags : UInt32) : flags &&& WRONLY = accessMode flags &&& WRONLY := by
  rw [accessMode, UInt32.and_assoc]
  rfl

theorem contains_wronly_of_zero (h : accessMode flags = 0) : contains (fromBitsTruncate flags) WRONLY = false := by
  rw [contains_fromBitsTruncate flags (by decide), contains, and_one, h]
  decide

theorem contains_wronly_of_one (h : accessMode flags = 1) : contains (fromBitsTruncate flags) WRONLY = true := by
  rw [contains_fromBitsTruncate flags (by decide), contains, and_one, h]
  decide

theorem readWrite_of_zero (h : accessMode flags = 0) (hne : fromBitsTruncate flags ≠ 0) :
    readWrite (fromBitsTruncate flags) = (true, true) := by
  simp [readWrite, hne, contains_wronly_of_zero h]

theorem readWrite_of_one (h : accessMode flags = 1) : readWrite (fromBitsTruncate flags) = (false, true) := by
  have hwronly := contains_wronly_of_one h
  have hne : fromBitsTruncate flags ≠ 0 := by
    intro hzero
    rw [hzero] at hwronly
    revert hwronly
    decide
  simp [readWrite, hne, hwronly]

end OpenFlags

theorem modeReadWrite_of_zero {flags} (h : accessMode flags = 0) : modeReadWrite flags = (true, false) := by
  simp [modeReadWrite, h]

theorem modeReadWrite_of_one {flags} (h : accessMode flags = 1) : modeReadWrite flags = (false, true) := by
  simp [modeReadWrite, h]

/-! ## Links -/

namespace Namespace

variable {start n : ν} {path : Path} {flags mode : UInt32}

theorem not_symlink_of_regular (h : T.isRegular n = true) : T.isSymlink n = false := by
  rw [isRegular, beq_iff_eq] at h
  rw [isSymlink, h]
  decide

/-- A round leads to no link, or stays at the start. -/
theorem Round.not_symlink {w w'} (h : T.Round true w w')
    (hw : w.current ≠ start → T.isSymlink w.current = false) : w'.current ≠ start → T.isSymlink w'.current = false := by
  intro hne
  cases h with
  | @advance left current comp rest next hturn =>
    rcases turn_advance hturn with ⟨-, hnext⟩ | ⟨-, -, hlast⟩
    · subst hnext
      cases hparent : T.parent current with
      | none =>
        rw [hparent] at hne
        exact hw hne
      | some m => exact not_symlink_of_dir (T.parent_dir _ m hparent)
    · exact Bool.eq_false_iff.2 fun hlink => Bool.noConfusion (hlast hlink).2
  | @expand left current comp rest target comps hturn =>
    obtain ⟨-, link, -, -, -, hstart⟩ := turn_expand hturn
    dsimp only at hne hw ⊢
    split at hstart
    · rw [hstart]
      exact not_symlink_of_dir T.root_dir
    · rw [hstart] at hne ⊢
      exact hw hne

/-- A lookup that follows links leads to no link, unless it does not lead away from one. -/
theorem not_symlink_of_findTree (h : T.findTree start path true = .ok n) (hne : n ≠ start) : T.isSymlink n = false := by
  rw [findTree] at h
  split at h
  · exact absurd (Except.ok.inj h).symm hne
  · obtain ⟨left, hrounds⟩ := rounds_of_walk h
    have hstart : (if isAbsolute path then T.root else start) ≠ start →
        T.isSymlink (if isAbsolute path then T.root else start) = false := by
      intro hne
      split at hne
      · rw [if_pos ‹_›]
        exact not_symlink_of_dir T.root_dir
      · exact absurd rfl hne
    have hall : ∀ {w : Walk ν}, ReflTransGen (T.Round true)
        ⟨maxSymlinkDepth, if isAbsolute path then T.root else start, components path⟩ w →
        w.current ≠ start → T.isSymlink w.current = false := by
      intro w hw
      induction hw with
      | refl => exact hstart
      | tail _ hround ih => exact Round.not_symlink hround ih
    exact hall hrounds hne

/-- When `openat` keeps to its flags. A file that is opened for reading has no other flag, or is a file without a name or a
named pipe. A link that is to be followed is not where the lookup starts and ends, and is not what the parent directory
holds under the name of a file that the lookup does not find and that is to be created. -/
structure Sound (T : Namespace ν) (start : ν) (path : Path) (flags : UInt32) : Prop where
  readOnly : accessMode flags = 0 → flags &&& tmpfileFlag ≠ 0 ∨ fromBitsTruncate flags = 0 ∨
    ∃ n, T.existing start path (fromBitsTruncate flags) = some n ∧ T.isFifo n = true
  link : isNofollow flags = false → flags &&& tmpfileFlag = 0 →
    (T.findTree start path true = .ok start → T.isSymlink start = false) ∧
    ∀ e parent link, T.findTree start path true = .error e → shouldCreate flags = true →
      T.findTree start (parentPath path) true = .ok parent → T.held parent (fileName path) = some link →
      T.isSymlink link = false

end Namespace

namespace Sys

variable {s s₁ : Sys ν σ τ} {t : τ} {d fd : Nat} {start : ν} {path : Path} {flags mode : UInt32} {file : File ν} {dirfd : Int}

/-! ## The file that is opened -/

omit [DecidableEq τ] in
theorem start_eq (h : s.startDentry T t dirfd path = some start) : (if isAbsolute path then T.root else start) = start := by
  unfold startDentry at h
  split
  case isTrue habs =>
    rw [if_pos habs] at h
    exact some.inj h
  case isFalse => rfl

variable (h : openedFile T start path flags mode = some file)

include h

/-- The cases of a file that `openat` makes. -/
theorem openedFile_cases :
    (flags &&& tmpfileFlag ≠ 0 ∧ file.readable = (modeReadWrite flags).1 ∧ file.writable = (modeReadWrite flags).2 ∧
      T.isRegular file.dentry = true) ∨
    (flags &&& tmpfileFlag = 0 ∧
      (T.existing start path (fromBitsTruncate flags) = some file.dentry ∨
        T.existing start path (fromBitsTruncate flags) = none ∧ T.isRegular file.dentry = true) ∧
      ((T.isFifo file.dentry = true ∧ file.readable = ((modeReadWrite flags).1 || !(modeReadWrite flags).2) ∧
          file.writable = ((modeReadWrite flags).2 || !(modeReadWrite flags).1)) ∨
        (T.isFifo file.dentry = false ∧ file.fifo = false ∧
          file.readable = (readWrite (fromBitsTruncate flags)).1 ∧
          file.writable = (readWrite (fromBitsTruncate flags)).2))) := by
  unfold openedFile at h
  split at h
  case isTrue htmp =>
    split at h
    · cases h
    · cases h
      exact .inl ⟨htmp, rfl, rfl, by simp [isRegular, T.anonymous_regular]⟩
  case isFalse htmp =>
    split at h
    case h_1 inode hopen =>
      obtain ⟨dentry, rfl, hdentry⟩ := openFile_eq_some hopen
      cases h
      refine .inr ⟨by simpa using htmp, ?_⟩
      cases hfifo : T.isFifo dentry with
      | true =>
        have hfifo' : T.isFifo (osInode (fromBitsTruncate flags) dentry).dentry = true := hfifo
        rw [if_pos hfifo']
        exact ⟨hdentry, .inl ⟨hfifo, rfl, rfl⟩⟩
      | false =>
        have hfifo' : ¬T.isFifo (osInode (fromBitsTruncate flags) dentry).dentry = true := by
          simp [osInode, hfifo]
        rw [if_neg hfifo']
        exact ⟨hdentry, .inr ⟨hfifo, rfl, rfl, rfl⟩⟩
    case h_2 => cases h

theorem openedFile_writable (hmode : accessMode flags = 0)
    (hsound : T.Sound start path flags) : file.writable = false := by
  have hrw := modeReadWrite_of_zero hmode
  rcases openedFile_cases h with ⟨-, -, hw, -⟩ | ⟨htmp, hdentry, ⟨-, -, hw⟩ | ⟨hfifo, -, -, hw⟩⟩
  · rw [hw, hrw]
  · rw [hw, hrw]
    rfl
  · rcases hsound.readOnly hmode with htmp' | hzero | ⟨n, hn, hfifo'⟩
    · exact absurd htmp htmp'
    · rw [hw, hzero]
      rfl
    · -- a named pipe is no new file
      rcases hdentry with hdentry | ⟨hnone, -⟩
      · cases hdentry.symm.trans hn
        cases hfifo.symm.trans hfifo'
      · cases hnone.symm.trans hn

theorem openedFile_readable (hmode : accessMode flags = 1) : file.readable = false := by
  have hrw := modeReadWrite_of_one hmode
  rcases openedFile_cases h with ⟨-, hr, -⟩ | ⟨-, -, ⟨-, hr, -⟩ | ⟨-, -, hr, -⟩⟩
  · rw [hr, hrw]
  · rw [hr, hrw]
    rfl
  · rw [hr, readWrite_of_one hmode]

omit h in
/-- The dentry that is there for a path whose links are followed. -/
theorem existing_eq_some (hstart : (if isAbsolute path then T.root else start) = start)
    (hfollow : isNofollow flags = false) {n} :
    T.existing start path (fromBitsTruncate flags) = some n ↔
      T.findTree start path true = .ok n ∨
        ∃ e parent, T.findTree start path true = .error e ∧ shouldCreate flags = true ∧
          T.findTree start (parentPath path) true = .ok parent ∧ T.held parent (fileName path) = some n := by
  have hfollow' : isNofollow (fromBitsTruncate flags) = false := by
    rw [isNofollow, contains_fromBitsTruncate flags (by decide)]
    exact hfollow
  have hcreate : shouldCreate (fromBitsTruncate flags) = shouldCreate flags := by
    rw [shouldCreate, contains_fromBitsTruncate flags (by decide)]
    rfl
  simp only [existing, hstart, hfollow', hcreate, Bool.not_false]
  cases hfound : T.findTree start path true with
  | ok m => simp
  | error e =>
    cases hc : shouldCreate flags with
    | false => simp
    | true =>
      cases hparent : T.findTree start (parentPath path) true with
      | error e' | ok parent => simp

theorem openedFile_link
    (hstart : (if isAbsolute path then T.root else start) = start) (hfollow : isNofollow flags = false)
    (hsound : T.Sound start path flags) : T.isSymlink file.dentry = false := by
  rcases openedFile_cases h with ⟨-, -, -, hreg⟩ | ⟨htmp, hdentry, -⟩
  · exact not_symlink_of_regular hreg
  · rcases hdentry with hdentry | ⟨-, hreg⟩
    · obtain ⟨hself, hheld⟩ := hsound.link hfollow htmp
      rcases (existing_eq_some hstart hfollow).1 hdentry with hfound | ⟨e, parent, hmissing, hcreate, hparent, hlink⟩
      · by_cases hn : file.dentry = start
        · rw [hn] at hfound ⊢
          exact hself hfound
        · exact not_symlink_of_findTree hfound hn
      · exact hheld e parent _ hmissing hcreate hparent hlink
    · exact not_symlink_of_regular hreg

omit h in
/-- A `pwrite` gets through to a file that can be written. -/
theorem not_frozen {offset bytes} (hfd : s.fds t fd = some d) (hf : s.files[d]? = some f)
    (hw : f.writable = true) (hfifo : f.fifo = false) (hchange : (V.writeAt f.dentry offset bytes s.disk).2 ≠ s.disk) :
    ¬s.Frozen T V d := by
  intro hfrozen
  have hfile : s.file t fd = some (d, f) := file_eq_some.2 ⟨hfd, hf⟩
  have hstep : s.step V T t (.pwrite64 fd bytes offset) = some (answerWrite (s.fileWriteAt V d offset bytes)) := by
    simp [step, sysPwrite64, onFile, hfile, hw]
  have hsame := hfrozen t (.pwrite64 fd bytes offset) _ _ hfd hstep
  exact hchange (by simpa [fileWriteAt, hf, Vfs.pwrite, hfifo] using hsame)

/-- What the flags ask for is granted only if they are sound, provided the file takes a write at all. -/
theorem sound_of_grants (hentered : s.Entered s₁ t fd file)
    (hstart : (if isAbsolute path then T.root else start) = start)
    (hwrite : ∃ offset bytes, (V.writeAt file.dentry offset bytes s₁.disk).2 ≠ s₁.disk)
    (hg : s₁.Grants T V s.files.length flags) : T.Sound start path flags := by
  have hf : s₁.files[s.files.length]? = some ⟨file, 0⟩ := by simp [hentered.files]
  constructor
  · intro hmode
    by_contra hnot
    simp only [not_or, not_exists, not_and] at hnot
    obtain ⟨htmp, hzero, hfifo⟩ := hnot
    rcases openedFile_cases h with ⟨htmp', -⟩ | ⟨-, hdentry, hkind⟩
    · exact htmp htmp'
    · have hplain : T.isFifo file.dentry = false := by
        rcases hdentry with hdentry | ⟨-, hreg⟩
        · exact Bool.eq_false_iff.2 (hfifo _ hdentry)
        · rw [isRegular, beq_iff_eq] at hreg
          rw [isFifo, hreg]
          decide
      rcases hkind with ⟨hfifo', -⟩ | ⟨-, hkind, -, hw⟩
      · cases hplain.symm.trans hfifo'
      · rw [readWrite_of_zero hmode hzero] at hw
        obtain ⟨offset, bytes, hchange⟩ := hwrite
        exact not_frozen hentered.fds hf hw hkind hchange (hg.readOnly hmode s₁ .refl)
  · intro hfollow htmp
    have hlink := hg.link hfollow _ hf
    have hdentry : ∀ n, T.existing start path (fromBitsTruncate flags) = some n → T.isSymlink n = false := by
      intro n hn
      rcases openedFile_cases h with ⟨htmp', -⟩ | ⟨-, hdentry | ⟨hnone, -⟩, -⟩
      · exact absurd htmp htmp'
      · cases hdentry.symm.trans hn
        exact hlink
      · cases hnone.symm.trans hn
    constructor
    · intro hfound
      exact hdentry start ((existing_eq_some hstart hfollow).2 (.inl hfound))
    · intro e parent link hmissing hcreate hparent hheld
      exact hdentry link ((existing_eq_some hstart hfollow).2 (.inr ⟨e, parent, hmissing, hcreate, hparent, hheld⟩))

omit h

/-- A descriptor of `openat` lets through what its flags ask for, in every run, if the flags are sound, and only then if the
file takes a write at all. -/
theorem openat_grants_iff {proc : τ → ProcInfo ν} {disk : σ} {data : List UInt8}
    (hr : ReflTransGen (Step T V) (init proc disk) s)
    (hopen : s.step V T t (.openat dirfd path flags mode) = some (s₁, ⟨.ok fd, data⟩))
    (hstart : s.startDentry T t dirfd path = some start) (hfd : s₁.fds t fd = some d) :
    (T.Sound start path flags → s₁.Grants T V d flags) ∧
      ((∃ f offset bytes, s₁.files[d]? = some f ∧ (V.writeAt f.dentry offset bytes s₁.disk).2 ≠ s₁.disk) →
        s₁.Grants T V d flags → T.Sound start path flags) := by
  have hmaps := ((mapsOk_init proc disk).steps hr).2
  have hmaps₁ := (hmaps.step hopen).2
  rcases sysOpenat_spec hopen with ⟨-, e, he⟩ | ⟨start', file, fd', hstart', hfile, hreply, hentered⟩
  · cases (Reply.mk.inj he).1
  · cases hstart.symm.trans hstart'
    obtain rfl := Except.ok.inj (Reply.mk.inj hreply).1
    obtain rfl : s.files.length = d := some.inj (hentered.fds.symm.trans hfd)
    have hf : s₁.files[s.files.length]? = some ⟨file, 0⟩ := by simp [hentered.files]
    constructor
    · intro hsound
      constructor
      · intro hmode s' hrun
        obtain ⟨hkeeps, hmaps'⟩ := hmaps₁.steps hrun
        obtain ⟨f', hf', heq⟩ := hkeeps _ _ hf
        exact hmaps'.frozen hf' (by rw [heq]; exact openedFile_writable hfile hmode hsound)
      · intro hmode s' hrun
        obtain ⟨hkeeps, hmaps'⟩ := hmaps₁.steps hrun
        obtain ⟨f', hf', heq⟩ := hkeeps _ _ hf
        exact hmaps'.mute hf' (by rw [heq]; exact openedFile_readable hfile hmode)
      · intro hfollow f hf'
        cases hf.symm.trans hf'
        exact openedFile_link hfile (start_eq hstart) hfollow hsound
    · rintro ⟨f, offset, bytes, hf', hchange⟩ hg
      cases hf.symm.trans hf'
      exact sound_of_grants hfile hentered (start_eq hstart) ⟨offset, bytes, hchange⟩ hg

end Sys

/-! ## A small tree -/

/-- Files that hold bytes, in memory. -/
def Vfs.ram [DecidableEq ν] : Vfs ν (ν → List UInt8) where
  readAt n offset len disk := ((disk n).drop offset).take len
  writeAt n offset bytes disk :=
    let old := disk n ++ List.replicate (offset - (disk n).length) 0
    (bytes.length, update disk n (old.take offset ++ bytes ++ old.drop (offset + bytes.length)))
  truncate n len disk := (true, update disk n ((disk n ++ List.replicate (len - (disk n).length) 0).take len))
  getSize n disk := (disk n).length
  pipeRead n len disk := ((disk n).take len, update disk n ((disk n).drop len))
  pipeWrite n bytes disk := (bytes.length, update disk n (disk n ++ bytes))

/-- The root with the file `f` and the link `l` to a name that is missing. -/
inductive SmallNode where
  | root
  | file
  | link
  | unnamed
deriving DecidableEq

namespace SmallNode

def mode : SmallNode → UInt32
  | root => 0o040755
  | file | unnamed => 0o100644
  | link => 0o120777

def child : SmallNode → Name → Option SmallNode
  | root, name => if name = ['f'] then some file else if name = ['l'] then some link else none
  | _, _ => none

def tree : Namespace SmallNode where
  root := root
  parent n := if n = root then none else some root
  name
    | root => ['/']
    | file => ['f']
    | link => ['l']
    | unnamed => []
  findChild := child
  mode := mode
  target
    | link => ['m']
    | _ => []
  held := child
  createFile _ _ _ := none
  anonymous _ := unnamed
  root_dir := by decide
  parent_dir n m h := by
    obtain ⟨-, h⟩ := ite_none_left_eq_some.1 h
    cases h
    decide
  created _ _ _ _ h := by cases h
  anonymous_regular _ := by decide

abbrev SmallSys := Sys SmallNode (SmallNode → List UInt8) Unit

def start : SmallSys := .init (fun _ => ⟨root, 0o022, 16⟩) fun _ => []

/-- A call that returns the first descriptor, for such a file. -/
theorem step_of_map (cmd : Cmd Unit) (writable : Bool) (n : SmallNode)
    (h : ((start.step Vfs.ram tree () cmd).any fun r => decide (r.1.fds () 0 = some 0 ∧ r.2.ret.toOption = some 0 ∧
      r.2.data = [] ∧ (r.1.files.map fun f => (f.writable, f.fifo, f.dentry)) = [(writable, false, n)])) = true) :
    ∃ s, start.step Vfs.ram tree () cmd = some (s, ⟨.ok 0, []⟩) ∧ s.fds () 0 = some 0 ∧
      ∃ f, s.files[0]? = some f ∧ f.writable = writable ∧ f.fifo = false ∧ f.dentry = n := by
  obtain ⟨⟨s, reply⟩, hstep, hfd, hret, hdata, hfiles⟩ := exists_of_any h
  have hreply : reply = ⟨.ok 0, []⟩ := by
    obtain ⟨ret, data⟩ := reply
    obtain rfl : data = [] := hdata
    cases ret with
    | error e => cases hret
    | ok fd =>
      cases hret
      rfl
  subst hreply
  refine ⟨s, hstep, hfd, ?_⟩
  cases hl : s.files with
  | nil => simp [hl] at hfiles
  | cons f fs =>
    rw [hl, List.map_cons] at hfiles
    simp only [List.cons.injEq, Prod.mk.injEq] at hfiles
    exact ⟨f, rfl, hfiles.1⟩

/-- A plain file that is opened for reading and nothing else. -/
theorem sound_file : tree.Sound root ['/', 'f'] 0 where
  readOnly _ := .inr (.inl rfl)
  link _ _ := by
    refine ⟨fun _ => by decide, fun e parent l h => ?_⟩
    have hok : tree.findTree root ['/', 'f'] true = .ok file := by rfl
    cases hok.symm.trans h

/-- `openat_grants_iff` for that file: nothing is written through the descriptor, in any run. -/
theorem openat_grants_iff_file : ∃ s₁ : SmallSys,
    start.step Vfs.ram tree () (.openat (-100) ['/', 'f'] 0 0) = some (s₁, ⟨.ok 0, []⟩) ∧ s₁.fds () 0 = some 0 ∧
      s₁.Grants tree Vfs.ram 0 0 := by
  obtain ⟨s₁, hstep, hfd, -⟩ := step_of_map (.openat (-100) ['/', 'f'] 0 0) false file (by decide +kernel)
  have hroot : Sys.startDentry start tree () (-100) ['/', 'f'] = some root := rfl
  exact ⟨s₁, hstep, hfd, (Sys.openat_grants_iff .refl hstep hroot hfd).1 sound_file⟩

/-- With another flag, a file that is opened for reading can be written, and a link to a missing name is opened itself when
the file is to be created. -/
theorem openat_grants_more :
    (∃ s₁ : SmallSys, start.step Vfs.ram tree () (.openat (-100) ['/', 'f'] NONBLOCK 0) = some (s₁, ⟨.ok 0, []⟩) ∧
      s₁.fds () 0 = some 0 ∧ accessMode NONBLOCK = 0 ∧ ¬s₁.Frozen tree Vfs.ram 0) ∧
    ∃ s₁ : SmallSys, start.step Vfs.ram tree () (.openat (-100) ['/', 'l'] (WRONLY ||| CREATE) 0) =
        some (s₁, ⟨.ok 0, []⟩) ∧
      s₁.fds () 0 = some 0 ∧ isNofollow (WRONLY ||| CREATE) = false ∧
      ∃ f, s₁.files[0]? = some f ∧ tree.isSymlink f.dentry = true := by
  constructor
  · obtain ⟨s₁, hstep, hfd, f, hf, hw, hfifo, hn⟩ := step_of_map (.openat (-100) ['/', 'f'] NONBLOCK 0) true file
      (by decide +kernel)
    refine ⟨s₁, hstep, hfd, by decide, ?_⟩
    have hchange : ((Vfs.ram : Vfs SmallNode _).writeAt f.dentry (s₁.disk f.dentry).length [7] s₁.disk).2 ≠ s₁.disk := by
      intro h
      have hlen := congrArg (fun disk => (disk f.dentry).length) h
      simp [Vfs.ram] at hlen
    exact Sys.not_frozen hfd hf hw hfifo hchange
  · obtain ⟨s₁, hstep, hfd, f, hf, -, -, hn⟩ := step_of_map
      (.openat (-100) ['/', 'l'] (WRONLY ||| CREATE) 0) true link (by decide +kernel)
    exact ⟨s₁, hstep, hfd, by decide, f, hf, by rw [hn]; decide⟩

end SmallNode

end ShellCore.Fs
