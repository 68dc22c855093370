import ShellCore.Block.CacheIdMap
import ShellCore.Lib.Actors
import ShellCore.Lib.OrdMap

/-!
# The page cache

The cache of the physical blocks of the disk. An activity is a call into the cache, or a holder of a
page, or a mapping of a page into user space; there are as many as there are callers. Each section under
the lock of the map of pages, of the index of file pages or of one page is a step, and so is each access
to the device. `α` is the type of the contents of a block; `0` is the zeroed block.

Which page is evicted and when is left to the schedule: the counts of pages, the time stamps and the
position of the scan only choose victims.
-/

namespace ShellCore.Block

open Function

/-- A cache page. `strong` counts the references to the page, `frameRefs` those to its frame. -/
structure PageCache (α : Type) where
  blockId : Nat
  bytes : α
  dirty : Bool
  discarded : Bool
  strong : Nat
  frameRefs : Nat

/-- What follows once a reference to a page has been dropped. -/
inductive Cont where
  | done
  /-- `unmap_one` goes on to drop the frame of page `p`. -/
  | unmap (p : Nat)
  /-- The frame of page `p` is mapped. -/
  | mapped (p : Nat) (key : LogicalPageKey)
  /-- `sync_all` has pages of its batch left. -/
  | flush (batch : List Nat) (cursor : Option Nat)
deriving DecidableEq

/-- Where an activity is. Pages are numbered in the order of their creation. -/
inductive Pc where
  | idle
  /-- `get_page_cache` and `get_new_page_cache`, before the index is updated. -/
  | insertId (key : LogicalPageKey) (b : Nat) (fresh : Bool)
  /-- `get_physical_page`; `fresh` if the block is not to be read from the device. -/
  | lookup (b : Nat) (fresh : Bool)
  | create (b : Nat) (fresh : Bool)
  | publish (b p : Nat) (fresh : Bool)
  /-- `get_new_page_cache` has created the page and is about to zero it. -/
  | clear (p : Nat)
  /-- The caller has a reference to the page. -/
  | hold (p : Nat)
  /-- `get_cached_file_page`. -/
  | cachedId (key : LogicalPageKey)
  | cached (b : Nat)
  /-- `write_back_page_cache`. -/
  | backId (key : LogicalPageKey) (k : Cont)
  | back (b : Nat) (k : Cont)
  | backSync (p : Nat) (k : Cont)
  /-- A reference is about to be dropped; with the last one the page itself is. -/
  | release (p : Nat) (k : Cont)
  | drop (p : Nat) (k : Cont)
  /-- `try_evict`. -/
  | evict (b : Nat)
  | evictSync (b p : Nat)
  | evictFrame (b p : Nat)
  | evictRemove (b p : Nat)
  /-- `invalidate_block` has still to clean the index. -/
  | forget (b : Nat)
  /-- `sync_all`: the next batch starts after `cursor`. -/
  | collect (cursor : Option Nat)
  | flush (batch : List Nat) (cursor : Option Nat)
  | synced
  /-- The frame of the page is mapped shared into an address space, as page `key` of its file. -/
  | mapped (p : Nat) (key : LogicalPageKey)
  | unmapped (p : Nat)
deriving DecidableEq

def Cont.pc : Cont → Pc
  | done => .idle
  | unmap p => .unmapped p
  | mapped p key => .mapped p key
  | flush batch cursor => .flush batch cursor

/-- `next` goes on with the call that the activity is in. -/
inductive Cmd (γ α : Type) where
  | next
  /-- `get_block_cache` and `get_data_block_cache`. -/
  | get (b : Nat)
  | getPageCache (key : LogicalPageKey) (b : Nat)
  | getNewPageCache (key : LogicalPageKey) (b : Nat)
  | getCachedFilePage (key : LogicalPageKey)
  /-- A write through the cache, under the lock of the page. -/
  | modify (f : α → α)
  | sync
  | release
  /-- `try_map_shared_file_page` takes the frame of the page that it has got. -/
  | map (key : LogicalPageKey)
  /-- A copy of a mapping, for the child of a `fork`. -/
  | share (c : γ)
  /-- A store of the user through the mapping. -/
  | store (f : α → α)
  /-- `unmap_one`, of `munmap` or of the exit of the process. -/
  | unmap
  | writeBack (key : LogicalPageKey)
  | tryEvict (b : Nat)
  | invalidateBlock (b : Nat)
  | syncAll

def Cmd.isStore {γ α : Type} : Cmd γ α → Bool
  | store _ => true
  | _ => false

structure PageCacheManager (γ α : Type) where
  page : Nat → PageCache α
  /-- How many pages have been created. -/
  next : Nat
  pageCacheMap : OrdMap Nat
  ids : CacheIdMap
  dev : Nat → α
  pc : γ → Pc

def syncBatch : Nat := 1024

namespace PageCacheManager

variable {γ α : Type}

/-! ## Changes of the state -/

section

variable (s : PageCacheManager γ α)

def goto [DecidableEq γ] (a : γ) (q : Pc) : PageCacheManager γ α := { s with pc := update s.pc a q }

variable (p : Nat)

def setPage (x : PageCache α) : PageCacheManager γ α := { s with page := update s.page p x }

def setMap (m : OrdMap Nat) : PageCacheManager γ α := { s with pageCacheMap := m }

def setIds (m : CacheIdMap) : PageCacheManager γ α := { s with ids := m }

def setDev (b : Nat) (x : α) : PageCacheManager γ α := { s with dev := update s.dev b x }

/-- `Arc::clone` of the page. -/
def clonePage : PageCacheManager γ α := s.setPage p { s.page p with strong := (s.page p).strong + 1 }

def dropPage : PageCacheManager γ α := s.setPage p { s.page p with strong := (s.page p).strong - 1 }

/-- The page is discarded before the reference to it is dropped. -/
abbrev discardPage : PageCacheManager γ α :=
  s.setPage p { s.page p with discarded := true, strong := (s.page p).strong - 1 }

def cloneFrame : PageCacheManager γ α := s.setPage p { s.page p with frameRefs := (s.page p).frameRefs + 1 }

def dropFrame : PageCacheManager γ α := s.setPage p { s.page p with frameRefs := (s.page p).frameRefs - 1 }

/-- `PageCache::sync`. -/
def sync : PageCacheManager γ α :=
  if (s.page p).discarded || !(s.page p).dirty then s
  else (s.setPage p { s.page p with dirty := false }).setDev (s.page p).blockId (s.page p).bytes

def write (f : α → α) : PageCacheManager γ α :=
  s.setPage p { s.page p with bytes := f (s.page p).bytes, dirty := true }

/-- A store goes to the frame, past the cache. -/
def store (f : α → α) : PageCacheManager γ α := s.setPage p { s.page p with bytes := f (s.page p).bytes }

/-- A reference to each page of the batch. -/
def cloneAll (batch : List Nat) : PageCacheManager γ α :=
  { s with
    page := fun p => if p ∈ batch then { s.page p with strong := (s.page p).strong + 1 } else s.page p }

end

/-! ## The calls -/

section

variable [DecidableEq γ] (s : PageCacheManager γ α) (a : γ)

/-- `PageCache::new_loading`, and what `get_physical_page` fills the frame with. -/
def newLoading [Zero α] (b : Nat) (fresh : Bool) : PageCache α where
  blockId := b
  bytes := if fresh then 0 else s.dev b
  dirty := fresh
  discarded := false
  strong := 1
  frameRefs := 1

def create [Zero α] (b : Nat) (fresh : Bool) : PageCacheManager γ α :=
  ({ s.setPage s.next (s.newLoading b fresh) with next := s.next + 1 }).goto a (.publish b s.next fresh)

/-- The page is entered in the map, unless another one is there. Then the new page is discarded; its last
reference is dropped, which writes nothing. -/
def publish (b p : Nat) (fresh : Bool) : PageCacheManager γ α :=
  match s.pageCacheMap.get? b with
  | some q =>
    ((s.discardPage p).clonePage q).goto a (.hold q)
  | none => ((s.clonePage p).setMap (s.pageCacheMap.insert b p)).goto a (if fresh then .clear p else .hold p)

/-- The second half of `try_evict`, under the lock of the map. -/
def evictRemove (b p : Nat) : PageCacheManager γ α :=
  if s.pageCacheMap.get? b = some p ∧ (s.page p).strong = 2 then
    (((s.dropPage p).setMap (s.pageCacheMap.erase b)).setIds (s.ids.removeBlock b)).goto a (.release p .done)
  else s.goto a (.release p .done)

/-- `invalidate_block`: dropping the reference of the map writes nothing, since the page is discarded. -/
def invalidateBlock (b : Nat) : PageCacheManager γ α :=
  match s.pageCacheMap.get? b with
  | some p =>
    ((s.discardPage p).setMap (s.pageCacheMap.erase b)).goto a (.forget b)
  | none => s.goto a (.forget b)

/-- The entries of the map after `cursor`, in order. -/
def after (cursor : Option Nat) : List (Nat × Nat) :=
  s.pageCacheMap.entries.filter fun e => cursor.all fun c => decide (c < e.1)

abbrev nextBatch (cursor : Option Nat) : List (Nat × Nat) := (s.after cursor).take syncBatch

def collect (cursor : Option Nat) : PageCacheManager γ α :=
  match (s.nextBatch cursor).getLast? with
  | none => s.goto a .synced
  | some e =>
    let batch := (s.nextBatch cursor).map Prod.snd
    (s.cloneAll batch).goto a (.flush batch (some e.1))

/-- One step of the call that the activity is in. -/
def goOn [Zero α] : Pc → Option (PageCacheManager γ α)
  | .insertId key b fresh => some ((s.setIds (s.ids.insert key b)).goto a (.lookup b fresh))
  | .lookup b fresh =>
    match s.pageCacheMap.get? b with
    | some p => some ((s.clonePage p).goto a (.hold p))
    | none => some (s.goto a (.create b fresh))
  | .create b fresh => some (s.create a b fresh)
  | .publish b p fresh => some (s.publish a b p fresh)
  | .clear p => some ((s.write p fun _ => 0).goto a (.hold p))
  | .cachedId key =>
    match s.ids.get key with
    | some b => some (s.goto a (.cached b))
    | none => some (s.goto a .idle)
  | .cached b =>
    match s.pageCacheMap.get? b with
    | some p => some ((s.clonePage p).goto a (.hold p))
    | none => some (s.goto a .idle)
  | .backId key k =>
    match s.ids.get key with
    | some b => some (s.goto a (.back b k))
    | none => some (s.goto a k.pc)
  | .back b k =>
    match s.pageCacheMap.get? b with
    | some p => some ((s.clonePage p).goto a (.backSync p k))
    | none => some (s.goto a k.pc)
  | .backSync p k => some ((s.sync p).goto a (.release p k))
  | .release p k => some ((s.dropPage p).goto a (if (s.page p).strong = 1 then .drop p k else k.pc))
  | .drop p k => some ((s.sync p).goto a k.pc)
  | .evict b =>
    match s.pageCacheMap.get? b with
    | some p => if (s.page p).strong ≠ 1 then some (s.goto a .idle) else some ((s.clonePage p).goto a (.evictSync b p))
    | none => some (s.goto a .idle)
  | .evictSync b p => some ((s.sync p).goto a (.evictFrame b p))
  | .evictFrame b p => some (s.goto a (if (s.page p).frameRefs ≠ 1 then .release p .done else .evictRemove b p))
  | .evictRemove b p => some (s.evictRemove a b p)
  | .forget b => some ((s.setIds (s.ids.removeBlock b)).goto a .idle)
  | .collect cursor => some (s.collect a cursor)
  | .flush [] cursor => some (s.goto a (.collect cursor))
  | .flush (p :: batch) cursor => some ((s.sync p).goto a (.release p (.flush batch cursor)))
  | .synced => some (s.goto a .idle)
  | .unmapped p => some ((s.dropFrame p).goto a .idle)
  | .idle | .hold _ | .mapped _ _ => none

/-- A call that an idle activity starts. -/
def start : Cmd γ α → Option (PageCacheManager γ α)
  | .get b => some (s.goto a (.lookup b false))
  | .getPageCache key b => some (s.goto a (.insertId key b false))
  | .getNewPageCache key b => some (s.goto a (.insertId key b true))
  | .getCachedFilePage key => some (s.goto a (.cachedId key))
  | .writeBack key => some (s.goto a (.backId key .done))
  | .tryEvict b => some (s.goto a (.evict b))
  | .invalidateBlock b => some (s.invalidateBlock a b)
  | .syncAll => some (s.goto a (.collect none))
  | .share c =>
    match s.pc c with
    | .mapped p key => some ((s.cloneFrame p).goto a (.mapped p key))
    | _ => none
  | _ => none

/-- One step of activity `a`. -/
def step [Zero α] (cmd : Cmd γ α) : Option (PageCacheManager γ α) :=
  match s.pc a, cmd with
  | q, .next => s.goOn a q
  | .idle, cmd => s.start a cmd
  | .hold p, .modify f => some (s.write p f)
  | .hold p, .sync => some (s.sync p)
  | .hold p, .release => some (s.goto a (.release p .done))
  | .hold p, .map key => some ((s.cloneFrame p).goto a (.release p (.mapped p key)))
  | .mapped p _, .store f => some (s.store p f)
  | .mapped p key, .unmap => some (s.goto a (.backId key (.unmap p)))
  | _, _ => none

end

def init (d : Nat → α) [Zero α] : PageCacheManager γ α where
  page _ := { blockId := 0, bytes := 0, dirty := false, discarded := false, strong := 0, frameRefs := 0 }
  next := 0
  pageCacheMap := OrdMap.empty
  ids := CacheIdMap.new
  dev := d
  pc _ := .idle

/-! ## The fields after a change -/

section

variable {s : PageCacheManager γ α} {p q b c : Nat} {x : PageCache α} {m : OrdMap Nat} {ids : CacheIdMap} {v : α}

@[simp] theorem setPage_page_self : (s.setPage p x).page p = x := update_self ..

@[simp] theorem setPage_page_of_ne (h : q ≠ p) : (s.setPage p x).page q = s.page q := update_of_ne h ..

theorem setPage_page : (s.setPage p x).page q = if q = p then x else s.page q := update_apply ..

/-- What the change of a page keeps of it. -/
theorem setPage_field {β : Type} (F : PageCache α → β) (h : F x = F (s.page p)) (r : Nat) :
    F ((s.setPage p x).page r) = F (s.page r) := by
  rw [setPage_page]
  split
  next hr => rw [hr, h]
  · rfl

@[simp] theorem setPage_frame : (s.setPage p x).next = s.next ∧ (s.setPage p x).pageCacheMap = s.pageCacheMap ∧
    (s.setPage p x).ids = s.ids ∧ (s.setPage p x).dev = s.dev ∧ (s.setPage p x).pc = s.pc := ⟨rfl, rfl, rfl, rfl, rfl⟩

@[simp] theorem setMap_page : (s.setMap m).page = s.page := rfl

@[simp] theorem setMap_frame : (s.setMap m).next = s.next ∧ (s.setMap m).dev = s.dev ∧ (s.setMap m).pc = s.pc :=
  ⟨rfl, rfl, rfl⟩

@[simp] theorem setMap_map : (s.setMap m).pageCacheMap = m := rfl

@[simp] theorem setIds_frame : (s.setIds ids).page = s.page ∧ (s.setIds ids).next = s.next ∧
    (s.setIds ids).pageCacheMap = s.pageCacheMap ∧ (s.setIds ids).dev = s.dev ∧ (s.setIds ids).pc = s.pc :=
  ⟨rfl, rfl, rfl, rfl, rfl⟩

@[simp] theorem setDev_page : (s.setDev b v).page = s.page := rfl

@[simp] theorem setDev_frame : (s.setDev b v).next = s.next ∧ (s.setDev b v).pageCacheMap = s.pageCacheMap ∧
    (s.setDev b v).pc = s.pc := ⟨rfl, rfl, rfl⟩

theorem setDev_dev : (s.setDev b v).dev c = if c = b then v else s.dev c := update_apply ..

end

section

variable [DecidableEq γ] {s : PageCacheManager γ α} {a c : γ} {q : Pc}

@[simp] theorem goto_page : (s.goto a q).page = s.page := rfl

@[simp] theorem goto_frame : (s.goto a q).next = s.next ∧ (s.goto a q).pageCacheMap = s.pageCacheMap ∧
    (s.goto a q).ids = s.ids ∧ (s.goto a q).dev = s.dev := ⟨rfl, rfl, rfl, rfl⟩

@[simp] theorem goto_pc_self : (s.goto a q).pc a = q := update_self ..

@[simp] theorem goto_pc_of_ne (h : c ≠ a) : (s.goto a q).pc c = s.pc c := update_of_ne h ..

theorem goto_self (h : s.pc a = q) : s.goto a q = s := by
  rw [goto, ← h, update_eq_self]

end

end PageCacheManager

end ShellCore.Block
