import ShellCore.Fs.Dentry

/-!
# `chroot`

`chroot` sets the root and the working directory of the process. No lookup reads that root: an absolute path
starts at the root of the whole tree, an absolute link target as well, and `..` leads from the new root to its
parent. A lookup stays in the subtree of the new root exactly if it meets none of the three.
-/

namespace ShellCore.Fs

open Relation Dentries

structure FsStruct (ν : Type) where
  root : ν
  pwd : ν
  umask : UInt32

def FsStruct.new {ν : Type} (root pwd : ν) : FsStruct ν := ⟨root, pwd, 0o022⟩

/-- What a lookup reads of a process: the working directory and the dentries of the open files. -/
structure Proc (ν : Type) where
  euid : UInt32
  fs : FsStruct ν
  fds : Nat → Option ν

inductive ChrootError where
  | eperm
  | enoent

def sysChroot {ν : Type} (T : Dentries ν) (p : Proc ν) (path : Path) : Except ChrootError (Proc ν) :=
  if p.euid ≠ 0 then .error .eperm
  else
    match T.findTree p.fs.pwd path true with
    | .ok root => .ok { p with fs := .new root root }
    | .error _ => .error .enoent

def atFdcwd : Int := -100

/-- A lookup of a system call. Some of the calls normalise the path first. -/
structure Lookup where
  dirfd : Int
  path : Path
  follow : Bool
  normalized : Bool

namespace Proc

variable {ν : Type} (T : Tree ν) (p : Proc ν)

/-- Where the lookup of a path starts, if the descriptor is one. -/
def startDentry (dirfd : Int) (path : Path) : Option ν :=
  if isAbsolute path then some T.root
  else if dirfd = atFdcwd then some p.fs.pwd
  else if dirfd < 0 then none
  else p.fds dirfd.toNat

def resolve (l : Lookup) : Option (Except PathError ν) :=
  let path := if l.normalized then T.normalizeLeadingDotPath p.fs.pwd l.path else l.path
  (p.startDentry T l.dirfd path).map fun start => T.findTree start path l.follow

/-- Where the path that the caller gives starts. -/
def origin (l : Lookup) : Option ν :=
  if l.normalized && Tree.startsWithDot l.path then some p.fs.pwd else p.startDentry T l.dirfd l.path

/-- The process has its working directory and its open files in the subtree of `d`. -/
structure Within (d : ν) : Prop where
  pwd : T.Under d p.fs.pwd
  dir : T.isDir p.fs.pwd = true
  fds : ∀ fd n, p.fds fd = some n → T.Under d n

end Proc

section

variable {ν : Type} {T : Tree ν} {p : Proc ν} {l : Lookup} {d s : ν} {follow : Bool} {path : Path}

theorem Proc.resolve_eq (hdir : T.isDir p.fs.pwd = true) :
    p.resolve T l = (p.origin T l).map fun s => T.findTree s l.path l.follow := by
  by_cases hn : l.normalized = true
  · by_cases hdot : Tree.startsWithDot l.path = true
    · have habs := (Tree.components_normalize (T := T) p.fs.pwd hdot).2
      simp only [resolve, origin, hn, hdot, Bool.and_self, if_true, startDentry, habs, Option.map_some]
      rw [Tree.findTree_normalize hdot hdir]
    · rw [Bool.not_eq_true] at hdot
      simp only [resolve, origin, hn, hdot, Bool.and_false, if_true, Tree.normalize_of_not_startsWithDot hdot]
      rfl
  · rw [Bool.not_eq_true] at hn
    simp only [resolve, origin, hn, Bool.false_and]
    rfl

/-- The start of a path that is not absolute is in the subtree. -/
theorem Proc.Within.origin (hp : p.Within T d) (hs : p.origin T l = some s) (hrel : isAbsolute l.path = false) :
    T.Under d s := by
  unfold Proc.origin Proc.startDentry at hs
  rw [hrel] at hs
  split_ifs at hs with hdot habs hcwd hneg
  · cases hs
    exact hp.pwd
  · cases habs
  · cases hs
    exact hp.pwd
  · exact hp.fds _ s hs

variable (T) in
/-- The next round leaves the subtree of `d`: it goes up from `d`, or follows a link to an absolute target. -/
def Escapes (follow : Bool) (d : ν) (w : Walk ν) : Prop :=
  d ≠ T.root ∧ ∃ comp rest, w.comps = comp :: rest ∧
    ((comp = dotdot ∧ w.current = d) ∨
      (comp ≠ dotdot ∧ 0 < w.left ∧ ∃ link, T.findChild w.current comp = some link ∧ T.isSymlink link = true ∧
        (rest = [] → follow = true) ∧ isAbsolute (T.target link) = true))

/-- A round from the subtree stays there exactly if it does not escape. -/
theorem under_round {w w'} (h : T.Round follow w w') (hu : T.Under d w.current) :
    T.Under d w'.current ↔ ¬Escapes T follow d w := by
  by_cases hroot : d = T.root
  · subst hroot
    exact iff_of_true (Tree.root_above _) fun he => he.1 rfl
  cases h with
  | @advance left current comp rest next hturn =>
    rcases turn_advance hturn with ⟨hdots, hnext⟩ | ⟨hdots, hchild, hlink⟩
    · have hesc : Escapes T follow d ⟨left, current, comp :: rest⟩ ↔ current = d := by
        constructor
        · rintro ⟨-, c, r, hc, ⟨-, hd⟩ | ⟨hne, -⟩⟩
          · exact hd
          · obtain ⟨rfl, -⟩ := List.cons.inj hc
            exact absurd hdots hne
        · exact fun hd => ⟨hroot, comp, rest, rfl, .inl ⟨hdots, hd⟩⟩
      rw [hesc]
      -- the root of the tree has no parent, but it is not in the subtree
      obtain ⟨m, hm⟩ := T.parent_of_ne current fun heq => hroot (Tree.under_root_iff.1 (heq ▸ hu))
      rw [hm] at hnext
      rw [hnext]
      exact hu.parent_iff hm
    · have hparent := ((T.findChild_iff _ _ _).1 hchild).1
      refine iff_of_true (hu.child hparent) ?_
      rintro ⟨-, c, r, hc, ⟨hdots', -⟩ | ⟨-, -, link, hfind, hsym, hfollow, -⟩⟩
      · obtain ⟨rfl, -⟩ := List.cons.inj hc
        exact hdots hdots'
      · obtain ⟨rfl, rfl⟩ := List.cons.inj hc
        cases hchild.symm.trans hfind
        obtain ⟨hlast, hno⟩ := hlink hsym
        rw [hfollow (List.isEmpty_iff.1 hlast)] at hno
        cases hno
  | @expand left current comp rest start target hturn =>
    obtain ⟨hdots, link, hchild, hsym, hlast, hstart⟩ := turn_expand hturn
    by_cases habs : isAbsolute (T.target link) = true
    · rw [if_pos habs] at hstart
      subst hstart
      refine iff_of_false (fun hd => hroot (Tree.under_root_iff.1 hd)) (not_not.2 ?_)
      refine ⟨hroot, comp, rest, rfl, .inr ⟨hdots, Nat.succ_pos _, link, hchild, hsym, ?_, habs⟩⟩
      exact fun hr => hlast (List.isEmpty_iff.2 hr)
    · rw [if_neg habs] at hstart
      subst hstart
      refine iff_of_true hu ?_
      rintro ⟨-, c, r, hc, ⟨hdots', -⟩ | ⟨-, -, link', hfind, -, -, habs'⟩⟩
      · obtain ⟨rfl, -⟩ := List.cons.inj hc
        exact hdots hdots'
      · obtain ⟨rfl, rfl⟩ := List.cons.inj hc
        cases hchild.symm.trans hfind
        exact habs habs'

variable (T) in
/-- The state in which the lookup of a path from `s` begins. -/
def firstRound (s : ν) (path : Path) : Walk ν :=
  ⟨maxSymlinkDepth, if isAbsolute path then T.root else s, components path⟩

theorem rounds_of_findTree {e} (h : T.findTree s path follow = .ok e) :
    ∃ left, ReflTransGen (T.Round follow) (firstRound T s path) ⟨left, e, []⟩ := by
  rw [findTree] at h
  split at h
  case isTrue hnil =>
    obtain rfl := Except.ok.inj h
    subst hnil
    exact ⟨maxSymlinkDepth, .refl⟩
  case isFalse => exact rounds_of_walk h

variable (T) in
/-- The path is relative, unless the whole tree is allowed, and none of the rounds escapes. -/
def Confined (follow : Bool) (d s : ν) (path : Path) : Prop :=
  (d = T.root ∨ isAbsolute path = false) ∧
    ∀ w, ReflTransGen (T.Round follow) (firstRound T s path) w → ¬Escapes T follow d w

theorem Confined.under (h : Confined T follow d s path) (hs : isAbsolute path = false → T.Under d s)
    {w} (hw : ReflTransGen (T.Round follow) (firstRound T s path) w) :
    T.Under d w.current := by
  induction hw with
  | refl =>
    rcases h.1 with rfl | hrel
    · exact Tree.root_above _
    · simp only [firstRound, hrel]
      exact hs hrel
  | tail hpre hlast ih => exact (under_round hlast ih).2 (h.2 _ hpre)

/-- The first round that escapes leads out of the subtree. -/
theorem confined_of_under
    (h : ∀ w, ReflTransGen (T.Round follow) (firstRound T s path) w → T.Under d w.current)
    (hleave : ∀ w, ReflTransGen (T.Round follow) (firstRound T s path) w → Escapes T follow d w →
      ∃ w', T.Round follow w w') : Confined T follow d s path := by
  refine ⟨?_, fun w hw he => ?_⟩
  · by_cases habs : isAbsolute path = true
    · left
      have hroot := h _ .refl
      rw [firstRound, habs] at hroot
      exact Tree.under_root_iff.1 hroot
    · right
      simpa using habs
  · obtain ⟨w', hround⟩ := hleave w hw he
    exact (under_round hround (h w hw)).1 (h w' (hw.tail hround)) he

/-- A round that escapes takes place. -/
theorem Escapes.round {w} (h : Escapes T follow d w) : ∃ w', T.Round follow w w' := by
  obtain ⟨left, current, comps⟩ := w
  obtain ⟨-, comp, rest, hc, ⟨hdots, -⟩ | ⟨hdots, hleft, link, hchild, hsym, hfollow, habs⟩⟩ := h
  · subst hc
    refine ⟨⟨left, (T.parent current).getD current, rest⟩, .advance ?_⟩
    rw [turn, if_pos hdots]
  · subst hc
    obtain ⟨k, rfl⟩ : ∃ k, left = k + 1 := ⟨left - 1, by have : 0 < left := hleft; omega⟩
    refine ⟨⟨k, T.root, components (T.target link) ++ rest⟩, .expand ?_⟩
    have hno : (rest.isEmpty && !follow) = false := by
      cases hr : rest with
      | nil => simp [hfollow hr]
      | cons _ _ => rfl
    have hchild' : T.findChild current comp = some link := hchild
    simp only [turn, if_neg hdots, hchild', hsym, if_true, hno, habs]
    rfl

/-- For a process with everything in the subtree of `d`: a lookup that is confined to it finds a dentry there;
a lookup that is not leaves it on its way. -/
theorem resolve_confined (hp : p.Within T d) (hs : p.origin T l = some s) :
    (Confined T l.follow d s l.path → ∀ e, p.resolve T l = some (.ok e) → T.Under d e) ∧
    (Confined T l.follow d s l.path ↔
      ∀ w, ReflTransGen (T.Round l.follow) (firstRound T s l.path) w → T.Under d w.current) := by
  refine ⟨fun h e he => ?_, fun h w => h.under (hp.origin hs), fun h => confined_of_under h fun _ _ => Escapes.round⟩
  rw [Proc.resolve_eq hp.dir, hs, Option.map_some] at he
  obtain ⟨left, hrounds⟩ := rounds_of_findTree (Option.some.inj he)
  exact h.under (hp.origin hs) hrounds

end

/-! ## A tree with a jail -/

/-- `/jail`, with the directory `/jail/s`, the file `/jail/f` and the links `/jail/l` to `/etc` and `/jail/r` to `f`, and
`/etc`. -/
inductive Node where
  | root
  | jail
  | etc
  | sub
  | file
  | link
  | rel
deriving DecidableEq

namespace Node

def parent : Node → Option Node
  | root => none
  | jail | etc => some root
  | sub | file | link | rel => some jail

def name : Node → Name
  | root => ['/']
  | jail => "jail".toList
  | etc => "etc".toList
  | sub => ['s']
  | file => ['f']
  | link => ['l']
  | rel => ['r']

def findChild (m : Node) (c : Name) : Option Node :=
  [root, jail, etc, sub, file, link, rel].find? fun n => n.parent = some m ∧ n.name = c

def dentries : Dentries Node where
  root := root
  parent := parent
  name := name
  findChild := findChild
  mode
    | root | jail | etc | sub => 0o040755
    | file => 0o100644
    | link | rel => 0o120777
  target
    | link => "/etc".toList
    | rel => ['f']
    | _ => []

theorem findChild_iff (m : Node) (c : Name) (n : Node) : m.findChild c = some n ↔ n.parent = some m ∧ n.name = c := by
  constructor
  · intro h
    simpa using List.find?_some h
  · rintro ⟨hp, rfl⟩
    cases n <;> cases hp <;> decide

theorem valid (n : Node) (h : n ≠ root) : ValidName n.name := by
  cases n
  · exact absurd rfl h
  all_goals exact ⟨by decide, by decide, by decide, by decide⟩

def tree : Tree Node where
  toDentries := dentries
  rank
    | root => 0
    | jail | etc => 1
    | sub | file | link | rel => 2
  parent_root := rfl
  parent_of_ne n hn := by
    cases n
    case root => exact absurd rfl hn
    all_goals exact ⟨_, rfl⟩
  rank_parent n m h := by
    cases n <;> cases h <;> decide
  findChild_iff := findChild_iff
  valid n m h := by
    refine n.valid ?_
    rintro rfl
    cases h
  dir n m h := by
    cases n <;> cases h <;> rfl

/-- Root's process, before and after `chroot("/jail")`. -/
def free : Proc Node := ⟨0, .new root root, fun _ => none⟩

def jailed : Proc Node := ⟨0, .new jail jail, fun _ => none⟩

theorem jailed_within : jailed.Within tree jail := by
  refine ⟨.refl, rfl, ?_⟩
  intro fd n h
  cases h

theorem not_under_jail {n} (h : tree.rank n ≤ 1) (hn : n ≠ jail) : ¬tree.Under jail n := by
  intro hu
  rcases ReflTransGen.cases_head hu with heq | ⟨m, hm, hmu⟩
  · exact hn heq
  · have := Tree.Under.rank_le hmu
    have hlt := tree.rank_parent n m hm
    have hjail : tree.rank jail = 1 := rfl
    omega

/-- The rounds of the lookup of `s/../r` in the jail. -/
def rounds : List (Walk Node) :=
  [⟨8, jail, [['s'], dotdot, ['r']]⟩, ⟨8, sub, [dotdot, ['r']]⟩, ⟨8, jail, [['r']]⟩, ⟨7, jail, [['f']]⟩, ⟨7, file, []⟩]

/-- A relative path with `..` below the jail and a relative link. -/
theorem resolve_confined_file :
    jailed.resolve tree ⟨atFdcwd, "s/../r".toList, true, true⟩ = some (.ok file) ∧ tree.Under jail file := by
  have hres : jailed.resolve tree ⟨atFdcwd, "s/../r".toList, true, true⟩ = some (.ok file) := by rfl
  obtain ⟨hunder, hconf⟩ := resolve_confined (l := ⟨atFdcwd, "s/../r".toList, true, true⟩) (s := jail) jailed_within rfl
  refine ⟨hres, hunder (hconf.2 fun w hw => ?_) file hres⟩
  have hmem : w ∈ rounds := by
    induction hw with
    | refl => exact .head _
    | tail _ hround ih =>
      simp only [rounds, List.mem_cons, List.not_mem_nil, or_false] at ih
      rcases ih with rfl | rfl | rfl | rfl | rfl
      · rcases hround with h | h <;> cases h
        exact .tail _ (.head _)
      · rcases hround with h | h <;> cases h
        exact .tail _ (.tail _ (.head _))
      · rcases hround with h | h <;> cases h
        exact .tail _ (.tail _ (.tail _ (.head _)))
      · rcases hround with h | h <;> cases h
        exact .tail _ (.tail _ (.tail _ (.tail _ (.head _))))
      · cases hround
  simp only [rounds, List.mem_cons, List.not_mem_nil, or_false] at hmem
  rcases hmem with rfl | rfl | rfl | rfl | rfl
  all_goals first | exact .refl | exact .single rfl

/-- The jailed process reaches `/etc` by its absolute path and through the link, and the root of the tree
by `..`. -/
theorem chroot_escaped : sysChroot dentries free "/jail".toList = .ok jailed ∧ jailed.Within tree jail ∧
    jailed.resolve tree ⟨atFdcwd, "/etc".toList, true, true⟩ = some (.ok etc) ∧
    jailed.resolve tree ⟨atFdcwd, ['l'], true, true⟩ = some (.ok etc) ∧ ¬tree.Under jail etc ∧
    jailed.resolve tree ⟨atFdcwd, dotdot, true, true⟩ = some (.ok root) ∧ ¬tree.Under jail root := by
  refine ⟨rfl, jailed_within, rfl, rfl, ?_, rfl, ?_⟩
  · exact not_under_jail (by decide) (by decide)
  · exact not_under_jail (by decide) (by decide)

end Node

end ShellCore.Fs
