import ShellCore.Fs.Path

/-!
# The tree of dentries

A dentry knows its parent and finds its children by name. `find_tree` follows a path component by component and
puts the target of a symbolic link in front of the components that are left; how often it does that is bounded.
-/

namespace ShellCore.Fs

open Relation

def modeFormat : UInt32 := 0o170000

def modeDir : UInt32 := 0o040000

def modeLink : UInt32 := 0o120000

/-- The dentries as a lookup sees them. -/
structure Dentries (ν : Type) where
  root : ν
  parent : ν → Option ν
  name : ν → Name
  findChild : ν → Name → Option ν
  /-- `st_mode` of the inode. -/
  mode : ν → UInt32
  /-- The contents of a symbolic link. -/
  target : ν → Path

/-- The errors 0, 1 and 2 of `find_tree`. -/
inductive PathError where
  | loop
  | notDir
  | missing
deriving DecidableEq

/-- What becomes of one component. -/
inductive Turn (ν : Type) where
  | advance (next : ν)
  /-- The components of a link's target go in front of the others. -/
  | expand (start : ν) (target : List Name)
  | fail (e : PathError)

def maxSymlinkDepth : Nat := 8

namespace Dentries

variable {ν : Type} (T : Dentries ν)

def isSymlink (n : ν) : Bool := T.mode n &&& modeFormat == modeLink

def isDir (n : ν) : Bool := T.mode n &&& modeFormat == modeDir

variable {T} in
theorem not_symlink_of_dir {n : ν} (h : T.isDir n = true) : T.isSymlink n = false := by
  rw [isDir, beq_iff_eq] at h
  rw [isSymlink, h]
  decide

/-- One round of the loop of `find_tree`; `last` if no component is left after this one. -/
def turn (follow : Bool) (current : ν) (comp : Name) (last : Bool) : Turn ν :=
  if comp = dotdot then .advance ((T.parent current).getD current)
  else
    match T.findChild current comp with
    | none => .fail .missing
    | some next =>
      if T.isSymlink next then
        if last && !follow then .advance next
        else .expand (if isAbsolute (T.target next) then T.root else current) (components (T.target next))
      else if !T.isDir next && !last then .fail .notDir
      else .advance next

/-- The loop up to the first link that is followed. -/
def walkWith (follow : Bool) (expand : ν → List Name → Except PathError ν) : ν → List Name → Except PathError ν
  | current, [] => .ok current
  | current, comp :: rest =>
    match T.turn follow current comp rest.isEmpty with
    | .advance next => walkWith follow expand next rest
    | .expand start target => expand start (target ++ rest)
    | .fail e => .error e

/-- The loop, while `left` more links may be followed. -/
def walk (follow : Bool) : Nat → ν → List Name → Except PathError ν
  | 0 => T.walkWith follow fun _ _ => .error .loop
  | left + 1 => T.walkWith follow (walk follow left)

def findTree (start : ν) (path : Path) (follow : Bool) : Except PathError ν :=
  if path = [] then .ok start
  else T.walk follow maxSymlinkDepth (if isAbsolute path then T.root else start) (components path)

/-! ## The rounds of a lookup -/

/-- The state of the loop: how many links may still be followed, the dentry and the components that are left. -/
structure Walk (ν : Type) where
  left : Nat
  current : ν
  comps : List Name

inductive Round (T : Dentries ν) (follow : Bool) : Walk ν → Walk ν → Prop
  | advance {left current comp rest next} (h : T.turn follow current comp rest.isEmpty = .advance next) :
      Round T follow ⟨left, current, comp :: rest⟩ ⟨left, next, rest⟩
  | expand {left current comp rest start target} (h : T.turn follow current comp rest.isEmpty = .expand start target) :
      Round T follow ⟨left + 1, current, comp :: rest⟩ ⟨left, start, target ++ rest⟩

variable {T} {follow : Bool} {left : Nat} {current next d : ν} {comp : Name} {rest : List Name}

theorem turn_advance {last} (h : T.turn follow current comp last = .advance next) :
    (comp = dotdot ∧ next = (T.parent current).getD current) ∨
      (comp ≠ dotdot ∧ T.findChild current comp = some next ∧ (T.isSymlink next = true → last = true ∧ follow = false)) := by
  unfold turn at h
  split at h
  case isTrue hdots => exact .inl ⟨hdots, (Turn.advance.inj h).symm⟩
  case isFalse hdots =>
    right
    split at h
    · cases h
    · rename_i n hn
      split_ifs at h with hlink hlast hdir
      · obtain rfl := Turn.advance.inj h
        exact ⟨hdots, hn, fun _ => by simpa using hlast⟩
      · obtain rfl := Turn.advance.inj h
        exact ⟨hdots, hn, fun hl => absurd hl hlink⟩

theorem turn_expand {last start target}
    (h : T.turn follow current comp last = .expand start target) :
    comp ≠ dotdot ∧ ∃ link, T.findChild current comp = some link ∧ T.isSymlink link = true ∧ (last = true → follow = true) ∧
      start = if isAbsolute (T.target link) then T.root else current := by
  unfold turn at h
  split at h
  case isTrue => cases h
  case isFalse hdots =>
    refine ⟨hdots, ?_⟩
    split at h
    · cases h
    · rename_i n hn
      split_ifs at h with hlink hlast habs
      · obtain ⟨rfl, -⟩ := Turn.expand.inj h
        exact ⟨n, hn, hlink, by simpa using hlast, (if_pos habs).symm⟩
      · obtain ⟨rfl, -⟩ := Turn.expand.inj h
        exact ⟨n, hn, hlink, by simpa using hlast, (if_neg habs).symm⟩

@[simp] theorem walk_nil : T.walk follow left current [] = .ok current := by
  cases left <;> rfl

theorem walk_advance (h : T.turn follow current comp rest.isEmpty = .advance next) :
    T.walk follow left current (comp :: rest) = T.walk follow left next rest := by
  cases left <;> simp only [walk, walkWith, h]

/-- What a lookup finds is where its last round has led to. -/
theorem rounds_of_walk {comps} (h : T.walk follow left current comps = .ok d) :
    ∃ left', ReflTransGen (T.Round follow) ⟨left, current, comps⟩ ⟨left', d, []⟩ := by
  -- the links that may be followed, and for each number of them the components
  induction left generalizing current comps with
  | zero =>
    induction comps generalizing current with
    | nil =>
      rw [walk_nil] at h
      obtain rfl := Except.ok.inj h
      exact ⟨0, .refl⟩
    | cons comp rest ih =>
      simp only [walk, walkWith] at h
      split at h
      · rename_i next hturn
        obtain ⟨left', hsteps⟩ := ih h
        exact ⟨left', .head (.advance hturn) hsteps⟩
      · cases h
      · cases h
  | succ left ihleft =>
    induction comps generalizing current with
    | nil =>
      rw [walk_nil] at h
      obtain rfl := Except.ok.inj h
      exact ⟨left + 1, .refl⟩
    | cons comp rest ih =>
      simp only [walk, walkWith] at h
      split at h
      · rename_i next hturn
        obtain ⟨left', hsteps⟩ := ih h
        exact ⟨left', .head (.advance hturn) hsteps⟩
      · rename_i start target hturn
        obtain ⟨left', hsteps⟩ := ihleft h
        exact ⟨left', .head (.expand hturn) hsteps⟩
      · cases h

end Dentries

/-- The dentries form a tree: each but the root is the child of its parent under its own name. -/
structure Tree (ν : Type) extends Dentries ν where
  rank : ν → Nat
  parent_root : parent root = none
  parent_of_ne : ∀ n, n ≠ root → ∃ m, parent n = some m
  rank_parent : ∀ n m, parent n = some m → rank m < rank n
  findChild_iff : ∀ m c n, findChild m c = some n ↔ parent n = some m ∧ name n = c
  valid : ∀ n m, parent n = some m → ValidName (name n)
  dir : ∀ n m, parent n = some m → toDentries.isDir m = true

namespace Tree

variable {ν : Type} (T : Tree ν)

/-- `n` lies in the subtree of `d`. -/
def Under (d n : ν) : Prop := ReflTransGen (fun a b => T.parent a = some b) n d

variable {T} {d n m : ν}

theorem Under.rank_le (h : T.Under d n) : T.rank d ≤ T.rank n := by
  induction h with
  | refl => exact Nat.le_refl _
  | tail _ hlast ih => exact (T.rank_parent _ _ hlast).le.trans ih

theorem under_root_iff : T.Under d T.root ↔ d = T.root := by
  constructor
  · intro h
    rcases ReflTransGen.cases_head h with heq | ⟨m, hm, -⟩
    · exact heq.symm
    · cases T.parent_root.symm.trans hm
  · rintro rfl
    exact .refl

/-- Everything lies in the subtree of the root. -/
theorem root_above (n : ν) : T.Under T.root n := by
  induction hr : T.rank n using Nat.strong_induction_on generalizing n with
  | _ r ih =>
    by_cases hn : n = T.root
    · subst hn
      exact .refl
    · obtain ⟨m, hm⟩ := T.parent_of_ne n hn
      have hlt := T.rank_parent n m hm
      exact .head hm (ih (T.rank m) (hr ▸ hlt) m rfl)

theorem Under.child (h : T.Under d n) (hm : T.parent m = some n) : T.Under d m := .head hm h

theorem Under.parent_iff (h : T.Under d n) (hm : T.parent n = some m) : T.Under d m ↔ n ≠ d := by
  constructor
  · rintro hd rfl
    have := hd.rank_le
    have := T.rank_parent n m hm
    omega
  · intro hne
    rcases ReflTransGen.cases_head h with heq | ⟨m', hm', hd⟩
    · exact absurd heq hne
    · cases hm.symm.trans hm'
      exact hd

/-! ## The full path -/

variable (T) in
/-- The names from the root to `n`, as `get_full_path` collects them; `fuel` bounds the way up. -/
def partsFrom : Nat → ν → List Name
  | 0, _ => []
  | fuel + 1, n =>
    match T.parent n with
    | some m => partsFrom fuel m ++ [T.name n]
    | none => []

variable (T) in
def parts (n : ν) : List Name := T.partsFrom (T.rank n) n

variable (T) in
def getFullPath (n : ν) : Path := joined (T.parts n)

theorem partsFrom_valid {fuel n s} (h : s ∈ T.partsFrom fuel n) : ValidName s := by
  induction fuel generalizing n with
  | zero => cases h
  | succ fuel ih =>
    rw [partsFrom] at h
    split at h
    · rename_i m hm
      rcases List.mem_append.1 h with h | h
      · exact ih h
      · obtain rfl := List.mem_singleton.1 h
        exact T.valid n m hm
    · cases h

/-- A step down to a directory. -/
theorem turn_child {follow last} (hm : T.parent n = some m) (hn : T.isDir n = true) :
    T.turn follow m (T.name n) last = .advance n := by
  have hchild := (T.findChild_iff m (T.name n) n).2 ⟨hm, rfl⟩
  simp [Dentries.turn, (T.valid n m hm).ne_dotdot, hchild, Dentries.not_symlink_of_dir hn, hn]

variable {follow : Bool}

theorem walk_partsFrom {left fuel rest} (hfuel : T.rank n ≤ fuel) (hn : T.isDir n = true) :
    T.walk follow left T.root (T.partsFrom fuel n ++ rest) = T.walk follow left n rest := by
  induction fuel generalizing n rest with
  | zero =>
    have hroot : n = T.root := by
      by_contra hne
      obtain ⟨m, hm⟩ := T.parent_of_ne n hne
      have := T.rank_parent n m hm
      omega
    rw [hroot]
    rfl
  | succ fuel ih =>
    rw [partsFrom]
    split
    · rename_i m hm
      have hlt := T.rank_parent n m hm
      rw [List.append_assoc, ih (by omega) (T.dir n m hm)]
      exact Dentries.walk_advance (turn_child hm hn)
    · rename_i hnone
      have hroot : n = T.root := by
        by_contra hne
        obtain ⟨m, hm⟩ := T.parent_of_ne n hne
        cases hm.symm.trans hnone
      rw [hroot]
      rfl

/-- A lookup of the full path of a directory comes to the directory. -/
theorem walk_parts {left rest} (hn : T.isDir n = true) :
    T.walk follow left T.root (T.parts n ++ rest) = T.walk follow left n rest :=
  walk_partsFrom (Nat.le_refl _) hn

variable (T) in
/-- `normalize_leading_dot_path` for the working directory `pwd`. -/
def normalizeLeadingDotPath (pwd : ν) (path : Path) : Path :=
  if path.head? ≠ some '.' then path
  else if path = dot then T.getFullPath pwd
  else
    match path with
    | '.' :: '/' :: rest =>
      let cwd := T.getFullPath pwd
      if cwd.getLast? = some '/' then cwd ++ rest else cwd ++ '/' :: rest
    | _ => path

/-- `.` and the paths that begin with `./`. -/
def startsWithDot (path : Path) : Bool := path = dot || path.take 2 = ['.', '/']

variable {path : Path}

theorem startsWithDot_iff : startsWithDot path = true ↔ path = dot ∨ ∃ rest, path = '.' :: '/' :: rest := by
  rcases path with _ | ⟨a, _ | ⟨b, rest⟩⟩ <;> simp [startsWithDot, dot]

theorem normalize_of_not_startsWithDot {pwd} (h : startsWithDot path = false) :
    T.normalizeLeadingDotPath pwd path = path := by
  have hne : ¬(path = dot ∨ ∃ rest, path = '.' :: '/' :: rest) := by
    rw [← startsWithDot_iff, h]
    exact Bool.false_ne_true
  rw [not_or, not_exists] at hne
  rw [normalizeLeadingDotPath, if_neg hne.1, ite_self]
  exact hne.2

theorem normalize_dot {pwd} : T.normalizeLeadingDotPath pwd dot = joined (T.parts pwd) := rfl

theorem normalize_dot_slash {pwd : ν} {rest : Path} : T.normalizeLeadingDotPath pwd ('.' :: '/' :: rest) =
    if (joined (T.parts pwd)).getLast? = some '/' then joined (T.parts pwd) ++ rest
    else joined (T.parts pwd) ++ '/' :: rest := rfl

theorem isAbsolute_joined (parts : List Name) (rest : Path) : isAbsolute (joined parts ++ rest) = true := by
  cases parts with
  | nil | cons s parts => rfl

/-- The components of a normalised path are those of the working directory, followed by its own. -/
theorem components_normalize (pwd : ν) (h : startsWithDot path = true) :
    components (T.normalizeLeadingDotPath pwd path) = T.parts pwd ++ components path ∧
      isAbsolute (T.normalizeLeadingDotPath pwd path) = true := by
  have hfull : components (joined (T.parts pwd)) = T.parts pwd := components_joined fun s hs => partsFrom_valid hs
  rcases startsWithDot_iff.1 h with rfl | ⟨rest, rfl⟩
  · rw [normalize_dot, hfull, components_dot, List.append_nil]
    have habs := isAbsolute_joined (T.parts pwd) []
    rw [List.append_nil] at habs
    exact ⟨rfl, habs⟩
  · rw [components_dot_slash, normalize_dot_slash]
    split
    case isTrue hlast =>
      obtain ⟨pre, hpre⟩ := List.getLast?_eq_some_iff.1 hlast
      have hpre' : components pre = T.parts pwd := by
        have happ := components_append pre []
        rw [components_nil, List.append_nil] at happ
        rw [← happ, ← hpre, hfull]
      refine ⟨?_, isAbsolute_joined _ _⟩
      rw [hpre, List.append_assoc, List.singleton_append, components_append, hpre']
    case isFalse =>
      refine ⟨?_, isAbsolute_joined _ _⟩
      rw [components_append, hfull]

/-- A path that begins with a dot is looked up from the working directory. -/
theorem findTree_normalize {pwd start} (h : startsWithDot path = true) (hdir : T.isDir pwd = true) :
    T.findTree start (T.normalizeLeadingDotPath pwd path) follow = T.findTree pwd path follow := by
  obtain ⟨hcomp, habs⟩ := components_normalize (T := T) pwd h
  have hne : T.normalizeLeadingDotPath pwd path ≠ [] := by
    intro hnil
    rw [hnil] at habs
    cases habs
  obtain ⟨hne', habs'⟩ : path ≠ [] ∧ isAbsolute path = false := by
    rcases startsWithDot_iff.1 h with rfl | ⟨rest, rfl⟩
    · exact ⟨by decide, rfl⟩
    · exact ⟨by simp, rfl⟩
  rw [Dentries.findTree, if_neg hne, if_pos habs, hcomp, walk_parts hdir, Dentries.findTree, if_neg hne', habs']
  rfl

end Tree

end ShellCore.Fs
