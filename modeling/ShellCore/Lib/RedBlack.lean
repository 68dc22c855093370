import Mathlib.Data.List.Basic
import Mathlib.Tactic.Common

/-!
# Red-black trees with a focus

A tree is seen as a path from a focused subtree up to the root and the subtree itself. Left and right
are values, so an argument about one side is the argument about the other. `Bal` counts the black
nodes on every path down, `NoRedRed` forbids a red child of a red node; both are also stated for a
path, as what it takes of the subtree in its hole.
-/

namespace ShellCore

inductive Color where
  | red
  | black
deriving DecidableEq

inductive Side where
  | left
  | right
deriving DecidableEq

def Side.other : Side → Side
  | .left => .right
  | .right => .left

theorem Side.eq_other_of_ne {r s : Side} (h : r ≠ s) : r = s.other := by
  cases r <;> cases s <;> first | rfl | exact absurd rfl h

inductive Tree (α : Type*) where
  | nil
  | node (color : Color) (l : Tree α) (x : α) (r : Tree α)

namespace Tree

variable {α : Type*} {s : Side} {c d : Color} {a b t u : Tree α} {x y : α} {n N : Nat}

/-- The tree with `a` on side `s` and `b` on the other side. -/
def join (s : Side) (c : Color) (a : Tree α) (x : α) (b : Tree α) : Tree α :=
  match s with
  | .left => node c a x b
  | .right => node c b x a

/-- Every node can be read from either side. -/
theorem node_eq_join (s : Side) (c : Color) (l : Tree α) (x : α) (r : Tree α) :
    ∃ a b, node c l x r = join s c a x b := by
  cases s with
  | left => exact ⟨l, r, rfl⟩
  | right => exact ⟨r, l, rfl⟩

/-- A node read from one side can be read from the other. -/
theorem join_eq_join (r s : Side) (c : Color) (a : Tree α) (x : α) (b : Tree α) :
    ∃ a' b', join r c a x b = join s c a' x b' ∧ (a' = a ∧ b' = b ∨ a' = b ∧ b' = a) := by
  by_cases h : r = s
  · exact ⟨a, b, by rw [h], .inl ⟨rfl, rfl⟩⟩
  · refine ⟨b, a, ?_, .inr ⟨rfl, rfl⟩⟩
    rw [Side.eq_other_of_ne h]
    cases s <;> rfl

theorem join_other : join s.other c a x b = join s c b x a := by cases s <;> rfl

/-- The color of the root; a leaf is black. -/
def color : Tree α → Color
  | nil => .black
  | node c _ _ _ => c

@[simp] theorem color_nil : (nil : Tree α).color = .black := rfl

@[simp] theorem color_join : (join s c a x b).color = c := by cases s <;> rfl

/-- The label at the root. -/
def top : Tree α → Option α
  | nil => none
  | node _ _ x _ => some x

@[simp] theorem top_nil : (nil : Tree α).top = none := rfl

@[simp] theorem top_join : (join s c a x b).top = some x := by cases s <;> rfl

/-- The labels in order. -/
def entries : Tree α → List α
  | nil => []
  | node _ l x r => l.entries ++ x :: r.entries

@[simp] theorem entries_nil : (nil : Tree α).entries = [] := rfl

/-- The labels around one, in order. -/
def around (s : Side) (l : List α) (x : α) (r : List α) : List α :=
  match s with
  | .left => l ++ x :: r
  | .right => r ++ x :: l

@[simp] theorem entries_join : (join s c a x b).entries = around s a.entries x b.entries := by cases s <;> rfl

@[simp] theorem mem_around {l r z} : z ∈ around s l x r ↔ z ∈ l ∨ z = x ∨ z ∈ r := by
  cases s <;> simp only [around, List.mem_append, List.mem_cons]
  tauto

/-- Turning three subtrees over keeps the order. -/
theorem around_around {l m r} : around s (around s l x m) y r = around s l x (around s m y r) := by
  cases s <;> simp [around]

/-- Every path down from the root meets `n` black nodes. -/
def Bal : Tree α → Nat → Prop
  | nil, n => n = 0
  | node .red l _ r, n => l.Bal n ∧ r.Bal n
  | node .black l _ r, n => ∃ m, n = m + 1 ∧ l.Bal m ∧ r.Bal m

@[simp] theorem bal_nil : (nil : Tree α).Bal n ↔ n = 0 := Iff.rfl

@[simp] theorem bal_join_red : (join s .red a x b).Bal n ↔ a.Bal n ∧ b.Bal n := by
  cases s
  · exact Iff.rfl
  · exact and_comm

theorem bal_join_black : (join s .black a x b).Bal n ↔ ∃ m, n = m + 1 ∧ a.Bal m ∧ b.Bal m := by
  cases s
  · exact Iff.rfl
  · exact exists_congr fun m => and_congr_right fun _ => and_comm

@[simp] theorem bal_join_black_succ : (join s .black a x b).Bal (n + 1) ↔ a.Bal n ∧ b.Bal n := by
  rw [bal_join_black]
  exact ⟨fun ⟨m, hm, h⟩ => Nat.succ.inj hm ▸ h, fun h => ⟨n, rfl, h⟩⟩

theorem bal_join : (join s c a x b).Bal (if c = .black then n + 1 else n) ↔ a.Bal n ∧ b.Bal n := by
  cases c
  · exact bal_join_red
  · exact bal_join_black_succ

/-- A red node has no red child. -/
def NoRedRed : Tree α → Prop
  | nil => True
  | node c l _ r => (c = .red → l.color = .black ∧ r.color = .black) ∧ l.NoRedRed ∧ r.NoRedRed

@[simp] theorem noRedRed_nil : (nil : Tree α).NoRedRed := trivial

@[simp] theorem noRedRed_join :
    (join s c a x b).NoRedRed ↔ (c = .red → a.color = .black ∧ b.color = .black) ∧ a.NoRedRed ∧ b.NoRedRed := by
  cases s
  · exact Iff.rfl
  · simp only [join, NoRedRed, and_comm]

/-- A black subtree of positive height is a node. -/
theorem exists_join_of_bal (s : Side) (h : t.Bal (n + 1)) : ∃ c a x b, t = join s c a x b := by
  cases t with
  | nil => cases h
  | node c l x r =>
    obtain ⟨a, b, hab⟩ := node_eq_join s c l x r
    exact ⟨c, a, x, b, hab⟩

/-- A red tree is a node. -/
theorem exists_join_of_red (s : Side) (h : t.color = .red) : ∃ a x b, t = join s .red a x b := by
  cases t with
  | nil => cases h
  | node c l x r =>
    obtain ⟨a, b, hab⟩ := node_eq_join s c l x r
    obtain rfl : c = .red := h
    exact ⟨a, x, b, hab⟩

/-- A subtree with a black root in which nothing is wrong. -/
structure Sound (t : Tree α) (n : Nat) : Prop where
  bal : t.Bal n
  noRedRed : t.NoRedRed
  color : t.color = .black

/-- The invariant of a whole tree. -/
structure IsRedBlack (t : Tree α) : Prop where
  color : t.color = .black
  noRedRed : t.NoRedRed
  bal : ∃ n, t.Bal n

/-- The tree with a black root. -/
def blacken : Tree α → Tree α
  | nil => nil
  | node _ l x r => node .black l x r

@[simp] theorem blacken_join : (join s c a x b).blacken = join s .black a x b := by cases s <;> rfl

@[simp] theorem entries_blacken : t.blacken.entries = t.entries := by cases t <;> rfl

theorem blacken_eq (h : t.color = .black) : t.blacken = t := by
  cases t with
  | nil => rfl
  | node c l x r =>
    obtain rfl : c = .black := h
    rfl

theorem NoRedRed.blacken (h : t.NoRedRed) : t.blacken.NoRedRed := by
  cases t with
  | nil => trivial
  | node c l x r => exact ⟨nofun, h.2⟩

theorem isRedBlack_blacken (ht : t.NoRedRed) (hn : t.Bal n) : t.blacken.IsRedBlack := by
  cases t with
  | nil => exact ⟨rfl, ht, n, hn⟩
  | node c l x r =>
    refine ⟨rfl, ⟨nofun, ht.2⟩, ?_⟩
    cases c with
    | red => exact ⟨n + 1, n, rfl, hn⟩
    | black => exact ⟨n, hn⟩

/-- Blackening a red subtree adds one black node. -/
theorem sound_blacken_of_red (hc : t.color = .red) (hn : t.Bal n) (ht : t.blacken.NoRedRed) :
    t.blacken.Sound (n + 1) := by
  cases t with
  | nil => cases hc
  | node c l x r =>
    obtain rfl : c = .red := hc
    exact ⟨⟨n, rfl, hn⟩, ht, rfl⟩

end Tree

/-- A node whose child on `side` is the hole. -/
structure Tree.Frame (α : Type*) where
  side : Side
  color : Color
  label : α
  sibling : Tree α

/-- The way from a hole up to the root, innermost node first. -/
abbrev Tree.Path (α : Type*) := List (Tree.Frame α)

namespace Tree.Path

variable {α : Type*} {path : Path α} {f : Frame α} {t u : Tree α} {n N : Nat} {c : Color}

/-- The tree with `t` in the hole. -/
def plug : Path α → Tree α → Tree α
  | [], t => t
  | f :: rest, t => plug rest (join f.side f.color t f.label f.sibling)

@[simp] theorem plug_nil : plug [] t = t := rfl

@[simp] theorem plug_cons : plug (f :: path) t = plug path (join f.side f.color t f.label f.sibling) := rfl

/-- The labels in front of the hole and behind it. -/
def before : Path α → List α
  | [] => []
  | f :: rest => before rest ++ match f.side with
    | .left => []
    | .right => f.sibling.entries ++ [f.label]

def after : Path α → List α
  | [] => []
  | f :: rest => (match f.side with
    | .left => f.label :: f.sibling.entries
    | .right => []) ++ after rest

theorem entries_plug : (plug path t).entries = before path ++ t.entries ++ after path := by
  induction path generalizing t with
  | nil => simp [before, after]
  | cons f rest ih =>
    rw [plug_cons, ih, entries_join]
    obtain ⟨side, c, x, sib⟩ := f
    cases side <;> simp [before, after, around]

/-- The tree is balanced with `N` black nodes if a subtree with `n` is put into the hole. -/
def Bal : Path α → Nat → Nat → Prop
  | [], n, N => n = N
  | f :: rest, n, N => f.sibling.Bal n ∧ Bal rest (if f.color = .black then n + 1 else n) N

/-- The tree has no red child of a red node if a subtree with a root of color `c` is put into the hole. -/
def NoRedRed : Path α → Color → Prop
  | [], _ => True
  | f :: rest, c => (f.color = .red → c = .black ∧ f.sibling.color = .black) ∧ f.sibling.NoRedRed ∧
    NoRedRed rest f.color

/-- The color of the root if a subtree with a root of color `c` is put into the hole. -/
def topColor : Path α → Color → Color
  | [], c => c
  | f :: rest, _ => topColor rest f.color

theorem color_plug : (plug path t).color = topColor path t.color := by
  induction path generalizing t with
  | nil => rfl
  | cons f rest ih => rw [plug_cons, ih, color_join, topColor]

/-- What the path owes to a red subtree of `n` black nodes that is about to turn black. -/
structure Rising (path : Path α) (n N : Nat) : Prop where
  bal : Bal path n N
  noRedRed : NoRedRed path .black
  top : topColor path .black = .black

theorem bal_plug (hp : Bal path n N) (ht : t.Bal n) : (plug path t).Bal N := by
  induction path generalizing t n with
  | nil =>
    obtain rfl : n = N := hp
    exact ht
  | cons f rest ih =>
    refine ih hp.2 ?_
    cases hc : f.color
    · exact bal_join_red.2 ⟨ht, hp.1⟩
    · exact bal_join_black_succ.2 ⟨ht, hp.1⟩

theorem noRedRed_plug (hp : NoRedRed path t.color) (ht : t.NoRedRed) : (plug path t).NoRedRed := by
  induction path generalizing t with
  | nil => exact ht
  | cons f rest ih =>
    refine ih ?_ (noRedRed_join.2 ⟨hp.1, ht, hp.2.1⟩)
    rw [color_join]
    exact hp.2.2

/-- A black subtree fits wherever a red one does. -/
theorem NoRedRed.black (h : NoRedRed path c) : NoRedRed path .black := by
  cases path with
  | nil => trivial
  | cons f rest => exact ⟨fun hf => ⟨rfl, (h.1 hf).2⟩, h.2⟩

theorem exists_bal_of_plug (h : (plug path t).Bal N) : ∃ n, t.Bal n ∧ Bal path n N := by
  induction path generalizing t with
  | nil => exact ⟨N, h, rfl⟩
  | cons f rest ih =>
    obtain ⟨n, hn, hp⟩ := ih h
    cases hc : f.color with
    | red =>
      rw [hc] at hn
      obtain ⟨ht, hs⟩ := bal_join_red.1 hn
      exact ⟨n, ht, hs, by rwa [hc, if_neg nofun]⟩
    | black =>
      rw [hc] at hn
      obtain ⟨m, rfl, ht, hs⟩ := bal_join_black.1 hn
      exact ⟨m, ht, hs, by rwa [hc, if_pos rfl]⟩

theorem noRedRed_of_plug (h : (plug path t).NoRedRed) : t.NoRedRed ∧ NoRedRed path t.color := by
  induction path generalizing t with
  | nil => exact ⟨h, trivial⟩
  | cons f rest ih =>
    obtain ⟨hn, hp⟩ := ih h
    obtain ⟨hred, ht, hs⟩ := noRedRed_join.1 hn
    rw [color_join] at hp
    exact ⟨ht, hred, hs, hp⟩

/-- Where a red subtree fits, every subtree does. -/
theorem NoRedRed.any (h : NoRedRed path .red) (c : Color) : NoRedRed path c := by
  cases path with
  | nil => trivial
  | cons f rest => exact ⟨fun hf => absurd (h.1 hf).1 (by decide), h.2⟩

@[simp] theorem plug_append {inner} : plug (inner ++ path) t = plug path (plug inner t) := by
  induction inner generalizing t with
  | nil => rfl
  | cons f rest ih => rw [List.cons_append, plug_cons, plug_cons, ih]

@[simp] theorem before_append {inner} : before (inner ++ path) = before path ++ before inner := by
  induction inner with
  | nil => simp [before]
  | cons f rest ih => simp [before, ih]

section Relabel

variable {inner : Path α} {s : Side} {b : Tree α} {d : Color} {x y : α}

/-- Balance does not depend on the labels of a path. -/
theorem Bal.relabel (h : Bal (inner ++ ⟨s, d, x, b⟩ :: path) n N) : Bal (inner ++ ⟨s, d, y, b⟩ :: path) n N := by
  induction inner generalizing n with
  | nil => exact h
  | cons f rest ih => exact ⟨h.1, ih h.2⟩

theorem NoRedRed.relabel (h : NoRedRed (inner ++ ⟨s, d, x, b⟩ :: path) c) :
    NoRedRed (inner ++ ⟨s, d, y, b⟩ :: path) c := by
  induction inner generalizing c with
  | nil => exact h
  | cons f rest ih => exact ⟨h.1, h.2.1, ih h.2.2⟩

theorem topColor_relabel : topColor (inner ++ ⟨s, d, y, b⟩ :: path) c = topColor (inner ++ ⟨s, d, x, b⟩ :: path) c := by
  induction inner generalizing c with
  | nil => rfl
  | cons f rest ih => exact ih

end Relabel

theorem length_le_labels : path.length ≤ (before path).length + (after path).length := by
  induction path with
  | nil => exact Nat.zero_le _
  | cons f rest ih =>
    obtain ⟨side, c, x, sib⟩ := f
    cases side <;> simp only [before, after, List.length_append, List.length_cons, List.length_nil] <;> omega

theorem length_le_entries : path.length ≤ (plug path t).entries.length := by
  have : path.length ≤ (before path).length + (after path).length := length_le_labels
  rw [entries_plug]
  simp only [List.length_append]
  omega

end Tree.Path

end ShellCore
