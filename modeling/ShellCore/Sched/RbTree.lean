import Mathlib
import ShellCore.Lib.RedBlack

/-!
# The cached red-black tree of a run queue

Nodes live in an arena and name each other by their slots. A failed `unwrap`, `expect` or index is
`none`. The source writes every case twice, for the left and for the right; here a side is a
parameter, and the two rotations are the two values of one function. The loops carry fuel, and the
length of the arena is enough of it for every loop.
-/

namespace ShellCore.Sched

structure RbNode (K V : Type) where
  key : K
  value : V
  parent : Option Nat
  left : Option Nat
  right : Option Nat
  color : Color

structure RbRootCached (K V : Type) where
  root : Option Nat := none
  leftmost : Option Nat := none
  nodes : List (Option (RbNode K V)) := []
  -- the top of the stack comes first
  freeSlots : List Nat := []
  len : Nat := 0

namespace RbNode

variable {K V : Type}

def child (s : Side) (n : RbNode K V) : Option Nat :=
  match s with
  | .left => n.left
  | .right => n.right

def setChild (s : Side) (n : RbNode K V) (i : Option Nat) : RbNode K V :=
  match s with
  | .left => { n with left := i }
  | .right => { n with right := i }

end RbNode

namespace RbRootCached

variable {K V : Type}

def new : RbRootCached K V := {}

section

variable (t : RbRootCached K V)

def isEmpty : Bool := t.len == 0

/-- The node in a slot, if there is one. -/
def get (i : Nat) : Option (RbNode K V) := t.nodes[i]?.join

def first : Option V := (t.leftmost.bind t.get).map RbNode.value

def firstKey : Option K := (t.leftmost.bind t.get).map RbNode.key

/-- The color of a node; a missing one is black. -/
def color (i : Option Nat) : Color :=
  match i.bind t.get with
  | none => .black
  | some n => n.color

def parent (i : Nat) : Option (Option Nat) := (t.get i).map RbNode.parent

def child (s : Side) (t : RbRootCached K V) (i : Nat) : Option (Option Nat) := (t.get i).map (RbNode.child s)

variable (s : Side)

/-- `left_of` and `right_of`. -/
def childOf (t : RbRootCached K V) : Option Nat → Option (Option Nat)
  | none => some none
  | some i => t.child s i

/-- Writes one node in place. -/
def update (i : Nat) (f : RbNode K V → RbNode K V) : Option (RbRootCached K V) :=
  (t.get i).map fun n => { t with nodes := t.nodes.set i (some (f n)) }

def setChild (s : Side) (t : RbRootCached K V) (i : Nat) (new : Option Nat) : Option (RbRootCached K V) :=
  t.update i fun n => n.setChild s new

def setParent (i : Option Nat) (parent : Option Nat) : Option (RbRootCached K V) :=
  match i with
  | none => some t
  | some i => t.update i fun n => { n with parent }

def setColor (i : Option Nat) (color : Color) : Option (RbRootCached K V) :=
  match i with
  | none => some t
  | some i => t.update i fun n => { n with color }

/-- `minimum`, with the fuel of its loop. -/
def minimumLoop (t : RbRootCached K V) : Nat → Nat → Option Nat
  | 0, _ => none
  | fuel + 1, node => do
    match ← t.child .left node with
    | none => return node
    | some l => t.minimumLoop fuel l

variable (node : Nat)

def minimum : Option Nat := t.minimumLoop t.nodes.length node

/-- Lets the link that led to `node` lead to `new`: the part that `transplant` and the rotations
share. -/
def relink (parent : Option Nat) (node : Nat) (new : Option Nat) :
    Option (RbRootCached K V) :=
  match parent with
  | none => some { t with root := new }
  | some parent => do
    if (← t.child .left parent) = some node then t.setChild .left parent new else t.setChild .right parent new

def transplant (replacement : Option Nat) : Option (RbRootCached K V) := do
  let parent ← t.parent node
  let t ← t.relink parent node replacement
  t.setParent replacement parent

/-- The rotation towards `s`. -/
def rotate (t : RbRootCached K V) (node : Nat) : Option (RbRootCached K V) := do
  let pivot ← (← t.child s.other node)
  let inner ← t.child s pivot
  let t ← t.setChild s.other node inner
  let t ← t.setParent inner (some node)
  let parent ← t.parent node
  let t ← t.setParent (some pivot) parent
  let t ← t.relink parent node (some pivot)
  let t ← t.setChild s pivot (some node)
  t.setParent (some node) (some pivot)

def rotateLeft : Option (RbRootCached K V) := t.rotate .left node

def rotateRight : Option (RbRootCached K V) := t.rotate .right node

/-- The inner rotation of the repair after an insertion; the parent is the child on side `s` of the
grandparent. -/
def insertStraighten (t : RbRootCached K V) (node parent : Nat) : Option (RbRootCached K V × Nat) := do
  if (← t.child s.other parent) = some node then
    let t ← t.rotate s parent
    return (t, parent)
  else return (t, node)

/-- The outer rotation. -/
def insertTurn (t : RbRootCached K V) (node : Nat) : Option (RbRootCached K V) := do
  let parent ← (← t.parent node)
  let grandparent ← (← t.parent parent)
  let t ← t.setColor (some parent) .black
  let t ← t.setColor (some grandparent) .red
  t.rotate s.other grandparent

/-- One round of `insert_fixup` when the parent is the child on side `s` of the grandparent. -/
def insertFixupSide (t : RbRootCached K V) (node parent grandparent : Nat) :
    Option (RbRootCached K V × Nat) := do
  let uncle ← t.child s.other grandparent
  if t.color uncle = .red then
    let t ← t.setColor (some parent) .black
    let t ← t.setColor (some (← uncle)) .black
    let t ← t.setColor (some grandparent) .red
    return (t, grandparent)
  else
    let (t, node) ← t.insertStraighten s node parent
    let t ← t.insertTurn s node
    return (t, node)

def insertFixupLoop (t : RbRootCached K V) : Nat → Nat → Option (RbRootCached K V)
  | 0, _ => none
  | fuel + 1, node => do
    if t.color (← t.parent node) = .red then
      let parent ← (← t.parent node)
      let grandparent ← (← t.parent parent)
      let s := if (← t.child .left grandparent) = some parent then Side.left else .right
      let (t, node) ← t.insertFixupSide s node parent grandparent
      t.insertFixupLoop fuel node
    else t.setColor t.root .black

def insertFixup : Option (RbRootCached K V) :=
  t.insertFixupLoop (t.nodes.length + 1) node

/-- A red sibling is turned above the parent; returns the new sibling. The node is the child on side
`s` of the parent. -/
def raiseSibling (t : RbRootCached K V) (parent : Nat) : Option (RbRootCached K V × Option Nat) := do
  let sibling ← t.child s.other parent
  if t.color sibling = .red then
    let t ← t.setColor sibling .black
    let t ← t.setColor (some parent) .red
    let t ← t.rotate s parent
    return (t, ← t.child s.other parent)
  else return (t, sibling)

/-- A sibling whose far child is black has its near child turned above it; returns the new sibling. -/
def turnSibling (t : RbRootCached K V) (parent : Nat) (sibling : Option Nat) :
    Option (RbRootCached K V × Option Nat) := do
  if t.color (← t.childOf s.other sibling) = .black then
    let t ← t.setColor (← t.childOf s sibling) .black
    let t ← t.setColor sibling .red
    let t ← match sibling with
      | some sibling => t.rotate s.other sibling
      | none => some t
    return (t, ← t.child s.other parent)
  else return (t, sibling)

/-- The red far child of the sibling makes up for the lost black node. -/
def fillFromSibling (t : RbRootCached K V) (parent : Nat) (sibling : Option Nat) :
    Option (RbRootCached K V) := do
  let t ← t.setColor sibling (t.color (some parent))
  let t ← t.setColor (some parent) .black
  let t ← t.setColor (← t.childOf s.other sibling) .black
  t.rotate s parent

/-- One round of `delete_fixup` when the node is the child on side `s` of its parent; returns the node
and the parent of the next round. -/
def deleteFixupSide (t : RbRootCached K V) (parent : Nat) :
    Option (RbRootCached K V × Option Nat × Option Nat) := do
  let (t, sibling) ← t.raiseSibling s parent
  if t.color (← t.childOf s sibling) = .black ∧ t.color (← t.childOf s.other sibling) = .black then
    let t ← t.setColor sibling .red
    return (t, some parent, ← t.parent parent)
  else
    let (t, sibling) ← t.turnSibling s parent sibling
    let t ← t.fillFromSibling s parent sibling
    return (t, t.root, none)

def deleteFixupLoop (t : RbRootCached K V) : Nat → Option Nat → Option Nat → Option (RbRootCached K V)
  | 0, _, _ => none
  | fuel + 1, node, parent => do
    if node ≠ t.root ∧ t.color node = .black then
      match parent with
      | none => t.setColor node .black
      | some parent =>
        let s := if node = (← t.child .left parent) then Side.left else .right
        let (t, node, parent) ← t.deleteFixupSide s parent
        t.deleteFixupLoop fuel node parent
    else t.setColor node .black

def deleteFixup (node parent : Option Nat) : Option (RbRootCached K V) :=
  t.deleteFixupLoop (t.nodes.length + 2) node parent

/-- A slot for a new node: a free one if there is one, else a new one at the end of the arena. A free
slot has to be empty. -/
def place (node : RbNode K V) : Option (RbRootCached K V × Nat) :=
  match t.freeSlots with
  | index :: freeSlots =>
    if t.nodes[index]? matches some none then
      some ({ t with nodes := t.nodes.set index (some node), freeSlots }, index)
    else none
  | [] => some ({ t with nodes := t.nodes ++ [some node] }, t.nodes.length)

/-- Takes the node out of its slot. -/
def take (i : Nat) : Option (RbRootCached K V × V) :=
  (t.get i).map fun n => ({ t with nodes := t.nodes.set i none }, n.value)

end

section Ordered

variable [LinearOrder K] (t : RbRootCached K V)

/-- The loop of `insert`: the parent of the new node. -/
def findParent (t : RbRootCached K V) (key : K) : Nat → Option Nat → Option Nat → Option (Option Nat)
  | 0, _, _ => none
  | _ + 1, parent, none => some parent
  | fuel + 1, _, some index => do
    let n ← t.get index
    t.findParent key fuel (some index) (if key < n.key then n.left else n.right)

/-- Lets the parent, or the root, lead to the new node. -/
def linkNew (parent : Option Nat) (key : K) (index : Nat) : Option (RbRootCached K V) :=
  match parent with
  | some parent => do
    let n ← t.get parent
    t.setChild (if key < n.key then .left else .right) parent (some index)
  | none => some { t with root := some index }

def cacheLeftmost (key : K) (index : Nat) : Option (RbRootCached K V) :=
  match t.leftmost with
  | none => some { t with leftmost := some index }
  | some leftmost => do
    let n ← t.get leftmost
    return if key < n.key then { t with leftmost := some index } else t

def insert (key : K) (value : V) : Option (RbRootCached K V) := do
  let parent ← t.findParent key (t.nodes.length + 1) none t.root
  let (t, index) ← t.place ⟨key, value, parent, none, none, .red⟩
  let t ← t.linkNew parent key index
  let t ← t.cacheLeftmost key index
  let t := { t with len := t.len + 1 }
  t.insertFixup index

/-- The loop of `remove`: the node with the key, if there is one. -/
def findKey (t : RbRootCached K V) (key : K) : Nat → Option Nat → Option (Option Nat)
  | 0, _ => none
  | _ + 1, none => some none
  | fuel + 1, some index => do
    let n ← t.get index
    if key = n.key then return some index
    t.findKey key fuel (if key < n.key then n.left else n.right)

/-- What unlinking a node leaves: the color that was lost, the subtree that moved up and its parent. -/
structure Unlinked (K V : Type) where
  tree : RbRootCached K V
  removedColor : Color
  replacement : Option Nat
  replacementParent : Option Nat

/-- Takes the least node of the target's right subtree out of it; returns the parent of what replaces
it. -/
def detachMoved (target moved : Nat) (replacement : Option Nat) :
    Option (RbRootCached K V × Option Nat) := do
  if (← t.parent moved) = some target then
    let t ← t.setParent replacement (some moved)
    return (t, some moved)
  else
    let parent ← t.parent moved
    let t ← t.transplant moved replacement
    let targetRight ← t.child .right target
    let t ← t.setChild .right moved targetRight
    let t ← t.setParent targetRight (some moved)
    return (t, parent)

/-- Puts the moved node in the place of the target. -/
def installMoved (target moved : Nat) : Option (RbRootCached K V) := do
  let t ← t.transplant target (some moved)
  let targetLeft ← t.child .left target
  let t ← t.setChild .left moved targetLeft
  let t ← t.setParent targetLeft (some moved)
  t.setColor (some moved) (t.color (some target))

/-- Unlinks a node with two children: the least node of its right subtree takes its place. -/
def unlinkInner (target right : Nat) : Option (Unlinked K V) := do
  let moved ← t.minimum right
  let removedColor := t.color (some moved)
  let replacement ← t.child .right moved
  let (t, replacementParent) ← t.detachMoved target moved replacement
  let t ← t.installMoved target moved
  return ⟨t, removedColor, replacement, replacementParent⟩

/-- The part of `remove` that takes the target out of the tree. -/
def unlink (target : Nat) : Option (Unlinked K V) := do
  let removedColor := t.color (some target)
  let parent ← t.parent target
  match ← t.child .left target, ← t.child .right target with
  | none, replacement => return ⟨← t.transplant target replacement, removedColor, replacement, parent⟩
  | replacement, none => return ⟨← t.transplant target replacement, removedColor, replacement, parent⟩
  | some _, some right => t.unlinkInner target right

/-- `self.root.map(|root| self.minimum(root))`. -/
def findLeftmost : Option (Option Nat) :=
  match t.root with
  | none => some none
  | some root => (t.minimum root).map some

/-- The part of `remove` after the search. -/
def removeAt (target : Nat) : Option (RbRootCached K V × V) := do
  let u ← t.unlink target
  let (t, removed) ← u.tree.take target
  let t := { t with freeSlots := target :: t.freeSlots, len := t.len - 1 }
  let t := { t with leftmost := ← t.findLeftmost }
  let t ← if u.removedColor = .black then t.deleteFixup u.replacement u.replacementParent else pure t
  return (t, removed)

def remove (key : K) : Option (RbRootCached K V × Option V) := do
  match ← t.findKey key (t.nodes.length + 1) t.root with
  | none => return (t, none)
  | some target =>
    let (t, removed) ← t.removeAt target
    return (t, some removed)

def popFirst : Option (RbRootCached K V × Option V) :=
  match t.firstKey with
  | none => some (t, none)
  | some key => t.remove key

/-- The first node of the arena whose value satisfies the predicate. -/
def findWhere (p : V → Bool) : Option (RbNode K V) :=
  (t.nodes.filterMap id).find? fun n => p n.value

def removeWhere (p : V → Bool) : Option (RbRootCached K V × Option V) :=
  match t.findWhere p with
  | none => some (t, none)
  | some n => t.remove n.key

end Ordered

end RbRootCached

end ShellCore.Sched
