import ShellCore.Sched.RbTree
import Mathlib.Data.List.Nodup
import Mathlib.Data.List.Perm.Basic

/-!
# Trees in the arena

`Rep t T` says that the links of the arena `t` are those of the tree `T`: every label of `T` names
the slot in which its node lies. Each operation on links is given by what it does to the tree, in
the place of the tree where it is used: `Path.plug p u` is a tree with the subtree `u` in focus.
-/

namespace ShellCore.Sched

open List hiding nil

open ShellCore.Tree Option

/-- An entry of the tree and the slot of its node. -/
structure Item (K V : Type) where
  index : Nat
  key : K
  value : V

variable {K V : Type} {s : Side} {c d : Color} {x y : Item K V} {a b e u : Tree (Item K V)}
  {p : Path (Item K V)} {T : Tree (Item K V)} {o q : Option Nat} {i j : Nat}

/-- The slots of the tree, in order. -/
def slots (T : Tree (Item K V)) : List Nat := T.entries.map Item.index

/-- The slot of the root. -/
def slot (T : Tree (Item K V)) : Option Nat := T.top.map Item.index

@[simp] theorem slot_nil : slot (nil : Tree (Item K V)) = none := rfl

@[simp] theorem slot_join : slot (join s c a x b) = some x.index := by simp [slot]

@[simp] theorem slots_nil : slots (nil : Tree (Item K V)) = [] := rfl

@[simp] theorem mem_slots_join : i ∈ slots (join s c a x b) ↔ i ∈ slots a ∨ i = x.index ∨ i ∈ slots b := by
  simp only [slots, entries_join, List.mem_map, mem_around]
  constructor
  · rintro ⟨z, hz | rfl | hz, rfl⟩
    · exact .inl ⟨z, hz, rfl⟩
    · exact .inr (.inl rfl)
    · exact .inr (.inr ⟨z, hz, rfl⟩)
  · rintro (⟨z, hz, rfl⟩ | rfl | ⟨z, hz, rfl⟩)
    · exact ⟨z, .inl hz, rfl⟩
    · exact ⟨x, .inr (.inl rfl), rfl⟩
    · exact ⟨z, .inr (.inr hz), rfl⟩

@[simp] theorem nodup_slots_join : (slots (join s c a x b)).Nodup ↔
    (slots a).Nodup ∧ (slots b).Nodup ∧ x.index ∉ slots a ∧ x.index ∉ slots b ∧
      (slots a).Disjoint (slots b) := by
  have h : (slots (join s c a x b)).Perm (x.index :: (slots a ++ slots b)) := by
    cases s with
    | left =>
      simp only [slots, entries_join, around, map_append, map_cons]
      exact perm_middle
    | right =>
      simp only [slots, entries_join, around, map_append, map_cons]
      exact perm_middle.trans (perm_append_comm.cons _)
  rw [h.nodup_iff, nodup_cons, nodup_append', mem_append, not_or]
  tauto

/-- The slot of the root is one of the slots. -/
theorem mem_slots_of_slot (h : slot u = some i) : i ∈ slots u := by
  cases u with
  | nil => cases h
  | node c l x r =>
    obtain rfl : x.index = i := some.inj h
    simp [slots, entries]

/-- The node of `x` with its children given from side `s`. -/
def cell (s : Side) (x : Item K V) (o : Option Nat) (a b : Option Nat) (c : Color) : RbNode K V :=
  match s with
  | .left => ⟨x.key, x.value, o, a, b, c⟩
  | .right => ⟨x.key, x.value, o, b, a, c⟩

section Cell

variable {l r : Option Nat}

@[simp] theorem cell_child : (cell s x o l r c).child s = l := by cases s <;> rfl

@[simp] theorem cell_child_other : (cell s x o l r c).child s.other = r := by cases s <;> rfl

@[simp] theorem cell_setChild : (cell s x o l r c).setChild s q = cell s x o q r c := by cases s <;> rfl

@[simp] theorem cell_setChild_other : (cell s x o l r c).setChild s.other q = cell s x o l q c := by cases s <;> rfl

@[simp] theorem cell_setParent : { cell s x o l r c with parent := q } = cell s x q l r c := by cases s <;> rfl

@[simp] theorem cell_setColor : { cell s x o l r c with color := d } = cell s x o l r d := by cases s <;> rfl

@[simp] theorem cell_parent : (cell s x o l r c).parent = o := by cases s <;> rfl

@[simp] theorem cell_color : (cell s x o l r c).color = c := by cases s <;> rfl

@[simp] theorem cell_key : (cell s x o l r c).key = x.key := by cases s <;> rfl

@[simp] theorem cell_value : (cell s x o l r c).value = x.value := by cases s <;> rfl

end Cell

/-- The nodes of the tree lie in their slots, linked to each other and to the parent `o`. -/
def Enc (H : Nat → Option (RbNode K V)) : Tree (Item K V) → Option Nat → Prop
  | nil, _ => True
  | node c l x r, o =>
    H x.index = some (cell .left x o (slot l) (slot r) c) ∧ Enc H l (some x.index) ∧ Enc H r (some x.index)

variable {H H' : Nat → Option (RbNode K V)}

@[simp] theorem enc_nil : Enc H nil o := trivial

@[simp] theorem enc_join : Enc H (join s c a x b) o ↔
    H x.index = some (cell s x o (slot a) (slot b) c) ∧ Enc H a (some x.index) ∧ Enc H b (some x.index) := by
  cases s
  · exact Iff.rfl
  · exact and_congr_right fun _ => and_comm

theorem Enc.congr (h : Enc H u o) (hH : ∀ i ∈ slots u, H' i = H i) : Enc H' u o := by
  induction u generalizing o with
  | nil => trivial
  | node c l x r ihl ihr =>
    have hm : ∀ i, i ∈ slots (node c l x r) ↔ i ∈ slots l ∨ i = x.index ∨ i ∈ slots r := fun i =>
      mem_slots_join (s := .left)
    refine ⟨?_, ihl h.2.1 fun i hi => hH i ((hm i).2 (.inl hi)), ihr h.2.2 fun i hi => hH i ((hm i).2 (.inr (.inr hi)))⟩
    rw [hH x.index ((hm _).2 (.inr (.inl rfl)))]
    exact h.1

/-- The slot of the node above the hole. -/
def up (p : Path (Item K V)) : Option Nat := p.head?.map fun f => f.label.index

@[simp] theorem up_nil : up ([] : Path (Item K V)) = none := rfl

@[simp] theorem up_cons {f : Frame (Item K V)} : up (f :: p) = some f.label.index := rfl

/-- The slots of a path. -/
def pathSlots : Path (Item K V) → List Nat
  | [] => []
  | f :: rest => f.label.index :: (slots f.sibling ++ pathSlots rest)

/-- The nodes of the path lie in their slots; the hole holds a subtree with its root at `child`. -/
def PathEnc (H : Nat → Option (RbNode K V)) : Path (Item K V) → Option Nat → Option Nat → Prop
  | [], child, root => root = child
  | f :: rest, child, root =>
    H f.label.index = some (cell f.side f.label (up rest) child (slot f.sibling) f.color) ∧
      Enc H f.sibling (some f.label.index) ∧ PathEnc H rest (some f.label.index) root

theorem PathEnc.congr {child root : Option Nat} (h : PathEnc H p child root)
    (hH : ∀ i ∈ pathSlots p, H' i = H i) : PathEnc H' p child root := by
  induction p generalizing child with
  | nil => exact h
  | cons f rest ih =>
    have hf : f.label.index ∈ pathSlots (f :: rest) := mem_cons_self
    refine ⟨(hH _ hf).trans h.1, h.2.1.congr fun i hi => hH i ?_, ih h.2.2 fun i hi => hH i ?_⟩
    · exact mem_cons_of_mem _ (mem_append_left _ hi)
    · exact mem_cons_of_mem _ (mem_append_right _ hi)

theorem enc_plug {root : Option Nat} : (Enc H (Path.plug p u) none ∧ root = slot (Path.plug p u)) ↔
    (PathEnc H p (slot u) root ∧ Enc H u (up p)) := by
  induction p generalizing u with
  | nil => exact and_comm
  | cons f rest ih =>
    rw [Path.plug_cons, ih, slot_join, enc_join, PathEnc, up_cons]
    tauto

theorem slots_plug : (slots (Path.plug p u)).Perm (slots u ++ pathSlots p) := by
  induction p generalizing u with
  | nil => simp [pathSlots]
  | cons f rest ih =>
    refine (ih (u := join f.side f.color u f.label f.sibling)).trans ?_
    obtain ⟨side, c, x, sib⟩ := f
    cases side with
    | left =>
      simp [slots, around, pathSlots]
    | right =>
      simp only [slots, around, pathSlots, entries_join, map_append, map_cons, append_assoc,
        cons_append]
      refine perm_middle.trans (Perm.trans ?_ perm_middle.symm)
      refine Perm.cons _ ?_
      rw [← append_assoc, ← append_assoc]
      exact perm_append_comm.append_right _

theorem mem_slots_plug : i ∈ slots (Path.plug p u) ↔ i ∈ slots u ∨ i ∈ pathSlots p := by
  rw [slots_plug.mem_iff, mem_append]

theorem nodup_slots_plug : (slots (Path.plug p u)).Nodup ↔
    (slots u).Nodup ∧ (pathSlots p).Nodup ∧ (slots u).Disjoint (pathSlots p) := by
  rw [slots_plug.nodup_iff, nodup_append']

/-- The links of the arena are those of the tree. -/
structure Rep (t : RbRootCached K V) (T : Tree (Item K V)) : Prop where
  enc : Enc t.get T none
  root : t.root = slot T
  nodup : (slots T).Nodup

/-- Everything but the links is the same. -/
structure SameSlots (t t' : RbRootCached K V) : Prop where
  leftmost : t'.leftmost = t.leftmost
  freeSlots : t'.freeSlots = t.freeSlots
  len : t'.len = t.len
  length : t'.nodes.length = t.nodes.length
  filled : ∀ i, (t'.get i).isSome = (t.get i).isSome

namespace SameSlots

variable {t t₁ t₂ : RbRootCached K V}

theorem refl : SameSlots t t := ⟨rfl, rfl, rfl, rfl, fun _ => rfl⟩

theorem trans (h : SameSlots t t₁) (h' : SameSlots t₁ t₂) : SameSlots t t₂ where
  leftmost := h'.leftmost.trans h.leftmost
  freeSlots := h'.freeSlots.trans h.freeSlots
  len := h'.len.trans h.len
  length := h'.length.trans h.length
  filled i := (h'.filled i).trans (h.filled i)

end SameSlots

variable {l r : Option Nat}

namespace RbRootCached

variable {t t' : RbRootCached K V} {n : RbNode K V}

/-! ## Single nodes -/

theorem get_lt (h : t.get i = some n) : i < t.nodes.length := by
  unfold get at h
  by_contra hge
  rw [getElem?_eq_none (Nat.le_of_not_lt hge)] at h
  cases h

theorem get_set (hi : i < t.nodes.length) (o : Option (RbNode K V)) (j : Nat) :
    ({ t with nodes := t.nodes.set i o } : RbRootCached K V).get j = if j = i then o else t.get j := by
  by_cases hj : j = i
  · subst hj
    rw [if_pos rfl]
    simp only [get, getElem?_set_self hi, join_some]
  · rw [if_neg hj]
    simp only [get, getElem?_set_ne (Ne.symm hj)]

/-- Writing a node changes that node and nothing else. -/
theorem update_spec {f : RbNode K V → RbNode K V} (h : t.get i = some n) :
    ∃ t', t.update i f = some t' ∧ t'.get i = some (f n) ∧ (∀ j, j ≠ i → t'.get j = t.get j) ∧
      t'.root = t.root ∧ SameSlots t t' := by
  have hi := get_lt h
  refine ⟨{ t with nodes := t.nodes.set i (some (f n)) }, ?_, ?_, ?_, rfl, ⟨rfl, rfl, rfl, length_set, ?_⟩⟩
  · rw [update, h, map_some]
  · rw [get_set hi, if_pos rfl]
  · intro j hj
    rw [get_set hi, if_neg hj]
  · intro j
    rw [get_set hi]
    by_cases hj : j = i
    · rw [if_pos hj, hj, h]
      rfl
    · rw [if_neg hj]

theorem get_append (n : RbNode K V) (i : Nat) : ({ t with nodes := t.nodes ++ [some n] } : RbRootCached K V).get i =
    if i = t.nodes.length then some n else t.get i := by
  unfold get
  rcases Nat.lt_trichotomy i t.nodes.length with h | rfl | h
  · rw [getElem?_append_left h, if_neg (Nat.ne_of_lt h)]
  · simp
  · rw [if_neg (Nat.ne_of_gt h), getElem?_eq_none (by simp; omega), getElem?_eq_none (by omega)]

/-- A new node comes into an empty slot. -/
theorem place_spec (hn : t.freeSlots.Nodup) (hfree : ∀ i, i ∈ t.freeSlots ↔ i < t.nodes.length ∧ t.get i = none)
    (n : RbNode K V) :
    ∃ t' index, t.place n = some (t', index) ∧ t.get index = none ∧ t'.get index = some n ∧
      (∀ j, j ≠ index → t'.get j = t.get j) ∧ t'.root = t.root ∧ t'.leftmost = t.leftmost ∧ t'.len = t.len ∧
      t'.freeSlots.Nodup ∧ ∀ i, i ∈ t'.freeSlots ↔ i < t'.nodes.length ∧ t'.get i = none := by
  cases hslots : t.freeSlots with
  | nil =>
    have hlast : t.get t.nodes.length = none := by rw [get, getElem?_eq_none (Nat.le_refl _)]; rfl
    refine ⟨{ t with nodes := t.nodes ++ [some n] }, t.nodes.length, by rw [place, hslots], hlast, ?_, ?_, rfl, rfl, rfl,
      hn, fun i => ?_⟩
    · rw [get_append, if_pos rfl]
    · intro j hj
      rw [get_append, if_neg hj]
    · rw [get_append, length_append, length_singleton]
      by_cases hi : i = t.nodes.length
      · subst hi
        rw [if_pos rfl]
        simp [hslots]
      · rw [if_neg hi, show i < t.nodes.length + 1 ↔ i < t.nodes.length by omega]
        exact hfree i
  | cons index rest =>
    obtain ⟨hlt, hnone⟩ := (hfree index).1 (by rw [hslots]; exact mem_cons_self)
    have hslot : t.nodes[index]? = some none := by
      unfold get at hnone
      rw [getElem?_eq_getElem hlt] at hnone ⊢
      rw [join_some] at hnone
      rw [hnone]
    rw [hslots] at hn
    obtain ⟨hnotin, hrest⟩ := nodup_cons.1 hn
    have hget : ∀ i, ({ t with nodes := t.nodes.set index (some n), freeSlots := rest } : RbRootCached K V).get i =
      if i = index then some n else t.get i := get_set hlt _
    refine ⟨{ t with nodes := t.nodes.set index (some n), freeSlots := rest }, index, ?_, hnone, ?_, ?_, rfl, rfl, rfl,
      hrest, fun i => ?_⟩
    · simp [place, hslots, hslot]
    · rw [hget, if_pos rfl]
    · intro j hj
      rw [hget, if_neg hj]
    · rw [hget, length_set]
      by_cases hi : i = index
      · subst hi
        rw [if_pos rfl]
        simp [hnotin]
      · rw [if_neg hi, ← hfree i, hslots, mem_cons]
        exact ⟨.inr, fun h => h.resolve_left hi⟩

variable (h : t.get i = some (cell s x o l r c))

include h

theorem setChild_spec (new : Option Nat) :
    ∃ t', t.setChild s i new = some t' ∧ t'.get i = some (cell s x o new r c) ∧
      (∀ j, j ≠ i → t'.get j = t.get j) ∧ t'.root = t.root ∧ SameSlots t t' := by
  obtain ⟨t', ht', hi, hframe⟩ := update_spec (f := fun n => n.setChild s new) h
  exact ⟨t', ht', hi.trans (by rw [cell_setChild]), hframe⟩

theorem setChild_other_spec (new : Option Nat) :
    ∃ t', t.setChild s.other i new = some t' ∧ t'.get i = some (cell s x o l new c) ∧
      (∀ j, j ≠ i → t'.get j = t.get j) ∧ t'.root = t.root ∧ SameSlots t t' := by
  obtain ⟨t', ht', hi, hframe⟩ := update_spec (f := fun n => n.setChild s.other new) h
  exact ⟨t', ht', hi.trans (by rw [cell_setChild_other]), hframe⟩

theorem setParent_spec (q : Option Nat) :
    ∃ t', t.setParent (some i) q = some t' ∧ t'.get i = some (cell s x q l r c) ∧
      (∀ j, j ≠ i → t'.get j = t.get j) ∧ t'.root = t.root ∧ SameSlots t t' := by
  obtain ⟨t', ht', hi, hframe⟩ := update_spec (f := fun n => { n with parent := q }) h
  exact ⟨t', ht', hi.trans (by rw [cell_setParent]), hframe⟩

omit h

/-- A subtree gets another parent. -/
theorem setParent_enc (h : Enc t.get u o) (hn : (slots u).Nodup) (q : Option Nat) :
    ∃ t', t.setParent (slot u) q = some t' ∧ Enc t'.get u q ∧ (∀ j, j ∉ slots u → t'.get j = t.get j) ∧
      t'.root = t.root ∧ SameSlots t t' := by
  cases u with
  | nil => exact ⟨t, rfl, trivial, fun _ _ => rfl, rfl, .refl⟩
  | node c l x r =>
    obtain ⟨t', ht', hx, hframe, hroot, hsame⟩ := setParent_spec h.1 q
    obtain ⟨-, -, hxl, hxr, -⟩ := (nodup_slots_join (s := .left)).1 hn
    refine ⟨t', ht', ⟨hx, ?_, ?_⟩, ?_, hroot, hsame⟩
    · exact h.2.1.congr fun i hi => hframe i fun hix => hxl (hix ▸ hi)
    · exact h.2.2.congr fun i hi => hframe i fun hix => hxr (hix ▸ hi)
    · exact fun j hj => hframe j fun hjx => hj ((mem_slots_join (s := .left)).2 (.inr (.inl hjx)))

/-- The child link above the hole is written. -/
theorem setHole_spec {f : Frame (Item K V)} {child : Option Nat} (h : PathEnc t.get (f :: p) child t.root)
    (hn : (pathSlots (f :: p)).Nodup) (new : Option Nat) :
    ∃ t', t.setChild f.side f.label.index new = some t' ∧ PathEnc t'.get (f :: p) new t'.root ∧
      (∀ j, j ∉ pathSlots (f :: p) → t'.get j = t.get j) ∧ SameSlots t t' := by
  obtain ⟨hf, hsib, hrest⟩ := h
  obtain ⟨hfn, -⟩ := nodup_cons.1 hn
  rw [mem_append, not_or] at hfn
  obtain ⟨t', ht', hget, hframe, hroot, hsame⟩ := setChild_spec hf new
  refine ⟨t', ht', ⟨hget, ?_, ?_⟩, ?_, hsame⟩
  · exact hsib.congr fun j hj => hframe j fun hjf => hfn.1 (hjf ▸ hj)
  · rw [hroot]
    exact hrest.congr fun j hj => hframe j fun hjf => hfn.2 (hjf ▸ hj)
  · exact fun j hj => hframe j fun hjf => hj (hjf ▸ mem_cons_self)

/-- The link into the hole leads elsewhere. -/
theorem relink_spec (h : PathEnc t.get p (some i) t.root) (hn : (pathSlots p).Nodup)
    (hi : i ∉ pathSlots p) (new : Option Nat) :
    ∃ t', t.relink (up p) i new = some t' ∧ PathEnc t'.get p new t'.root ∧
      (∀ j, j ∉ pathSlots p → t'.get j = t.get j) ∧ SameSlots t t' := by
  cases p with
  | nil => exact ⟨{ t with root := new }, rfl, rfl, fun _ _ => rfl, rfl, rfl, rfl, rfl, fun _ => rfl⟩
  | cons f rest =>
    -- the hole is the left child exactly when it lies on the left
    have hside : t.relink (some f.label.index) i new = t.setChild f.side f.label.index new := by
      have hne : slot f.sibling ≠ some i := fun he =>
        hi (mem_cons_of_mem _ (mem_append_left _ (mem_slots_of_slot he)))
      have hleft : t.child .left f.label.index =
          some (if f.side = .left then some i else slot f.sibling) := by
        rw [child, h.1, map_some]
        cases f.side <;> rfl
      simp only [relink, hleft, bind_eq_bind, bind_some]
      cases f.side with
      | left => exact if_pos rfl
      | right => exact if_neg hne
    rw [up_cons, hside]
    exact setHole_spec h hn new

/-- A subtree takes the place of the node in the hole. -/
theorem transplant_spec (h : PathEnc t.get p (some i) t.root) (hpar : t.parent i = some (up p))
    (hn : (pathSlots p).Nodup) (hi : i ∉ pathSlots p) (hu : Enc t.get u o) (hun : (slots u).Nodup)
    (hd : (slots u).Disjoint (pathSlots p)) :
    ∃ t', t.transplant i (slot u) = some t' ∧ PathEnc t'.get p (slot u) t'.root ∧ Enc t'.get u (up p) ∧
      (∀ j, j ∉ pathSlots p → j ∉ slots u → t'.get j = t.get j) ∧ SameSlots t t' := by
  obtain ⟨t₁, e₁, p₁, f₁, s₁⟩ := relink_spec h hn hi (slot u)
  have hu₁ : Enc t₁.get u o := hu.congr fun j hj => f₁ j (hd hj)
  obtain ⟨t₂, e₂, u₂, f₂, r₂, s₂⟩ := setParent_enc hu₁ hun (up p)
  refine ⟨t₂, ?_, ?_, u₂, ?_, s₁.trans s₂⟩
  · simp only [transplant, hpar, bind_eq_bind, bind_some, e₁, e₂]
  · rw [r₂]
    exact p₁.congr fun j hj => f₂ j fun hju => hd hju hj
  · exact fun j hj hju => (f₂ j hju).trans (f₁ j hj)

end RbRootCached

/-! ## Reading -/

namespace Rep

variable {t t' : RbRootCached K V}

theorem context (h : Rep t (Path.plug p u)) : PathEnc t.get p (slot u) t.root := (enc_plug.1 ⟨h.enc, h.root⟩).1

theorem focus (h : Rep t (Path.plug p u)) : Enc t.get u (up p) := (enc_plug.1 ⟨h.enc, h.root⟩).2

variable (h : Rep t (Path.plug p (join s c a x b)))

include h

theorem get : t.get x.index = some (cell s x (up p) (slot a) (slot b) c) := (enc_join.1 h.focus).1

theorem child : t.child s x.index = some (slot a) := by
  rw [RbRootCached.child, h.get, map_some, cell_child]

theorem child_other : t.child s.other x.index = some (slot b) := by
  rw [RbRootCached.child, h.get, map_some, cell_child_other]

theorem parent : t.parent x.index = some (up p) := by
  rw [RbRootCached.parent, h.get, map_some, cell_parent]

omit h

theorem color (h : Rep t (Path.plug p u)) : t.color (slot u) = u.color := by
  cases u with
  | nil => rfl
  | node c l x r =>
    have := h.focus.1
    simp only [RbRootCached.color, slot, top, map_some, bind_some, this]
    rfl

/-- A subtree is replaced by one with the same slots. -/
theorem replace {v : Tree (Item K V)} (h : Rep t (Path.plug p u)) (hp : PathEnc t'.get p (slot v) t'.root)
    (hv : Enc t'.get v (up p)) (hs : (slots v).Perm (slots u)) : Rep t' (Path.plug p v) := by
  obtain ⟨henc, hroot⟩ := enc_plug.2 ⟨hp, hv⟩
  refine ⟨henc, hroot, ?_⟩
  rw [slots_plug.nodup_iff, (hs.append_right _).nodup_iff, ← slots_plug.nodup_iff]
  exact h.nodup

end Rep

namespace RbRootCached

variable {t t' : RbRootCached K V}

theorem setColor_frame (h : t.setColor (some i) d = some t') (hj : j ≠ i) : t'.get j = t.get j := by
  cases hi : t.get i with
  | none => simp [setColor, update, hi] at h
  | some n =>
    obtain ⟨t₁, ht₁, -, hframe, -⟩ := update_spec (f := fun n => { n with color := d }) hi
    obtain rfl : t₁ = t' := some.inj (ht₁.symm.trans h)
    exact hframe j hj

theorem setColor_rep (h : Rep t (Path.plug p (join s c a x b))) (d : Color) :
    ∃ t', t.setColor (some x.index) d = some t' ∧ Rep t' (Path.plug p (join s d a x b)) ∧ SameSlots t t' := by
  obtain ⟨t', ht', hx, hframe, hroot, hsame⟩ := update_spec (f := fun n => { n with color := d }) h.get
  rw [cell_setColor] at hx
  obtain ⟨hn, -, hd⟩ := nodup_slots_plug.1 h.nodup
  obtain ⟨-, -, hxa, hxb, -⟩ := nodup_slots_join.1 hn
  obtain ⟨-, ha, hb⟩ := enc_join.1 h.focus
  refine ⟨t', ht', h.replace ?_ (enc_join.2 ⟨hx, ?_, ?_⟩) ?_, hsame⟩
  · rw [slot_join, hroot]
    have := h.context
    rw [slot_join] at this
    refine this.congr fun j hj => hframe j fun hjx => hd (mem_slots_join.2 (.inr (.inl hjx))) hj
  · exact ha.congr fun j hj => hframe j fun hjx => hxa (hjx ▸ hj)
  · exact hb.congr fun j hj => hframe j fun hjx => hxb (hjx ▸ hj)
  · rw [slots, slots, entries_join, entries_join]

/-- A rotation towards `s` turns the child on the other side above the node. -/
theorem rotate_rep (h : Rep t (Path.plug p (join s c a x (join s d b y e)))) :
    ∃ t', t.rotate s x.index = some t' ∧ Rep t' (Path.plug p (join s d (join s c a x b) y e)) ∧
      SameSlots t t' := by
  obtain ⟨hn, hpn, hd⟩ := nodup_slots_plug.1 h.nodup
  simp only [nodup_slots_join, mem_slots_join, not_or, List.Disjoint] at hn hd
  obtain ⟨-, ⟨hbn, -, hyb, hye, hbe⟩, hxa, ⟨hxb, hxy, hxe⟩, ha⟩ := hn
  obtain ⟨hx, haE, hyE⟩ := enc_join.1 h.focus
  obtain ⟨hy, hbE, heE⟩ := enc_join.1 hyE
  obtain ⟨t₁, e₁, x₁, f₁, r₁, s₁⟩ := setChild_other_spec hx (slot b)
  have hb₁ : Enc t₁.get b (some y.index) := hbE.congr fun j hj => f₁ j (by grind)
  obtain ⟨t₂, e₂, b₂, f₂, r₂, s₂⟩ := setParent_enc hb₁ hbn (some x.index)
  have x₂ := (f₂ _ hxb).trans x₁
  have y₂ : t₂.get y.index = _ := (f₂ _ hyb).trans ((f₁ _ (Ne.symm hxy)).trans hy)
  obtain ⟨t₃, e₃, y₃, f₃, r₃, s₃⟩ := setParent_spec y₂ (up p)
  have hp₃ : PathEnc t₃.get p (some x.index) t₃.root := by
    rw [r₃, r₂, r₁]
    have := h.context
    rw [slot_join] at this
    refine this.congr fun j hj => ?_
    rw [f₃ j (by grind), f₂ j (by grind), f₁ j (by grind)]
  obtain ⟨t₄, e₄, p₄, f₄, s₄⟩ := relink_spec hp₃ hpn (by grind) (some y.index)
  have y₄ := (f₄ y.index (by grind)).trans y₃
  obtain ⟨t₅, e₅, y₅, f₅, r₅, s₅⟩ := setChild_spec y₄ (some x.index)
  have x₅ : t₅.get x.index = _ := (f₅ _ hxy).trans ((f₄ x.index (by grind)).trans ((f₃ _ hxy).trans x₂))
  obtain ⟨t₆, e₆, x₆, f₆, r₆, s₆⟩ := setParent_spec x₅ (some y.index)
  have hrun : t.rotate s x.index = some t₆ := by
    have hpar : t₂.parent x.index = some (up p) := by rw [RbRootCached.parent, x₂, map_some, cell_parent]
    have hc₁ : t.child s.other x.index = some (some y.index) := by rw [h.child_other, slot_join]
    have hc₂ : t.child s y.index = some (slot b) := by rw [RbRootCached.child, hy, map_some, cell_child]
    simp only [rotate, hc₁, hc₂, e₁, e₂, hpar, e₃, e₄, e₅, e₆, bind_eq_bind, bind_some]
  refine ⟨t₆, hrun, h.replace ?_ ?_ ?_, s₁.trans (s₂.trans (s₃.trans (s₄.trans (s₅.trans s₆))))⟩
  · rw [slot_join, r₆, r₅]
    refine p₄.congr fun j hj => ?_
    rw [f₆ j (by grind), f₅ j (by grind)]
  · simp only [enc_join, slot_join]
    refine ⟨(f₆ _ (Ne.symm hxy)).trans y₅, ⟨x₆, ?_, ?_⟩, ?_⟩
    · refine haE.congr fun j hj => ?_
      rw [f₆ j (by grind), f₅ j (by grind), f₄ j (by grind), f₃ j (by grind), f₂ j (by grind), f₁ j (by grind)]
    · refine b₂.congr fun j hj => ?_
      rw [f₆ j (by grind), f₅ j (by grind), f₄ j (by grind), f₃ j (by grind)]
    · refine heE.congr fun j hj => ?_
      rw [f₆ j (by grind), f₅ j (by grind), f₄ j (by grind), f₃ j (by grind), f₂ j (by grind), f₁ j (by grind)]
  · simp only [slots, entries_join, around_around]
    exact Perm.refl _

/-- The same rotation, read from the other side. -/
theorem rotate_other_rep (h : Rep t (Path.plug p (join s c (join s d a x b) y e))) :
    ∃ t', t.rotate s.other y.index = some t' ∧ Rep t' (Path.plug p (join s d a x (join s c b y e))) ∧
      SameSlots t t' := by
  rw [← join_other (s := s), ← join_other (s := s) (x := x)] at h
  obtain ⟨t', ht', hr, hs⟩ := rotate_rep h
  rw [join_other, join_other] at hr
  exact ⟨t', ht', hr, hs⟩

end RbRootCached

end ShellCore.Sched
