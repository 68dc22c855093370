import ShellCore.Sched.RbDelete

/-!
# Searching the tree and taking nodes out

The loops that walk down end after at most as many rounds as there are nodes in the arena. A node
that is taken out is replaced by its only subtree, or by the least node behind it, which is in turn
replaced by its right subtree.
-/

namespace ShellCore.Sched

open List hiding nil

open ShellCore.Tree Path Option

variable {K V : Type} {s : Side} {c d : Color} {x y z : Item K V} {a b e l r u : Tree (Item K V)}
  {p : Path (Item K V)} {T : Tree (Item K V)} {t : RbRootCached K V} {n N m : Nat} {o : Option Nat} {i : Nat}
  {t' : RbRootCached K V}

/-- Every entry of the tree lies in its slot. -/
theorem Enc.get_key (h : Enc t.get u o) (hx : x ∈ u.entries) :
    ∃ n, t.get x.index = some n ∧ n.key = x.key ∧ n.value = x.value := by
  induction u generalizing o with
  | nil => cases hx
  | node c l y r ihl ihr =>
    rcases mem_append.1 hx with hx | hx
    · exact ihl h.2.1 hx
    · rcases mem_cons.1 hx with rfl | hx
      · exact ⟨_, h.1, rfl, rfl⟩
      · exact ihr h.2.2 hx

theorem Enc.get_isSome (h : Enc t.get u o) (hi : i ∈ slots u) : (t.get i).isSome = true := by
  obtain ⟨x, hx, rfl⟩ := mem_map.1 hi
  obtain ⟨n, hn, -⟩ := h.get_key hx
  rw [hn]
  rfl

theorem RbRootCached.lt_of_get_isSome (h : (t.get i).isSome = true) : i < t.nodes.length := by
  obtain ⟨n, hn⟩ := isSome_iff_exists.1 h
  exact get_lt hn

/-- The tree has at most as many entries as the arena has slots. -/
theorem Rep.length_le (h : Rep t T) : T.entries.length ≤ t.nodes.length := by
  have hsub : slots T ⊆ range t.nodes.length := fun i hi =>
    mem_range.2 (RbRootCached.lt_of_get_isSome (h.enc.get_isSome hi))
  have := (subperm_of_subset h.nodup hsub).length_le
  rwa [slots, length_map, length_range] at this

/-! ## The least node -/

theorem RbRootCached.minimumLoop_rep (h : Rep t (plug p u)) (hi : slot u = some i)
    (hfuel : u.entries.length ≤ m) :
    ∃ inner c x r, u = plug inner (join .left c nil x r) ∧ before inner = [] ∧
      t.minimumLoop m i = some x.index := by
  induction u generalizing p i m with
  | nil => cases hi
  | node c l x r ihl _ =>
    obtain rfl : x.index = i := some.inj hi
    obtain ⟨m, rfl⟩ : ∃ k, m = k + 1 := ⟨m - 1, by simp [entries] at hfuel; omega⟩
    have hchild : t.child .left x.index = some (slot l) := Rep.child (s := .left) h
    cases hl : slot l with
    | none =>
      obtain rfl : l = nil := by cases l <;> first | rfl | cases hl
      refine ⟨[], c, x, r, rfl, rfl, ?_⟩
      rw [minimumLoop, hchild, hl]
      rfl
    | some j =>
      obtain ⟨inner, c', x', r', hu, hbefore, hrun⟩ := ihl (p := ⟨.left, c, x, r⟩ :: p) (m := m) h hl (by
        simp only [entries, length_append, length_cons] at hfuel
        omega)
      refine ⟨inner ++ [⟨.left, c, x, r⟩], c', x', r', ?_, ?_, ?_⟩
      · rw [plug_append, ← hu]
        rfl
      · rw [before_append, hbefore]
        rfl
      · rw [minimumLoop, hchild, hl]
        exact hrun

/-- `minimum` finds the first entry. -/
theorem RbRootCached.minimum_rep (h : Rep t (plug p u)) (hi : slot u = some i) :
    ∃ inner c x r, u = plug inner (join .left c nil x r) ∧ before inner = [] ∧
      t.minimum i = some x.index := by
  refine minimumLoop_rep h hi (Nat.le_trans ?_ h.length_le)
  rw [entries_plug]
  simp only [length_append]
  omega

/-! ## Taking a node out -/

/-- What `unlink` leaves of the tree `T` when it takes out `x`: the subtree `u` in its place lacks a
black node if `c` is black. -/
structure LeftBy (T : Tree (Item K V)) (x : Item K V) (p : Path (Item K V)) (u : Tree (Item K V)) (c : Color)
    (N : Nat) : Prop where
  entries : ∃ pre post, T.entries = pre ++ x :: post ∧ (plug p u).entries = pre ++ post
  noRedRed : u.NoRedRed
  pathNoRedRed : NoRedRed p c
  top : topColor p c = .black
  bal : ∃ n, u.Bal n ∧ Bal p (if c = .black then n + 1 else n) N

/-- A node with at most one subtree. -/
theorem LeftBy.single (hT : (plug p (join s c nil x u)).IsRedBlack) :
    ∃ N, LeftBy (plug p (join s c nil x u)) x p u c N := by
  obtain ⟨N, hN⟩ := hT.bal
  obtain ⟨n, hn, hp⟩ := exists_bal_of_plug hN
  obtain ⟨hno, hpno⟩ := noRedRed_of_plug hT.noRedRed
  obtain ⟨-, -, hu⟩ := noRedRed_join.1 hno
  have htop := hT.color
  rw [color_plug, color_join] at htop
  rw [color_join] at hpno
  refine ⟨N, ?_, hu, hpno, htop, ?_⟩
  · cases s with
    | left => exact ⟨before p, u.entries ++ after p, by simp [entries_plug, around], by simp [entries_plug]⟩
    | right => exact ⟨before p ++ u.entries, after p, by simp [entries_plug, around], by simp [entries_plug]⟩
  · cases c with
    | red => exact ⟨n, (bal_join_red.1 hn).2, hp⟩
    | black =>
      obtain ⟨m, rfl, -, hm⟩ := bal_join_black.1 hn
      exact ⟨m, hm, hp⟩

variable {inner : Path (Item K V)}

theorem plug_right : plug p (join .left c l x (plug inner u)) =
    plug (inner ++ ⟨.right, c, x, l⟩ :: p) u := by
  rw [plug_append]
  rfl

/-- A node with two subtrees: the least node of the right one takes its label. -/
theorem LeftBy.double (hinner : before inner = [])
    (hT : (plug p (join .left c l x (plug inner (join .left d nil y u)))).IsRedBlack) :
    ∃ N, LeftBy (plug p (join .left c l x (plug inner (join .left d nil y u)))) x
      (inner ++ ⟨.right, c, y, l⟩ :: p) u d N := by
  obtain ⟨N, h⟩ := LeftBy.single (plug_right ▸ hT)
  obtain ⟨n, hu, hp⟩ := h.bal
  refine ⟨N, ?_, h.noRedRed, h.pathNoRedRed.relabel, ?_, n, hu, hp.relabel⟩
  · refine ⟨before p ++ l.entries, y :: u.entries ++ after inner ++ after p, ?_, ?_⟩
    · simp [entries_plug, around, hinner]
    · simp [entries_plug, around, hinner]
  · rw [topColor_relabel (x := x)]
    exact h.top

namespace RbRootCached

/-- A node is replaced by its only subtree. -/
theorem transplant_rep (h : Rep t (plug p (join s c nil x u))) :
    ∃ t', t.transplant x.index (slot u) = some t' ∧ Rep t' (plug p u) ∧ t'.get x.index = t.get x.index ∧
      SameSlots t t' := by
  obtain ⟨hn, hpn, hd⟩ := nodup_slots_plug.1 h.nodup
  obtain ⟨-, hun, -, hxu, -⟩ := nodup_slots_join.1 hn
  have hx : x.index ∉ pathSlots p := hd (mem_slots_join.2 (.inr (.inl rfl)))
  have hdu : (slots u).Disjoint (pathSlots p) := fun j hj => hd (mem_slots_join.2 (.inr (.inr hj)))
  have hc := h.context
  rw [slot_join] at hc
  obtain ⟨t', ht', p', u', f', s'⟩ := transplant_spec hc h.parent hpn hx (enc_join.1 h.focus).2.2 hun hdu
  obtain ⟨henc, hroot⟩ := enc_plug.2 ⟨p', u'⟩
  exact ⟨t', ht', ⟨henc, hroot, nodup_slots_plug.2 ⟨hun, hpn, hdu⟩⟩, f' _ hx hxu, s'⟩

/-- The state between the two halves of an unlinking: the moved node `y` stands beside the tree with
the right subtree `r` below it. -/
structure Detached (t : RbRootCached K V) (p : Path (Item K V)) (c d : Color) (l : Tree (Item K V))
    (x y : Item K V) (r : Tree (Item K V)) : Prop where
  context : PathEnc t.get p (some x.index) t.root
  target : ∃ w, t.get x.index = some (cell .left x (up p) (slot l) w c)
  left : Enc t.get l (some x.index)
  moved : ∃ q, Enc t.get (join .left d nil y r) q

theorem detachMoved_rep (h : Rep t (plug p (join .left c l x (plug inner (join .left d nil y u))))) :
    ∃ t', t.detachMoved x.index y.index (slot u) = some (t', up (inner ++ ⟨.right, c, y, l⟩ :: p)) ∧
      Detached t' p c d l x y (plug inner u) ∧ SameSlots t t' := by
  have h' := h
  rw [plug_right] at h'
  have hparent := h'.parent
  obtain ⟨hx, hl, -⟩ := enc_join.1 h.focus
  have hctx := h.context
  rw [slot_join] at hctx
  obtain ⟨hn, -, hd⟩ := nodup_slots_plug.1 h.nodup
  obtain ⟨-, hrn, -, hxr, hlr⟩ := nodup_slots_join.1 hn
  match inner with
  | [] =>
    obtain ⟨hy, -, hu⟩ := enc_join.1 (enc_join.1 h.focus).2.2
    obtain ⟨-, hun, -, hyu, -⟩ := nodup_slots_join.1 hrn
    obtain ⟨t₁, e₁, u₁, f₁, r₁, s₁⟩ := setParent_enc hu hun (some y.index)
    have hmem : ∀ j ∈ slots u, j ∈ slots (join .left d nil y u) := fun j hj => mem_slots_join.2 (.inr (.inr hj))
    refine ⟨t₁, ?_, ⟨?_, ?_, ?_, ?_⟩, s₁⟩
    · simp only [detachMoved, hparent, nil_append, up_cons, bind_eq_bind, bind_some, if_true, e₁, pure]
    · rw [r₁]
      exact hctx.congr fun j hj => f₁ j fun hju =>
        hd (mem_slots_join.2 (.inr (.inr (hmem j hju)))) hj
    · exact ⟨_, (f₁ _ fun hju => hxr (hmem _ hju)).trans hx⟩
    · exact hl.congr fun j hj => f₁ j fun hju => hlr hj (hmem j hju)
    · refine ⟨_, enc_join.2 ⟨(f₁ _ hyu).trans hy, trivial, u₁⟩⟩
  | f :: rest =>
    obtain ⟨t₁, e₁, h₁, y₁, s₁⟩ := transplant_rep h'
    rw [h'.get] at y₁
    have hy : y.index ∉ slots (plug (f :: rest ++ ⟨.right, c, x, l⟩ :: p) u) := by
      obtain ⟨hn', -, hd'⟩ := nodup_slots_plug.1 h'.nodup
      obtain ⟨-, -, -, hyu, -⟩ := nodup_slots_join.1 hn'
      exact fun hm => (mem_slots_plug.1 hm).elim hyu (hd' (mem_slots_join.2 (.inr (.inl rfl))))
    rw [← plug_right] at h₁ hy
    generalize plug (f :: rest) u = w at h₁ hy ⊢
    obtain ⟨hn₁, -, hd₁⟩ := nodup_slots_plug.1 h₁.nodup
    obtain ⟨-, hwn, -, hxw, hlw⟩ := nodup_slots_join.1 hn₁
    rw [mem_slots_plug, mem_slots_join, not_or, not_or, not_or] at hy
    obtain ⟨⟨hyl, hyx, hyw⟩, hyp⟩ := hy
    obtain ⟨hx₁, hl₁, hw₁⟩ := enc_join.1 h₁.focus
    obtain ⟨t₂, e₂, y₂, f₂, r₂, s₂⟩ := setChild_other_spec y₁ (slot w)
    have hw₂ : Enc t₂.get w (some x.index) := hw₁.congr fun j hj => f₂ j fun hjy => hyw (hjy ▸ hj)
    obtain ⟨t₃, e₃, w₃, f₃, r₃, s₃⟩ := setParent_enc hw₂ hwn (some y.index)
    have hne : f.label.index ≠ x.index := fun he =>
      hxr (mem_slots_plug.2 (.inr (he ▸ mem_cons_self)))
    have hchild : t₁.child .right x.index = some (slot w) := h₁.child_other
    refine ⟨t₃, ?_, ⟨?_, ?_, ?_, ?_⟩, s₁.trans (s₂.trans s₃)⟩
    · have hne' : ¬ some f.label.index = some x.index := fun he => hne (some.inj he)
      rw [cons_append, up_cons] at hparent ⊢
      simp only [detachMoved, hparent, bind_eq_bind, bind_some, if_neg hne', e₁, hchild, pure]
      rw [show t₁.setChild .right y.index (slot w) = some t₂ from e₂, bind_some, e₃, bind_some]
    · have hc₁ := h₁.context
      rw [slot_join] at hc₁
      rw [r₃, r₂]
      refine hc₁.congr fun j hj => (f₃ j fun hjw => ?_).trans (f₂ j fun hjy => hyp (hjy ▸ hj))
      exact hd₁ (mem_slots_join.2 (.inr (.inr hjw))) hj
    · exact ⟨_, (f₃ _ hxw).trans ((f₂ _ (Ne.symm hyx)).trans hx₁)⟩
    · exact hl₁.congr fun j hj => (f₃ j (hlw hj)).trans (f₂ j fun hjy => hyl (hjy ▸ hj))
    · exact ⟨_, enc_join.2 ⟨(f₃ _ hyw).trans y₂, trivial, w₃⟩⟩

theorem installMoved_rep (h : Detached t p c d l x y r)
    (hn : (slots (plug p (join .left c l y r))).Nodup)
    (hx : x.index ∉ slots (plug p (join .left c l y r))) :
    ∃ t', t.installMoved x.index y.index = some t' ∧ Rep t' (plug p (join .left c l y r)) ∧
      (t'.get x.index).map RbNode.value = some x.value ∧ SameSlots t t' := by
  obtain ⟨hsn, hpn, hd⟩ := nodup_slots_plug.1 hn
  obtain ⟨hln, hrn, hyl, hyr, hlr⟩ := nodup_slots_join.1 hsn
  rw [mem_slots_plug, mem_slots_join, not_or, not_or, not_or] at hx
  obtain ⟨⟨hxl, hxy, hxr⟩, hxp⟩ := hx
  obtain ⟨w, hget⟩ := h.target
  obtain ⟨q, hmoved⟩ := h.moved
  have hpar : t.parent x.index = some (up p) := by rw [parent, hget, map_some, cell_parent]
  have hvn : (slots (join .left d nil y r)).Nodup := by
    rw [nodup_slots_join]
    exact ⟨nodup_nil, hrn, not_mem_nil, hyr, fun j hj => absurd hj not_mem_nil⟩
  have hvd : (slots (join .left d nil y r)).Disjoint (pathSlots p) := by
    intro j hj
    rcases mem_slots_join.1 hj with hj | hj | hj
    · cases hj
    · exact hd (mem_slots_join.2 (.inr (.inl hj)))
    · exact hd (mem_slots_join.2 (.inr (.inr hj)))
  obtain ⟨t₁, e₁, p₁, v₁, f₁, s₁⟩ := transplant_spec h.context hpar hpn hxp hmoved hvn hvd
  rw [slot_join] at e₁ p₁
  obtain ⟨y₁, -, r₁⟩ := enc_join.1 v₁
  have hxv : x.index ∉ slots (join .left d nil y r) := by
    rw [mem_slots_join, slots_nil]
    simp [hxy, hxr]
  have x₁ := (f₁ x.index hxp hxv).trans hget
  have l₁ : Enc t₁.get l (some x.index) := h.left.congr fun j hj => f₁ j (hd (mem_slots_join.2 (.inl hj))) (by
    rw [mem_slots_join, slots_nil]
    rintro (hj' | rfl | hj')
    · cases hj'
    · exact hyl hj
    · exact hlr hj hj')
  obtain ⟨t₂, e₂, y₂, f₂, rt₂, s₂⟩ := setChild_spec y₁ (slot l)
  have l₂ : Enc t₂.get l (some x.index) := l₁.congr fun j hj => f₂ j fun hjy => hyl (hjy ▸ hj)
  obtain ⟨t₃, e₃, l₃, f₃, rt₃, s₃⟩ := setParent_enc l₂ hln (some y.index)
  have p₃ : PathEnc t₃.get p (some y.index) t₃.root := by
    rw [rt₃, rt₂]
    refine p₁.congr fun j hj => (f₃ j fun hjl => ?_).trans (f₂ j fun hjy => ?_)
    · exact hd (mem_slots_join.2 (.inl hjl)) hj
    · exact hd (mem_slots_join.2 (.inr (.inl hjy))) hj
  have r₃ : Enc t₃.get r (some y.index) :=
    r₁.congr fun j hj => (f₃ j fun hjl => hlr hjl hj).trans (f₂ j fun hjy => hyr (hjy ▸ hj))
  have hrep : Rep t₃ (plug p (join .left d l y r)) := by
    obtain ⟨henc, hroot⟩ := (enc_plug (u := join .left d l y r)).2
      ⟨by rwa [slot_join], enc_join.2 ⟨(f₃ _ hyl).trans y₂, l₃, r₃⟩⟩
    exact ⟨henc, hroot, nodup_slots_plug.2 ⟨nodup_slots_join.2 ⟨hln, hrn, hyl, hyr, hlr⟩, hpn, fun j hj =>
      hd (mem_slots_join.2 (mem_slots_join.1 hj))⟩⟩
  have x₃ := (f₃ x.index hxl).trans ((f₂ x.index hxy).trans x₁)
  obtain ⟨t₄, e₄, h₄, s₄⟩ := setColor_rep hrep c
  refine ⟨t₄, ?_, h₄, ?_, s₁.trans (s₂.trans (s₃.trans s₄))⟩
  · have hchild : t₁.child .left x.index = some (slot l) := by rw [child, x₁, map_some]; rfl
    have hcolor : t₃.color (some x.index) = c := by rw [color, bind_some, x₃]; rfl
    simp only [installMoved, e₁, hchild, e₂, e₃, hcolor, e₄, bind_eq_bind, bind_some]
  · rw [setColor_frame e₄ hxy, x₃, map_some, cell_value]

theorem exists_slot (h : u ≠ nil) : ∃ i, slot u = some i := by
  cases u with
  | nil => exact absurd rfl h
  | node c l x r => exact ⟨_, rfl⟩

/-- `unlink` takes one entry out and says where a black node may be missing. -/
theorem unlink_rep (h : Rep t (plug p (join .left c l x r)))
    (hT : (plug p (join .left c l x r)).IsRedBlack) :
    ∃ v p' u N, t.unlink x.index = some v ∧ v.replacement = slot u ∧ v.replacementParent = up p' ∧
      Rep v.tree (plug p' u) ∧ (v.tree.get x.index).map RbNode.value = some x.value ∧
      SameSlots t v.tree ∧ LeftBy (plug p (join .left c l x r)) x p' u v.removedColor N := by
  have hleft : t.child .left x.index = some (slot l) := h.child
  have hright : t.child .right x.index = some (slot r) := h.child_other
  have hcolor : t.color (some x.index) = c := color_up (f := ⟨.left, c, x, r⟩) h
  have hvalue : (t.get x.index).map RbNode.value = some x.value := by rw [h.get, map_some, cell_value]
  by_cases hl : l = nil
  · subst hl
    obtain ⟨N, hby⟩ := LeftBy.single (s := .left) hT
    obtain ⟨t', ht', hr, hx, hs⟩ := transplant_rep (s := .left) h
    refine ⟨⟨t', c, slot r, up p⟩, p, r, N, ?_, rfl, rfl, hr, hx ▸ hvalue, hs, hby⟩
    simp only [unlink, hcolor, h.parent, hleft, hright, slot_nil, ht', bind_eq_bind, bind_some, pure]
  by_cases hr : r = nil
  · subst hr
    rw [show join .left c l x nil = join .right c nil x l from rfl] at h hT ⊢
    obtain ⟨N, hby⟩ := LeftBy.single (s := .right) hT
    obtain ⟨t', ht', hr, hx, hs⟩ := transplant_rep (s := .right) h
    refine ⟨⟨t', c, slot l, up p⟩, p, l, N, ?_, rfl, rfl, hr, hx ▸ hvalue, hs, hby⟩
    obtain ⟨i, hi⟩ := exists_slot hl
    rw [hi] at ht' hleft
    simp only [unlink, hcolor, h.parent, hleft, hright, hi, slot_nil, ht', bind_eq_bind, bind_some, pure]
  obtain ⟨i, hi⟩ := exists_slot hl
  obtain ⟨j, hj⟩ := exists_slot hr
  obtain ⟨inner, d, y, u, rfl, hinner, hmin⟩ :=
    minimum_rep (p := ⟨.right, c, x, l⟩ :: p) (u := r) h hj
  obtain ⟨N, hby⟩ := LeftBy.double hinner hT
  have h' := h
  rw [plug_right] at h'
  have hcy : t.color (some y.index) = d := color_up (f := ⟨.left, d, y, u⟩) h'
  have hry : t.child .right y.index = some (slot u) := h'.child_other
  obtain ⟨t₁, e₁, h₁, s₁⟩ := detachMoved_rep h
  have hnew : plug (inner ++ ⟨.right, c, y, l⟩ :: p) u = plug p (join .left c l y (plug inner u)) := by
    rw [plug_append]
    rfl
  -- the slots that remain are those of the tree without `x`
  obtain ⟨pre, post, hold, hrest⟩ := hby.entries
  rw [hnew] at hrest
  have hperm : (slots (plug p (join .left c l x (plug inner (join .left d nil y u))))).Perm
      (x.index :: slots (plug p (join .left c l y (plug inner u)))) := by
    rw [slots, slots, hold, hrest, map_append, map_append, map_cons]
    exact perm_middle
  have hnodup := nodup_cons.1 (hperm.nodup_iff.1 h.nodup)
  obtain ⟨t₂, e₂, h₂, hval, s₂⟩ := installMoved_rep h₁ hnodup.2 hnodup.1
  refine ⟨⟨t₂, d, slot u, up (inner ++ ⟨.right, c, y, l⟩ :: p)⟩, _, u, N, ?_, rfl, rfl, hnew ▸ h₂, hval, s₁.trans s₂, hby⟩
  rw [hj] at hright
  rw [hi] at hleft
  simp only [unlink, hcolor, h.parent, hleft, hright, bind_eq_bind, bind_some, unlinkInner, hmin, hcy, hry,
    e₁, e₂, pure]

end RbRootCached

/-! ## The records beside the links -/

/-- What the arena records besides the links: its nodes are those of the entries, the free slots are
exactly the empty ones, each once, and the first entry and the number of entries are cached. -/
structure Kept (t : RbRootCached K V) (l : List (Item K V)) : Prop where
  filled : ∀ i, (t.get i).isSome = true → i ∈ l.map Item.index
  freeNodup : t.freeSlots.Nodup
  free : ∀ i, i ∈ t.freeSlots ↔ i < t.nodes.length ∧ t.get i = none
  leftmost : t.leftmost = l.head?.map Item.index
  len : t.len = l.length

/-- Changing links keeps the records. -/
theorem Kept.same {l : List (Item K V)} (h : Kept t l) (hs : SameSlots t t') : Kept t' l where
  filled i hi := h.filled i (hs.filled i ▸ hi)
  freeNodup := hs.freeSlots ▸ h.freeNodup
  free i := by
    rw [hs.freeSlots, h.free, hs.length, ← not_isSome_iff_eq_none, ← not_isSome_iff_eq_none, hs.filled]
  leftmost := hs.leftmost.trans h.leftmost
  len := hs.len.trans h.len

theorem Rep.congr (h : Rep t T) (hget : ∀ i ∈ slots T, t'.get i = t.get i) (hroot : t'.root = t.root) : Rep t' T :=
  ⟨h.enc.congr hget, hroot.trans h.root, h.nodup⟩

theorem RbRootCached.findLeftmost_rep (h : Rep t T) : t.findLeftmost = some (T.entries.head?.map Item.index) := by
  cases hT : slot T with
  | none =>
    obtain rfl : T = nil := by cases T <;> first | rfl | cases hT
    rw [findLeftmost, h.root]
    rfl
  | some i =>
    obtain ⟨inner, c, x, r, rfl, hbefore, hmin⟩ := minimum_rep (p := []) h hT
    rw [findLeftmost, h.root, hT]
    simp [hmin, entries_plug, hbefore, around]

/-- After an entry is unlinked, its node is dropped and its slot is free. -/
theorem Kept.drop {l pre post : List (Item K V)} (h : Kept t l) (hs : SameSlots t t') (hl : l = pre ++ x :: post)
    (hx : (t'.get x.index).isSome = true) :
    Kept { t' with
      nodes := t'.nodes.set x.index none
      freeSlots := x.index :: t'.freeSlots
      leftmost := (pre ++ post).head?.map Item.index
      len := t'.len - 1 } (pre ++ post) := by
  have h' := h.same hs
  have hget : ∀ i, ({ t' with
      nodes := t'.nodes.set x.index none
      freeSlots := x.index :: t'.freeSlots
      leftmost := (pre ++ post).head?.map Item.index
      len := t'.len - 1 } : RbRootCached K V).get i = if i = x.index then none else t'.get i :=
    RbRootCached.get_set (RbRootCached.lt_of_get_isSome hx) none
  refine ⟨fun i hi => ?_, nodup_cons.2 ⟨fun hm => ?_, h'.freeNodup⟩, fun i => ?_, rfl, ?_⟩
  · rw [hget] at hi
    by_cases hix : i = x.index
    · rw [if_pos hix] at hi
      cases hi
    · rw [if_neg hix] at hi
      have := h'.filled i hi
      rw [hl] at this
      simp only [map_append, map_cons, mem_append, mem_cons] at this ⊢
      tauto
  · rw [((h'.free _).1 hm).2] at hx
    cases hx
  · rw [hget, mem_cons, h'.free, length_set]
    by_cases hix : i = x.index
    · subst hix
      simp [RbRootCached.lt_of_get_isSome hx]
    · simp [hix]
  · show t'.len - 1 = _
    rw [h'.len, hl]
    simp only [length_append, length_cons]
    omega

/-- What is left is a red-black tree if no black node is missing. -/
theorem LeftBy.isRedBlack {N : Nat} (h : LeftBy T x p u .red N) : (plug p u).IsRedBlack := by
  obtain ⟨n, hn, hp⟩ := h.bal
  refine ⟨?_, noRedRed_plug (h.pathNoRedRed.any _) h.noRedRed, N, bal_plug hp hn⟩
  rw [color_plug]
  cases p with
  | nil => cases h.top
  | cons f rest => exact h.top

end ShellCore.Sched
