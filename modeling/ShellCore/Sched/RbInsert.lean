import ShellCore.Sched.RbArena

/-!
# Repair after an insertion

The new node is red, and the only fault the tree can have is that its parent is red too. A round
either moves the fault two levels up or removes it by one or two rotations.
-/

namespace ShellCore.Sched

open ShellCore.Tree Path Option

variable {r : Side}

namespace RbRootCached

variable {K V : Type} {s : Side} {c d : Color} {x y z : Item K V} {a b e u : Tree (Item K V)}
  {p : Path (Item K V)} {T : Tree (Item K V)} {t : RbRootCached K V} {n N m : Nat}

/-- The last step of both repairs. -/
theorem blacken_rep (h : Rep t (plug p u)) :
    ∃ t', t.setColor (slot u) .black = some t' ∧ Rep t' (plug p u.blacken) ∧ SameSlots t t' := by
  cases u with
  | nil => exact ⟨t, rfl, h, .refl⟩
  | node c l x r => exact setColor_rep (s := .left) h .black

/-- The left child of the node above the hole is the hole exactly if the hole is on the left. -/
theorem side_of_child {f : Frame (Item K V)} (h : Rep t (plug (f :: p) (join s c a x b))) :
    ∃ l, t.child .left f.label.index = some l ∧
      (if l = some x.index then Side.left else .right) = f.side := by
  obtain ⟨hn, -, -⟩ := nodup_slots_plug.1 (plug_cons ▸ h.nodup)
  obtain ⟨-, -, -, -, hd⟩ := nodup_slots_join.1 hn
  have hne : slot f.sibling ≠ some x.index := fun he =>
    hd (mem_slots_join.2 (.inr (.inl rfl))) (mem_slots_of_slot he)
  have hc := Rep.child (plug_cons ▸ h)
  have hc' := Rep.child_other (plug_cons ▸ h)
  cases hs : f.side with
  | left => exact ⟨_, hs ▸ hc, if_pos slot_join⟩
  | right =>
    rw [hs] at hc'
    exact ⟨_, hc', if_neg hne⟩

/-- The outer rotation, with the fault in a straight line. -/
theorem insertTurn_rep {w : Item K V} {b₂ sib : Tree (Item K V)}
    (h : Rep t (plug p (join s .black (join s .red (join s .red a z b) y b₂) w sib))) :
    ∃ t', t.insertTurn s z.index = some t' ∧
      Rep t' (plug p (join s .black (join s .red a z b) y (join s .red b₂ w sib))) ∧ SameSlots t t' := by
  have hz : t.parent z.index = some (some y.index) :=
    Rep.parent (p := ⟨s, .red, y, b₂⟩ :: ⟨s, .black, w, sib⟩ :: p) h
  have hy : t.parent y.index = some (some w.index) := Rep.parent (p := ⟨s, .black, w, sib⟩ :: p) h
  obtain ⟨t₁, e₁, h₁, s₁⟩ := setColor_rep (p := ⟨s, .black, w, sib⟩ :: p) h .black
  obtain ⟨t₂, e₂, h₂, s₂⟩ := setColor_rep (p := p) h₁ .red
  obtain ⟨t₃, e₃, h₃, s₃⟩ := rotate_other_rep h₂
  refine ⟨t₃, ?_, h₃, s₁.trans (s₂.trans s₃)⟩
  simp only [insertTurn, hz, hy, e₁, e₂, e₃, bind_eq_bind, bind_some]

/-- The inner rotation brings the fault into a straight line. -/
theorem insertStraighten_rep {f : Frame (Item K V)}
    (h : Rep t (plug p (join f.side .red (join r .red a x b) f.label f.sibling)))
    (ha : a.Sound n) (hb : b.Sound n) (hf : f.sibling.Sound n) :
    ∃ t' a₁ z b₁ y b₂, t.insertStraighten s x.index f.label.index = some (t', z.index) ∧
      Rep t' (plug p (join s .red (join s .red a₁ z b₁) y b₂)) ∧ SameSlots t t' ∧
      (join s .red (join s .red a₁ z b₁) y b₂).entries =
        (join f.side .red (join r .red a x b) f.label f.sibling).entries ∧
      a₁.Sound n ∧ b₁.Sound n ∧ b₂.Sound n := by
  obtain ⟨side, d, y, sib⟩ := f
  dsimp only at h hf ⊢
  -- read the node from side `s`
  obtain ⟨a', b', hab, hsound⟩ := join_eq_join r s .red a x b
  obtain ⟨ha', hb'⟩ : a'.Sound n ∧ b'.Sound n := by
    rcases hsound with ⟨rfl, rfl⟩ | ⟨rfl, rfl⟩
    · exact ⟨ha, hb⟩
    · exact ⟨hb, ha⟩
  rw [hab] at h ⊢
  by_cases hside : side = s
  · subst hside
    obtain ⟨hn, -, -⟩ := nodup_slots_plug.1 h.nodup
    obtain ⟨-, -, -, -, hd⟩ := nodup_slots_join.1 hn
    have hne : slot sib ≠ some x.index := fun he =>
      hd (mem_slots_join.2 (.inr (.inl rfl))) (mem_slots_of_slot he)
    refine ⟨t, a', x, b', y, sib, ?_, h, .refl, rfl, ha', hb', hf⟩
    simp only [insertStraighten, h.child_other, bind_eq_bind, bind_some, if_neg hne, pure]
  · obtain rfl := Side.eq_other_of_ne hside
    rw [join_other] at h ⊢
    obtain ⟨t', ht', h', hs'⟩ := rotate_rep h
    refine ⟨t', sib, y, a', x, b', ?_, h', hs', ?_, hf, ha', hb'⟩
    · simp only [insertStraighten, h.child_other, slot_join, bind_eq_bind, bind_some, ite_true, ht', pure]
    · simp only [entries_join, around_around]

theorem color_up {f : Frame (Item K V)} (h : Rep t (plug (f :: p) u)) :
    t.color (some f.label.index) = f.color := by
  have := Rep.color (plug_cons ▸ h)
  rwa [slot_join, color_join] at this

/-- The loop ends below a black node or at the root. -/
theorem insertFixupLoop_done (h : Rep t (plug p (join r .red a x b))) (ha : a.Sound n)
    (hb : b.Sound n) (hp : p.Rising n N) (hup : ∀ f ∈ p.head?, f.color = .black) :
    ∃ t' T', t.insertFixupLoop (m + 1) x.index = some t' ∧ Rep t' T' ∧
      T'.entries = (plug p (join r .red a x b)).entries ∧ T'.IsRedBlack ∧ SameSlots t t' := by
  have hcolor : t.color (up p) = .black := by
    cases p with
    | nil => rfl
    | cons f rest => exact (color_up h).trans (hup f rfl)
  obtain ⟨t', ht', hr, hs⟩ := blacken_rep (p := []) h
  rw [← h.root] at ht'
  have hfits : NoRedRed p .red := by
    cases p with
    | nil => trivial
    | cons f rest => exact ⟨fun hf => (by cases (hup f rfl).symm.trans hf), hp.noRedRed.2⟩
  refine ⟨t', _, ?_, hr, entries_blacken, isRedBlack_blacken ?_ (n := N) ?_, hs⟩
  · rw [insertFixupLoop, h.parent]
    simp only [bind_eq_bind, bind_some, hcolor, reduceCtorEq, if_false, ht']
  · exact noRedRed_plug (by rwa [color_join])
      (noRedRed_join.2 ⟨fun _ => ⟨ha.color, hb.color⟩, ha.noRedRed, hb.noRedRed⟩)
  · exact bal_plug hp.bal (bal_join_red.2 ⟨ha.bal, hb.bal⟩)

/-- A red uncle: the red moves from the children of the grandparent to the grandparent. -/
theorem insertFixupSide_recolor {i : Nat} {w : Item K V} {ua ub : Tree (Item K V)} {q r : Side}
    (h : Rep t (plug p (join s .black (join q .red u y e) w (join r .red ua z ub)))) :
    ∃ t', t.insertFixupSide s i y.index w.index = some (t', w.index) ∧
      Rep t' (plug p (join s .red (join q .black u y e) w (join r .black ua z ub))) ∧ SameSlots t t' := by
  have huncle : t.child s.other w.index = some (some z.index) := by rw [h.child_other, slot_join]
  have hcolor : t.color (some z.index) = .red := by
    rw [← join_other] at h
    exact color_up (p := ⟨s.other, .black, w, join q .red u y e⟩ :: p) (f := ⟨r, .red, z, ub⟩) h
  obtain ⟨t₁, e₁, h₁, s₁⟩ := setColor_rep (p := ⟨s, .black, w, join r .red ua z ub⟩ :: p) h .black
  rw [plug_cons, ← join_other] at h₁
  obtain ⟨t₂, e₂, h₂, s₂⟩ := setColor_rep (p := ⟨s.other, .black, w, join q .black u y e⟩ :: p) h₁ .black
  obtain ⟨t₃, e₃, h₃, s₃⟩ := setColor_rep (p := p) h₂ .red
  rw [join_other] at h₃
  refine ⟨t₃, ?_, h₃, s₁.trans (s₂.trans s₃)⟩
  simp only [insertFixupSide, huncle, hcolor, if_true, e₁, e₂, e₃, bind_eq_bind, bind_some, pure]

/-- A black uncle: the rotations leave a black root with the node as a child of it. -/
theorem insertFixupSide_turn {w : Item K V} {sib : Tree (Item K V)} {f : Frame (Item K V)}
    (h : Rep t (plug p (join s .black (join f.side .red (join r .red a x b) f.label f.sibling) w sib)))
    (ha : a.Sound n) (hb : b.Sound n) (hf : f.sibling.Sound n) (hs : sib.Sound n) :
    ∃ t' a₁ z b₁ y v, t.insertFixupSide s x.index f.label.index w.index = some (t', z.index) ∧
      Rep t' (plug p (join s .black (join s .red a₁ z b₁) y v)) ∧ SameSlots t t' ∧
      (join s .black (join s .red a₁ z b₁) y v).entries =
        (join s .black (join f.side .red (join r .red a x b) f.label f.sibling) w sib).entries ∧
      a₁.Sound n ∧ b₁.Sound n ∧ v.Bal n ∧ v.NoRedRed := by
  have hcolor : t.color (slot sib) = .black := by
    rw [← join_other] at h
    exact (Rep.color (p := ⟨s.other, .black, w, _⟩ :: p) h).trans hs.color
  obtain ⟨t₁, a₁, z, b₁, y, b₂, e₁, h₁, s₁, hent, ha₁, hb₁, hb₂⟩ :=
    insertStraighten_rep (s := s) (p := ⟨s, .black, w, sib⟩ :: p) h ha hb hf
  obtain ⟨t₂, e₂, h₂, s₂⟩ := insertTurn_rep h₁
  refine ⟨t₂, a₁, z, b₁, y, join s .red b₂ w sib, ?_, h₂, s₁.trans s₂, ?_, ha₁, hb₁, ?_, ?_⟩
  · simp only [insertFixupSide, h.child_other, hcolor, reduceCtorEq, if_false, e₁, e₂, bind_eq_bind,
      bind_some, pure]
  · rw [entries_join, entries_join (a := join f.side _ _ _ _), ← hent]
    simp only [entries_join, around_around]
  · exact bal_join_red.2 ⟨hb₂.bal, hs.bal⟩
  · exact noRedRed_join.2 ⟨fun _ => ⟨hb₂.color, hs.color⟩, hb₂.noRedRed, hs.noRedRed⟩

/-- One round of the loop below a red node. -/
theorem insertFixupLoop_round {f g : Frame (Item K V)}
    (h : Rep t (plug (f :: g :: p) (join r .red a x b))) (hf : f.color = .red) :
    t.insertFixupLoop (m + 1) x.index =
      (t.insertFixupSide g.side x.index f.label.index g.label.index).bind fun p => p.1.insertFixupLoop m p.2 := by
  have hx : t.parent x.index = some (some f.label.index) := h.parent
  have hfp : t.parent f.label.index = some (some g.label.index) := Rep.parent (p := g :: p) h
  obtain ⟨l, hl, hside⟩ := side_of_child (f := g) (p := p) h
  rw [insertFixupLoop, hx]
  simp only [bind_eq_bind, bind_some, color_up h, hf, if_true, hfp, hl, hside]

/-- `insert_fixup` makes the tree a red-black tree with the same entries. -/
theorem insertFixupLoop_rep (hfuel : p.length < m)
    (h : Rep t (plug p (join r .red a x b))) (ha : a.Sound n) (hb : b.Sound n) (hp : p.Rising n N) :
    ∃ t' T', t.insertFixupLoop m x.index = some t' ∧ Rep t' T' ∧
      T'.entries = (plug p (join r .red a x b)).entries ∧ T'.IsRedBlack ∧ SameSlots t t' := by
  induction m generalizing p t r a x b n with
  | zero => exact absurd hfuel (Nat.not_lt_zero _)
  | succ m ih =>
    match p with
    | [] => exact insertFixupLoop_done h ha hb hp (by simp)
    | f :: rest =>
      by_cases hf : f.color = .black
      · exact insertFixupLoop_done h ha hb hp fun f' hf' => some.inj hf' ▸ hf
      replace hf : f.color = .red := by cases hc : f.color <;> simp_all
      match rest with
      | [] => exact absurd hp.top (by simp [topColor, hf])
      | g :: p =>
        obtain ⟨hbalf, hbalg, hbal⟩ := hp.bal
        obtain ⟨hredf, hnof, hredg, hnog, hno⟩ := hp.noRedRed
        have hg : g.color = .black := by
          cases hc : g.color with
          | red => exact absurd (hredg hc).1 (by simp [hf])
          | black => rfl
        simp only [hf, hg, reduceCtorEq, if_false, if_true] at hbalg hbal
        have hfs : f.sibling.Sound n := ⟨hbalf, hnof, (hredf hf).2⟩
        have hup : Rising p (n + 1) N := by
          have htop := hp.top
          rw [topColor, topColor, hg] at htop
          exact ⟨hbal, hno.black, htop⟩
        rw [insertFixupLoop_round h hf]
        rw [plug_cons, plug_cons, hf, hg] at h ⊢
        cases hu : g.sibling.color with
        | red =>
          obtain ⟨ua, uz, ub, hug⟩ := exists_join_of_red g.side hu
          rw [hug] at h hbalg hnog ⊢
          obtain ⟨hua, hub⟩ := bal_join_red.1 hbalg
          obtain ⟨-, hna, hnb⟩ := noRedRed_join.1 hnog
          obtain ⟨t₁, e₁, h₁, s₁⟩ := insertFixupSide_recolor (i := x.index) h
          obtain ⟨t', T', e', hr, hent, hrb, hs⟩ := ih (by simp only [List.length_cons] at hfuel; omega) h₁
            ⟨bal_join_black_succ.2 ⟨bal_join_red.2 ⟨ha.bal, hb.bal⟩, hbalf⟩, noRedRed_join.2 ⟨by simp,
              noRedRed_join.2 ⟨fun _ => ⟨ha.color, hb.color⟩, ha.noRedRed, hb.noRedRed⟩, hnof⟩, color_join⟩
            ⟨bal_join_black_succ.2 ⟨hua, hub⟩, noRedRed_join.2 ⟨by simp, hna, hnb⟩, color_join⟩ hup
          refine ⟨t', T', ?_, hr, ?_, hrb, s₁.trans hs⟩
          · rw [e₁, bind_some, e']
          · rw [hent, entries_plug, entries_plug]
            simp only [entries_join]
        | black =>
          obtain ⟨t₁, a₁, z, b₁, y, v, e₁, h₁, s₁, hent₁, ha₁, hb₁, hv, hnv⟩ :=
            insertFixupSide_turn h ha hb hfs ⟨hbalg, hnog, hu⟩
          obtain ⟨m, rfl⟩ : ∃ k, m = k + 1 := ⟨m - 1, by simp only [List.length_cons] at hfuel; omega⟩
          obtain ⟨t', T', e', hr, hent, hrb, hs⟩ :=
            insertFixupLoop_done (p := ⟨g.side, .black, y, v⟩ :: p) (m := m) (N := N) h₁ ha₁ hb₁
              ⟨⟨hv, hup.bal⟩, ⟨by simp, hnv, hup.noRedRed⟩, hup.top⟩ fun f' hf' => (some.inj hf') ▸ rfl
          refine ⟨t', T', ?_, hr, ?_, hrb, s₁.trans hs⟩
          · rw [e₁, bind_some, e']
          · rw [hent, plug_cons, entries_plug, hent₁, ← entries_plug]

end RbRootCached

end ShellCore.Sched
