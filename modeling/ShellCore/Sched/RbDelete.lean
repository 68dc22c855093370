import ShellCore.Sched.RbInsert

/-!
# Repair after a deletion

The subtree in focus lacks one black node. A round makes the sibling black, and then either takes a
black node from it, so that the lack moves up, or fills the lack by one or two rotations.
-/

namespace ShellCore.Sched

open ShellCore.Tree Path Option

namespace RbRootCached

variable {K V : Type} {s : Side} {c d : Color} {x y z : Item K V} {a b e u sib : Tree (Item K V)}
  {p : Path (Item K V)} {T : Tree (Item K V)} {t : RbRootCached K V} {n N m : Nat} {o : Option Nat}

/-- The loop ends at a red node and at the root. -/
theorem deleteFixupLoop_done (h : Rep t (plug p u)) (hu : u.color = .red ∨ p = []) :
    ∃ t', t.deleteFixupLoop (m + 1) (slot u) o = some t' ∧ Rep t' (plug p u.blacken) ∧
      SameSlots t t' := by
  obtain ⟨t', ht', hr, hs⟩ := blacken_rep h
  have hstop : ¬ (slot u ≠ t.root ∧ t.color (slot u) = .black) := by
    rintro ⟨hroot, hcolor⟩
    rcases hu with hu | rfl
    · rw [h.color, hu] at hcolor
      cases hcolor
    · exact hroot h.root.symm
  refine ⟨t', ?_, hr, hs⟩
  unfold deleteFixupLoop
  rw [if_neg hstop, ht']

section Round

-- a round starts with the lack in `u` and everything else in order
variable (h : Rep t (plug p (join s c u x sib))) (hb : sib.Bal (n + 1)) (hn : sib.NoRedRed)
  (hc : c = .red → sib.color = .black) (hpb : Bal p (if c = .black then n + 2 else n + 1) N)
  (hpn : NoRedRed p c) (htop : topColor p c = .black)

include h hb hn hc hpb hpn htop in
/-- After the first part of a round the sibling is black: it was, or its near child took its place
and the parent is red. -/
theorem raiseSibling_rep :
    ∃ t' p' c' sib', t.raiseSibling s x.index = some (t', slot sib') ∧
      Rep t' (plug p' (join s c' u x sib')) ∧ SameSlots t t' ∧
      (plug p' (join s c' u x sib')).entries = (plug p (join s c u x sib)).entries ∧
      sib'.Sound (n + 1) ∧ Bal p' (if c' = .black then n + 2 else n + 1) N ∧ NoRedRed p' c' ∧
      topColor p' c' = .black ∧ (c' = .red ∨ p' = p) := by
  have hcolor : t.color (slot sib) = sib.color := by
    rw [← join_other] at h
    exact Rep.color (p := ⟨s.other, c, x, u⟩ :: p) h
  cases hsib : sib.color with
  | black =>
    refine ⟨t, p, c, sib, ?_, h, .refl, rfl, ⟨hb, hn, hsib⟩, hpb, hpn, htop, .inr rfl⟩
    simp only [raiseSibling, h.child_other, bind_eq_bind, bind_some, hcolor, hsib, reduceCtorEq,
      if_false, pure]
  | red =>
    obtain ⟨a, y, b, rfl⟩ := exists_join_of_red s hsib
    obtain rfl : c = .black := by
      cases c with
      | red => exact absurd (hc rfl) (by rw [hsib]; decide)
      | black => rfl
    obtain ⟨ha, hb⟩ := bal_join_red.1 hb
    obtain ⟨hred, hna, hnb⟩ := noRedRed_join.1 hn
    have h₀ := h
    rw [← join_other] at h₀
    obtain ⟨t₁, e₁, h₁, s₁⟩ := setColor_rep (p := ⟨s.other, .black, x, u⟩ :: p) h₀ .black
    rw [plug_cons, join_other] at h₁
    obtain ⟨t₂, e₂, h₂, s₂⟩ := setColor_rep (p := p) h₁ .red
    obtain ⟨t₃, e₃, h₃, s₃⟩ := rotate_rep h₂
    have hchild : t₃.child s.other x.index = some (slot a) := Rep.child_other (p := ⟨s, .black, y, b⟩ :: p) h₃
    refine ⟨t₃, ⟨s, .black, y, b⟩ :: p, .red, a, ?_, h₃, s₁.trans (s₂.trans s₃), ?_,
      ⟨ha, hna, (hred rfl).1⟩, ⟨hb, hpb⟩, ⟨nofun, hnb, hpn⟩, htop, .inl rfl⟩
    · have hch : t.child s.other x.index = some (some y.index) := by rw [h.child_other, slot_join]
      rw [slot_join] at hcolor
      simp only [raiseSibling, hch, bind_eq_bind, bind_some, hcolor, hsib, if_true, e₁, e₂, e₃, hchild,
        pure]
    · rw [plug_cons, entries_plug, entries_plug]
      simp only [entries_join, around_around]

/-- After the second part of a round the far child of the sibling is red. -/
theorem turnSibling_rep (h : Rep t (plug p (join s c u x (join s .black a y b)))) (ha : a.Bal n)
    (hb : b.Bal n) (hna : a.NoRedRed) (hnb : b.NoRedRed) (hred : ¬ (a.color = .black ∧ b.color = .black)) :
    ∃ t' a' z b', t.turnSibling s x.index (some y.index) = some (t', some z.index) ∧
      Rep t' (plug p (join s c u x (join s .black a' z b'))) ∧ SameSlots t t' ∧
      (join s .black a' z b').entries = (join s .black a y b).entries ∧
      a'.Bal n ∧ a'.NoRedRed ∧ b'.Bal n ∧ b'.NoRedRed ∧ b'.color = .red := by
  have h₀ := h
  rw [← join_other] at h₀
  have hfar : t.child s.other y.index = some (slot b) :=
    Rep.child_other (p := ⟨s.other, c, x, u⟩ :: p) h₀
  have hcolor : t.color (slot b) = b.color := by
    rw [← join_other (s := s) (x := y)] at h₀
    exact Rep.color (p := ⟨s.other, .black, y, a⟩ :: ⟨s.other, c, x, u⟩ :: p) h₀
  cases hbc : b.color with
  | red =>
    refine ⟨t, a, y, b, ?_, h, .refl, rfl, ha, hna, hb, hnb, hbc⟩
    simp only [turnSibling, childOf, hfar, bind_eq_bind, bind_some, hcolor, hbc, reduceCtorEq, if_false,
      pure]
  | black =>
    have hac : a.color = .red := by
      cases hac : a.color with
      | red => rfl
      | black => exact absurd ⟨hac, hbc⟩ hred
    obtain ⟨a₁, z, a₂, rfl⟩ := exists_join_of_red s hac
    obtain ⟨ha₁, ha₂⟩ := bal_join_red.1 ha
    obtain ⟨hcol, hn₁, hn₂⟩ := noRedRed_join.1 hna
    have hnear : t.child s y.index = some (some z.index) := by
      rw [Rep.child (p := ⟨s.other, c, x, u⟩ :: p) h₀, slot_join]
    obtain ⟨t₁, e₁, h₁, s₁⟩ := setColor_rep (p := ⟨s, .black, y, b⟩ :: ⟨s.other, c, x, u⟩ :: p) h₀ .black
    obtain ⟨t₂, e₂, h₂, s₂⟩ := setColor_rep (p := ⟨s.other, c, x, u⟩ :: p) h₁ .red
    obtain ⟨t₃, e₃, h₃, s₃⟩ := rotate_other_rep h₂
    rw [plug_cons, join_other] at h₃
    have hchild : t₃.child s.other x.index = some (some z.index) := by rw [h₃.child_other, slot_join]
    refine ⟨t₃, a₁, z, join s .red a₂ y b, ?_, h₃, s₁.trans (s₂.trans s₃), ?_, ha₁, hn₁, bal_join_red.2 ⟨ha₂, hb⟩,
      noRedRed_join.2 ⟨fun _ => ⟨(hcol rfl).2, hbc⟩, hn₂, hnb⟩, color_join⟩
    · simp only [turnSibling, childOf, hfar, hnear, bind_eq_bind, bind_some, hcolor, hbc, if_true, e₁, e₂,
        e₃, hchild, pure]
    · simp only [entries_join, around_around]

theorem fillFromSibling_rep (h : Rep t (plug p (join s c u x (join s .black a y b)))) :
    ∃ t', t.fillFromSibling s x.index (some y.index) = some t' ∧
      Rep t' (plug p (join s c (join s .black u x a) y b.blacken)) ∧ SameSlots t t' := by
  have hcolor : t.color (some x.index) = c := color_up (f := ⟨s, c, x, _⟩) h
  rw [← join_other] at h
  obtain ⟨t₁, e₁, h₁, s₁⟩ := setColor_rep (p := ⟨s.other, c, x, u⟩ :: p) h c
  obtain ⟨t₂, e₂, h₂, s₂⟩ := setColor_rep (p := p) h₁ .black
  have hfar : t₂.child s.other y.index = some (slot b) := Rep.child_other (p := ⟨s.other, .black, x, u⟩ :: p) h₂
  rw [← join_other (s := s) (x := y)] at h₂
  obtain ⟨t₃, e₃, h₃, s₃⟩ := blacken_rep (p := ⟨s.other, c, y, a⟩ :: ⟨s.other, .black, x, u⟩ :: p) h₂
  rw [plug_cons, plug_cons, join_other, join_other] at h₃
  obtain ⟨t₄, e₄, h₄, s₄⟩ := rotate_rep h₃
  refine ⟨t₄, ?_, h₄, s₁.trans (s₂.trans (s₃.trans s₄))⟩
  simp only [fillFromSibling, hcolor, e₁, e₂, childOf, hfar, e₃, e₄, bind_eq_bind, bind_some]

include h hb hn hc hpb hpn htop in
/-- A round either leaves the lack one level up or ends the repair. -/
theorem deleteFixupSide_rep (hu : u.Sound n) :
    (∃ t' p' c' v, t.deleteFixupSide s x.index = some (t', some x.index, up p') ∧
      Rep t' (plug p' (join s c' u x v)) ∧ SameSlots t t' ∧
      (plug p' (join s c' u x v)).entries = (plug p (join s c u x sib)).entries ∧
      (join s c' u x v).Bal (if c' = .black then n + 1 else n) ∧ (join s .black u x v).NoRedRed ∧
      Bal p' (if c' = .black then n + 2 else n + 1) N ∧ NoRedRed p' c' ∧
      topColor p' c' = .black ∧ (c' = .red ∨ p' = p)) ∨
    (∃ t' T', t.deleteFixupSide s x.index = some (t', t'.root, none) ∧ Rep t' T' ∧ SameSlots t t' ∧
      T'.entries = (plug p (join s c u x sib)).entries ∧ T'.Bal N ∧ T'.NoRedRed) := by
  obtain ⟨t₁, p', c', sib', e₁, h₁, s₁, hent, hsib, hpb', hpn', htop', hc'⟩ :=
    raiseSibling_rep h hb hn hc hpb hpn htop
  obtain ⟨d, a, y, b, rfl⟩ := exists_join_of_bal s hsib.bal
  obtain rfl : d = .black := by rw [← hsib.color, color_join]
  obtain ⟨ha, hb⟩ := bal_join_black_succ.1 hsib.bal
  obtain ⟨-, hna, hnb⟩ := noRedRed_join.1 hsib.noRedRed
  have h₀ := h₁
  rw [← join_other] at h₀
  have hnear : t₁.child s y.index = some (slot a) := Rep.child (p := ⟨s.other, c', x, u⟩ :: p') h₀
  have hfar : t₁.child s.other y.index = some (slot b) := Rep.child_other (p := ⟨s.other, c', x, u⟩ :: p') h₀
  have hca : t₁.color (slot a) = a.color :=
    Rep.color (p := ⟨s, .black, y, b⟩ :: ⟨s.other, c', x, u⟩ :: p') h₀
  have hcb : t₁.color (slot b) = b.color := by
    have h₀' := h₀
    rw [← join_other (s := s) (x := y)] at h₀'
    exact Rep.color (p := ⟨s.other, .black, y, a⟩ :: ⟨s.other, c', x, u⟩ :: p') h₀'
  rw [slot_join] at e₁
  by_cases hblack : a.color = .black ∧ b.color = .black
  · left
    obtain ⟨t₂, e₂, h₂, s₂⟩ := setColor_rep (p := ⟨s.other, c', x, u⟩ :: p') h₀ .red
    rw [plug_cons, join_other] at h₂
    refine ⟨t₂, p', c', join s .red a y b, ?_, h₂, s₁.trans s₂, ?_, ?_, ?_, hpb', hpn', htop', hc'⟩
    · simp only [deleteFixupSide, e₁, bind_eq_bind, bind_some, childOf, hnear, hfar, hca, hcb, hblack,
        and_self, if_true, e₂, h₂.parent, pure]
    · rw [← hent, entries_plug, entries_plug]
      simp only [entries_join]
    · exact bal_join.2 ⟨hu.bal, bal_join_red.2 ⟨ha, hb⟩⟩
    · exact noRedRed_join.2 ⟨nofun, hu.noRedRed, noRedRed_join.2 ⟨fun _ => hblack, hna, hnb⟩⟩
  · right
    obtain ⟨t₂, a', z, b', e₂, h₂, s₂, hent₂, ha', hna', hb', hnb', hred⟩ := turnSibling_rep h₁ ha hb hna hnb hblack
    obtain ⟨t₃, e₃, h₃, s₃⟩ := fillFromSibling_rep h₂
    have hfill := sound_blacken_of_red hred hb' hnb'.blacken
    refine ⟨t₃, _, ?_, h₃, s₁.trans (s₂.trans s₃), ?_, ?_, ?_⟩
    · simp only [deleteFixupSide, e₁, bind_eq_bind, bind_some, childOf, hnear, hfar, hca, hcb, hblack,
        if_false, e₂, e₃, pure]
    · rw [← hent, entries_plug, entries_plug, entries_join (x := x), ← hent₂]
      simp only [entries_join, entries_blacken, around_around]
    · exact bal_plug hpb' (bal_join.2 ⟨bal_join_black_succ.2 ⟨hu.bal, ha'⟩, hfill.bal⟩)
    · refine noRedRed_plug (by rwa [color_join]) (noRedRed_join.2 ⟨fun _ => ⟨color_join, hfill.color⟩, ?_, hfill.noRedRed⟩)
      exact noRedRed_join.2 ⟨nofun, hu.noRedRed, hna'⟩

end Round

/-- The root lies on the path. -/
theorem slot_plug_cons {f : Frame (Item K V)} : ∃ i ∈ pathSlots (f :: p), slot (plug (f :: p) u) = some i := by
  induction p generalizing f u with
  | nil => exact ⟨f.label.index, List.mem_cons_self, by rw [plug_cons, plug_nil, slot_join]⟩
  | cons g rest ih =>
    obtain ⟨i, hi, h⟩ := ih (f := g) (u := join f.side f.color u f.label f.sibling)
    exact ⟨i, List.mem_cons_of_mem _ (List.mem_append_right _ hi), h⟩

/-- A round below a black node: it is not the root, and it is found on its side even if it is empty. -/
theorem deleteFixupLoop_round {f : Frame (Item K V)} (h : Rep t (plug (f :: p) u)) (hu : u.color = .black)
    (hs : f.sibling.Bal (n + 1)) : t.deleteFixupLoop (m + 1) (slot u) (some f.label.index) =
      (t.deleteFixupSide f.side f.label.index).bind fun o => o.1.deleteFixupLoop m o.2.1 o.2.2 := by
  have hnode : slot u ≠ t.root := by
    obtain ⟨i, hi, hroot⟩ := slot_plug_cons (f := f) (p := p) (u := u)
    obtain ⟨-, -, hd⟩ := nodup_slots_plug.1 h.nodup
    rw [h.root, hroot]
    exact fun he => hd (mem_slots_of_slot he) hi
  have hne : slot u ≠ slot f.sibling := by
    obtain ⟨c, a, y, b, hsib⟩ := exists_join_of_bal f.side hs
    obtain ⟨hn, -, -⟩ := nodup_slots_plug.1 (plug_cons ▸ h.nodup)
    obtain ⟨-, -, -, -, hd⟩ := nodup_slots_join.1 hn
    intro he
    rw [hsib, slot_join] at he
    exact hd (mem_slots_of_slot he) (by rw [hsib, mem_slots_join]; exact .inr (.inl rfl))
  obtain ⟨l, hl, hside⟩ : ∃ l, t.child .left f.label.index = some l ∧
      (if slot u = l then Side.left else .right) = f.side := by
    have hc := Rep.child (plug_cons ▸ h)
    have hc' := Rep.child_other (plug_cons ▸ h)
    cases hs : f.side with
    | left => exact ⟨_, hs ▸ hc, if_pos rfl⟩
    | right =>
      rw [hs] at hc'
      exact ⟨_, hc', if_neg hne⟩
  have hloop : slot u ≠ t.root ∧ t.color (slot u) = .black := ⟨hnode, h.color.trans hu⟩
  conv_lhs => unfold deleteFixupLoop
  rw [if_pos hloop]
  simp only [hl, hside, bind_eq_bind, bind_some]

/-- The repair ends at a red node. -/
theorem deleteFixupLoop_red (h : Rep t (plug p u)) (hred : u.color = .red) (hb : u.Bal n)
    (hn : u.blacken.NoRedRed) (hpb : Bal p (n + 1) N) (hpn : NoRedRed p .black)
    (htop : topColor p .black = .black) :
    ∃ t' T', t.deleteFixupLoop (m + 1) (slot u) o = some t' ∧ Rep t' T' ∧
      T'.entries = (plug p u).entries ∧ T'.IsRedBlack ∧ SameSlots t t' := by
  obtain ⟨t', ht', hr, hs⟩ := deleteFixupLoop_done (m := m) (o := o) h (.inl hred)
  have hsound := sound_blacken_of_red hred hb hn
  refine ⟨t', _, ht', hr, ?_, ⟨?_, ?_, N, ?_⟩, hs⟩
  · rw [entries_plug, entries_plug, entries_blacken]
  · rw [color_plug, hsound.color, htop]
  · exact noRedRed_plug (by rwa [hsound.color]) hsound.noRedRed
  · exact bal_plug hpb hsound.bal

/-- `delete_fixup` makes the tree a red-black tree with the same entries. -/
theorem deleteFixupLoop_rep (hfuel : p.length + 1 < m) (h : Rep t (plug p u)) (hb : u.Bal n)
    (hn : u.blacken.NoRedRed) (hpb : Bal p (n + 1) N) (hpn : NoRedRed p .black)
    (htop : topColor p .black = .black) :
    ∃ t' T', t.deleteFixupLoop m (slot u) (up p) = some t' ∧ Rep t' T' ∧
      T'.entries = (plug p u).entries ∧ T'.IsRedBlack ∧ SameSlots t t' := by
  induction m generalizing p t u n with
  | zero => exact absurd hfuel (Nat.not_lt_zero _)
  | succ m ih =>
    by_cases hred : u.color = .red
    · exact deleteFixupLoop_red h hred hb hn hpb hpn htop
    replace hred : u.color = .black := by cases hc : u.color <;> simp_all
    rw [blacken_eq hred] at hn
    match p with
    | [] =>
      obtain ⟨t', ht', hr, hs⟩ := deleteFixupLoop_done (m := m) (o := none) h (.inr rfl)
      exact ⟨t', _, ht', hr, entries_blacken, isRedBlack_blacken hn hb, hs⟩
    | f :: p =>
      rw [up_cons, deleteFixupLoop_round h hred hpb.1]
      rw [plug_cons] at h ⊢
      rw [List.length_cons] at hfuel
      obtain ⟨m, rfl⟩ : ∃ k, m = k + 1 := ⟨m - 1, by omega⟩
      rcases deleteFixupSide_rep h hpb.1 hpn.2.1 (fun hf => (hpn.1 hf).2) hpb.2 hpn.2.2 htop ⟨hb, hn, hred⟩ with
        ⟨t₁, p', c', v, e₁, h₁, s₁, hent₁, hb₁, hn₁, hpb₁, hpn₁, htop₁, hc'⟩ |
        ⟨t₁, T₁, e₁, h₁, s₁, hent₁, hb₁, hn₁⟩
      · obtain ⟨t', T', e', hr, hent, hrb, hs⟩ : ∃ t' T', t₁.deleteFixupLoop (m + 1) (some f.label.index) (up p') =
            some t' ∧ Rep t' T' ∧ T'.entries = (plug p' (join f.side c' u f.label v)).entries ∧
            T'.IsRedBlack ∧ SameSlots t₁ t' := by
          rw [← slot_join (s := f.side) (c := c') (a := u) (x := f.label) (b := v)]
          cases c' with
          | red =>
            refine deleteFixupLoop_red (N := N) h₁ color_join hb₁ (by rwa [blacken_join]) hpb₁ hpn₁.black ?_
            cases p' with
            | nil => rfl
            | cons g rest => exact htop₁
          | black =>
            obtain rfl : p' = p := hc'.resolve_left nofun
            exact ih (by omega) h₁ hb₁ (by rwa [blacken_join]) hpb₁ hpn₁ htop₁
        refine ⟨t', T', ?_, hr, hent.trans hent₁, hrb, s₁.trans hs⟩
        rw [e₁, bind_some, e']
      · obtain ⟨t', ht', hr, hs⟩ := deleteFixupLoop_done (p := []) (m := m) (o := none) h₁ (.inr rfl)
        rw [← h₁.root] at ht'
        refine ⟨t', _, ?_, hr, ?_, isRedBlack_blacken hn₁ hb₁, s₁.trans hs⟩
        · rw [e₁, bind_some, ht']
        · rw [plug_nil, entries_blacken, hent₁]

end RbRootCached

end ShellCore.Sched
