import ShellCore.Mm.MapArea

/-!
# What populating pages can do

`Populated` says once what mapping pages of an area may change: the area gains resident pages, each
mapped to the frame that is recorded for it, and every frame comes from one of four places
(`Source`). All ways of populating an area satisfy it.
-/

namespace ShellCore.Mm

open Function Option

/-- Where the frame of a newly mapped page comes from. `used` are the frames that were allocated. -/
inductive Source (fv : Files) (a : MapArea) (phys : Phys) (used : List Frame) (v : Nat) (f : Frame)
    (flags : MapPermission) : Prop where
  | fresh (h : f ∈ used)
  | registered (id : Nat) (ha : a.anonymousSharedFrames = some id) (h : phys.shared id v = some f)
  | filePage (file : File) (page : Nat) (ha : a.pageCacheCow = true) (h : fv.getFilePage file page = some f)
      (hw : flags.w = false)
  | sharedPage (file : File) (page : Nat) (ha : a.isShared = true) (h : fv.getSharedPage file page = some f)

/-- The effect of mapping some of the pages `P`. -/
structure Populated (fv : Files) (P : Nat → Prop) (used : List Frame) (s s' : Populating) : Prop where
  attrs : s'.area = { s.area with dataFrames := s'.area.dataFrames }
  free : s.phys.free = used ++ s'.phys.free
  mem : ∀ f, f ∉ used → s'.phys.mem f = s.phys.mem f
  nextShared : s'.phys.nextShared = s.phys.nextShared
  keeps : ∀ id v f, s.phys.shared id v = some f → s'.phys.shared id v = some f
  shared : ∀ id v f, s'.phys.shared id v = some f →
    s.phys.shared id v = some f ∨ f ∈ used ∧ s.area.anonymousSharedFrames = some id
  page : ∀ v, (s'.area.dataFrames.get? v = s.area.dataFrames.get? v ∧ s'.pt v = s.pt v) ∨
    (P v ∧ s.pt v = none ∧ ∃ f flags, s'.area.dataFrames.get? v = some f ∧ s'.pt v = some ⟨f, flags⟩ ∧
      (flags.w = true → s.area.mapPerm.w = true) ∧ Source fv s.area s'.phys used v f flags)

namespace Populated

variable {fv : Files} {P Q : Nat → Prop} {used used' : List Frame} {s s' s'' : Populating}

theorem refl (s : Populating) : Populated fv P [] s s where
  attrs := rfl
  free := rfl
  mem _ _ := rfl
  nextShared := rfl
  keeps _ _ _ := id
  shared _ _ _ := Or.inl
  page _ := Or.inl ⟨rfl, rfl⟩

theorem mono (h : Populated fv P used s s') (hP : ∀ v, P v → Q v) : Populated fv Q used s s' :=
  { h with page := fun v => (h.page v).imp_right fun ⟨hv, hrest⟩ => ⟨hP v hv, hrest⟩ }

theorem trans (h : Populated fv P used s s') (h' : Populated fv P used' s' s'') :
    Populated fv P (used ++ used') s s'' where
  attrs := by rw [h'.attrs, h.attrs]
  free := by rw [h.free, h'.free, List.append_assoc]
  mem f hf := by
    rw [List.mem_append, not_or] at hf
    rw [h'.mem f hf.2, h.mem f hf.1]
  nextShared := h'.nextShared.trans h.nextShared
  keeps id v f hf := h'.keeps id v f (h.keeps id v f hf)
  shared id v f hf := by
    have hattr : s'.area.anonymousSharedFrames = s.area.anonymousSharedFrames := by rw [h.attrs]
    rcases h'.shared id v f hf with hf | ⟨hf, hid⟩
    · exact (h.shared id v f hf).imp_right fun hx => ⟨List.mem_append_left _ hx.1, hx.2⟩
    · exact Or.inr ⟨List.mem_append_right _ hf, hattr ▸ hid⟩
  page v := by
    have h1 : s'.area.anonymousSharedFrames = s.area.anonymousSharedFrames := by rw [h.attrs]
    have h2 : s'.area.pageCacheCow = s.area.pageCacheCow := by rw [h.attrs]
    have h3 : s'.area.isShared = s.area.isShared := by rw [h.attrs]
    have h4 : s'.area.mapPerm = s.area.mapPerm := by rw [h.attrs]
    rcases h.page v with hsame | ⟨hv, hnone, f, flags, hf, hpt, hw, hsrc⟩
    · rcases h'.page v with hsame' | ⟨hv, hnone, f, flags, hf, hpt, hw, hsrc⟩
      · exact Or.inl ⟨hsame'.1.trans hsame.1, hsame'.2.trans hsame.2⟩
      · refine Or.inr ⟨hv, hsame.2.symm.trans hnone, f, flags, hf, hpt, h4 ▸ hw, ?_⟩
        cases hsrc with
        | fresh hx => exact .fresh (List.mem_append_right _ hx)
        | registered id ha hx => exact .registered id (h1 ▸ ha) hx
        | filePage file page ha hx hw => exact .filePage file page (h2 ▸ ha) hx hw
        | sharedPage file page ha hx => exact .sharedPage file page (h3 ▸ ha) hx
    · rcases h'.page v with hsame' | ⟨_, hnone', _⟩
      · refine Or.inr ⟨hv, hnone, f, flags, hsame'.1.trans hf, hsame'.2.trans hpt, hw, ?_⟩
        cases hsrc with
        | fresh hx => exact .fresh (List.mem_append_left _ hx)
        | registered id ha hx => exact .registered id ha (h'.keeps id v f hx)
        | filePage file page ha hx hw => exact .filePage file page ha hx hw
        | sharedPage file page ha hx => exact .sharedPage file page ha hx
      · cases hpt.symm.trans hnone'

end Populated

namespace Populating

variable {m : Arith} {fv : Files} {s s' : Populating} {v : Nat} {f : Frame}

theorem frameAlloc_some {p p' : Phys} (h : p.frameAlloc = some (f, p')) :
    p.free = f :: p'.free ∧ p'.shared = p.shared ∧ p'.nextShared = p.nextShared ∧
      ∀ g, g ≠ f → p'.mem g = p.mem g := by
  unfold Phys.frameAlloc at h
  split at h
  · cases h
  · rename_i f' fs hfree
    cases h
    exact ⟨hfree, rfl, rfl, fun g hg => update_of_ne hg ..⟩

theorem install_eq {flags : MapPermission} (h : s.install v f flags = some s') : s.pt v = none ∧ s' = { s with
      pt := update s.pt v (some ⟨f, flags⟩)
      area := { s.area with dataFrames := s.area.dataFrames.insert v f } } := by
  simp only [install, PageTable.map, bind_eq_bind] at h
  cases hpt : s.pt v with
  | none =>
    rw [hpt] at h
    exact ⟨rfl, (some.inj h).symm⟩
  | some p =>
    rw [hpt] at h
    cases h

/-- Installing a frame whose origin is known. `phys` is the memory the frame was taken from. -/
theorem install_populated {phys : Phys} {flags : MapPermission} {used : List Frame}
    (h : install { s with phys } v f flags = some s') (hw : flags.w = true → s.area.mapPerm.w = true)
    (hsrc : Source fv s.area phys used v f flags) (hfree : s.phys.free = used ++ phys.free)
    (hmem : ∀ g, g ∉ used → phys.mem g = s.phys.mem g) (hnext : phys.nextShared = s.phys.nextShared)
    (hkeeps : ∀ id w g, s.phys.shared id w = some g → phys.shared id w = some g)
    (hshared : ∀ id w g, phys.shared id w = some g →
      s.phys.shared id w = some g ∨ g ∈ used ∧ s.area.anonymousSharedFrames = some id) :
    Populated fv (· = v) used s s' := by
  obtain ⟨hnone, rfl⟩ := install_eq h
  refine ⟨rfl, hfree, hmem, hnext, hkeeps, hshared, fun w => ?_⟩
  by_cases hwv : w = v
  · subst hwv
    exact Or.inr ⟨rfl, hnone, f, flags, OrdMap.get?_insert_self, update_self .., hw, hsrc⟩
  · exact Or.inl ⟨OrdMap.get?_insert_of_ne hwv, update_of_ne hwv ..⟩

theorem initialPtePermission_w {a : MapArea} (h : a.initialPtePermission.w = true) :
    a.mapPerm.w = true ∧ a.pageCacheCow = false := by
  unfold MapArea.initialPtePermission at h
  split at h
  · cases h
  · rename_i hc
    exact ⟨h, by simpa [h] using hc⟩

theorem anonymousFrame_populated {phys : Phys} {flags : MapPermission}
    (hf : s.anonymousFrame v = some (f, phys)) (hi : install { s with phys } v f flags = some s')
    (hw : flags.w = true → s.area.mapPerm.w = true) : ∃ used, Populated fv (· = v) used s s' := by
  unfold anonymousFrame at hf
  cases hid : s.area.anonymousSharedFrames with
  | none =>
    rw [hid] at hf
    obtain ⟨hfree, hshared, hnext, hmem⟩ := frameAlloc_some hf
    refine ⟨[f], install_populated hi hw (.fresh (List.mem_singleton.2 rfl)) hfree ?_ hnext ?_ ?_⟩
    · exact fun g hg => hmem g fun h => hg (List.mem_singleton.2 h)
    · exact fun id w g hg => hshared ▸ hg
    · exact fun id w g hg => Or.inl (hshared ▸ hg)
  | some id =>
    rw [hid] at hf
    simp only at hf
    cases hreg : s.phys.shared id v with
    | some g =>
      rw [hreg] at hf
      obtain ⟨rfl, rfl⟩ := Prod.mk.inj (some.inj hf)
      exact ⟨[], install_populated hi hw (.registered id hid hreg) rfl (fun _ _ => rfl) rfl
        (fun _ _ _ hg => hg) (fun _ _ _ => Or.inl)⟩
    | none =>
      rw [hreg] at hf
      simp only at hf
      cases halloc : s.phys.frameAlloc with
      | none =>
        rw [halloc] at hf
        cases hf
      | some x =>
        obtain ⟨g, p⟩ := x
        rw [halloc] at hf
        obtain ⟨rfl, rfl⟩ := Prod.mk.inj (some.inj hf)
        obtain ⟨hfree, hshared, hnext, hmem⟩ := frameAlloc_some halloc
        refine ⟨[g], install_populated hi hw (.fresh (List.mem_singleton.2 rfl)) hfree ?_ hnext ?_ ?_⟩
        · exact fun g' hg => hmem g' fun h => hg (List.mem_singleton.2 h)
        · intro id' w g' hg
          simp only [hshared]
          by_cases hid' : id' = id
          · subst hid'
            rw [update_self]
            by_cases hwv : w = v
            · rw [hwv, hreg] at hg
              cases hg
            · rw [update_of_ne hwv, hg]
          · rw [update_of_ne hid', hg]
        · intro id' w g' hg
          simp only [hshared] at hg
          by_cases hid' : id' = id
          · subst hid'
            rw [update_self] at hg
            by_cases hwv : w = v
            · rw [hwv, update_self] at hg
              exact Or.inr ⟨List.mem_singleton.2 (some.inj hg).symm, hid⟩
            · rw [update_of_ne hwv] at hg
              exact Or.inl hg
          · rw [update_of_ne hid'] at hg
            exact Or.inl hg

/-! ## Eager mapping of anonymous areas -/

theorem mapOne_framed (hframed : s.area.mapType = .framed) (h : s.mapOne m fv v = some s') :
    s.pt v = none ∧ (∃ f, s'.area.dataFrames.get? v = some f) ∧ ∃ used, Populated fv (· = v) used s s' := by
  unfold mapOne at h
  rw [hframed] at h
  simp only [bind_eq_bind] at h
  obtain ⟨⟨b, s₁⟩, h₁, hb⟩ := bind_eq_some_iff.1 h
  simp only at hb
  split at hb
  · cases hb
    unfold tryMapOne at h₁
    rw [hframed] at h₁
    simp only at h₁
    cases hf : s.anonymousFrame v with
    | none =>
      rw [hf] at h₁
      cases h₁
      contradiction
    | some x =>
      obtain ⟨f, phys⟩ := x
      rw [hf, bind_eq_bind] at h₁
      obtain ⟨s₂, h₂, hret⟩ := bind_eq_some_iff.1 h₁
      obtain ⟨_, rfl⟩ := Prod.mk.inj (some.inj hret)
      obtain ⟨hnone, heq⟩ := install_eq h₂
      refine ⟨hnone, ⟨f, ?_⟩, @anonymousFrame_populated fv _ _ _ _ _ _ hf h₂ fun h => (initialPtePermission_w h).1⟩
      rw [heq]
      exact OrdMap.get?_insert_self
  · cases hb

/-- Eagerly mapping the pages of an anonymous area maps each of them, and none was mapped before. -/
theorem mapPages_framed {lo n : Nat} (hframed : s.area.mapType = .framed) (h : s.mapPages m fv lo n = some s') :
    (∃ used, Populated fv (fun w => lo ≤ w ∧ w < lo + n) used s s') ∧
      ∀ w, lo ≤ w → w < lo + n → s.pt w = none ∧ ∃ f, s'.area.dataFrames.get? w = some f := by
  induction n generalizing s lo with
  | zero =>
    obtain rfl := some.inj h
    exact ⟨⟨[], .refl s⟩, fun w h1 h2 => by omega⟩
  | succ n ih =>
    rw [mapPages, bind_eq_bind] at h
    obtain ⟨s₁, h₁, h⟩ := bind_eq_some_iff.1 h
    obtain ⟨hnone, ⟨f, hf⟩, used, hpop⟩ := mapOne_framed hframed h₁
    have hframed₁ : s₁.area.mapType = .framed := by rw [hpop.attrs]; exact hframed
    obtain ⟨⟨used', hpop'⟩, hall⟩ := ih hframed₁ h
    refine ⟨⟨used ++ used', Populated.trans (hpop.mono ?_) (hpop'.mono ?_)⟩, fun w h1 h2 => ?_⟩
    · rintro w rfl
      omega
    · intro w hw
      omega
    · by_cases hw : w = lo
      · subst hw
        refine ⟨hnone, f, ?_⟩
        rcases hpop'.page w with hsame | ⟨hw, _⟩
        · rw [hsame.1, hf]
        · omega
      · obtain ⟨hnone₁, hres⟩ := hall w (by omega) (by omega)
        refine ⟨?_, hres⟩
        rcases hpop.page w with hsame | ⟨hw', _⟩
        · rw [← hsame.2, hnone₁]
        · exact absurd hw' hw

end Populating

end ShellCore.Mm
