import ShellCore.Lib.Actors

/-!
# Waiting and being woken up

Actors sleep on queues. An actor that owes a queue a wake-up is going to take sleepers off it; one that has a sleeper
in hand has taken it off and is going to wake it up. A queue is calm if what its sleepers wait for has not come.
-/

namespace ShellCore

open Function

/-- What a state says about sleepers. -/
structure WaitView (τ ι : Type*) where
  asleep : τ → ι → Prop
  queued : τ → ι → Prop
  hand : τ → τ → Prop
  owes : τ → ι → Prop
  calm : ι → Prop

namespace WaitView

variable {τ ι : Type*} {v v' : WaitView τ ι} {t : τ}

/-- Every sleeper can be found, and either waits for good reason or is going to be woken up. -/
structure Covered (v : WaitView τ ι) : Prop where
  found : ∀ u i, v.asleep u i → v.queued u i ∨ ∃ w, v.hand w u
  due : ∀ u i, v.asleep u i → v.queued u i → v.calm i ∨ (∃ w, v.owes w i) ∨ ∃ w, v.hand w u

theorem Covered.calm_of_asleep (h : v.Covered) (howes : ∀ w i, ¬v.owes w i) (hhand : ∀ w u, ¬v.hand w u) {u i}
    (hu : v.asleep u i) : v.calm i := by
  have hq : v.queued u i := (h.found u i hu).resolve_right fun ⟨w, hw⟩ => hhand w u hw
  rcases h.due u i hu hq with hc | ⟨w, hw⟩ | ⟨w, hw⟩
  · exact hc
  · exact absurd hw (howes w i)
  · exact absurd hw (hhand w u)

/-- What a step of actor `t` may do. -/
structure Follows (v v' : WaitView τ ι) (t : τ) : Prop where
  hand_of_ne : ∀ w u, w ≠ t → v.hand w u → v'.hand w u
  owes_of_ne : ∀ w i, w ≠ t → v.owes w i → v'.owes w i
  asleep : ∀ u i, v'.asleep u i → v.asleep u i ∨ v'.calm i ∧ v'.queued u i
  queued : ∀ u i, v'.asleep u i → v.queued u i → v'.queued u i ∨ v'.hand t u
  entered : ∀ u i, v'.asleep u i → v'.queued u i → v.queued u i ∨ v'.calm i
  hand : ∀ u i, v'.asleep u i → v.hand t u → v'.hand t u
  owes : ∀ i, v.owes t i → v'.owes t i ∨ ∀ u, v'.asleep u i → v'.queued u i → v'.hand t u
  calm : ∀ i, v.calm i → v'.calm i ∨ v'.owes t i

theorem Follows.hand_kept (h : Follows v v' t) {w u i} (hu : v'.asleep u i) (hw : v.hand w u) : v'.hand w u := by
  by_cases hwt : w = t
  · subst hwt
    exact h.hand u i hu hw
  · exact h.hand_of_ne w u hwt hw

theorem Follows.covered (h : Follows v v' t) (hv : v.Covered) : v'.Covered where
  found u i hu := by
    rcases h.asleep u i hu with hold | ⟨-, hq⟩
    · rcases hv.found u i hold with hq | ⟨w, hw⟩
      · exact (h.queued u i hu hq).imp_right fun hw => ⟨t, hw⟩
      · exact .inr ⟨w, h.hand_kept hu hw⟩
    · exact .inl hq
  due u i hu hq := by
    rcases h.asleep u i hu with hold | ⟨hc, -⟩
    · rcases h.entered u i hu hq with hq' | hc
      · rcases hv.due u i hold hq' with hc | ⟨w, hw⟩ | ⟨w, hw⟩
        · exact (h.calm i hc).imp_right fun hw => .inl ⟨t, hw⟩
        · by_cases hwt : w = t
          · subst hwt
            rcases h.owes i hw with hw | hall
            · exact .inr (.inl ⟨w, hw⟩)
            · exact .inr (.inr ⟨w, hall u hu hq⟩)
          · exact .inr (.inl ⟨w, h.owes_of_ne w i hwt hw⟩)
        · exact .inr (.inr ⟨w, h.hand_kept hu hw⟩)
      · exact .inl hc
    · exact .inl hc

/-! ## Actors with local states -/

section

variable {P : Type*} (waitsOn : P → Option ι) (hand : P → τ → Prop) (owes : P → ι → Prop)

/-- The view of a system in which an actor's local state says what it sleeps on, has in hand and owes. -/
def ofActors (pc : τ → P) (waits : τ → Prop) (queue : ι → List τ) (calm : ι → Prop) : WaitView τ ι where
  asleep u i := waitsOn (pc u) = some i ∧ waits u
  queued u i := u ∈ queue i
  hand w u := hand (pc w) u
  owes w i := owes (pc w) i
  calm := calm

variable {waitsOn hand owes} {pc : τ → P} {p : P} {waits waits' : τ → Prop} {queue queue' : ι → List τ} {calm calm' : ι → Prop}

/-- A step of actor `t` that puts nobody to sleep. -/
theorem follows_update [DecidableEq τ] (hwait : waitsOn p = none) (hwaits : ∀ u, u ≠ t → waits' u → waits u)
    (hq : ∀ u i, u ≠ t → u ∈ queue i → u ∈ queue' i ∨ hand p u) (hin : ∀ u i, u ∈ queue' i → u ∈ queue i)
    (hhand : ∀ u, hand (pc t) u → hand p u ∨ ¬waits' u)
    (howes : ∀ i, owes (pc t) i → owes p i ∨
      ∀ u, waitsOn (update pc t p u) = some i → waits' u → u ∈ queue' i → hand p u)
    (hcalm : ∀ i, calm i → calm' i ∨ owes p i) :
    (ofActors waitsOn hand owes pc waits queue calm).Follows
      (ofActors waitsOn hand owes (update pc t p) waits' queue' calm') t := by
  have hne : ∀ u i, waitsOn (update pc t p u) = some i → u ≠ t := by
    rintro u i hw rfl
    rw [update_self, hwait] at hw
    cases hw
  constructor
  · intro w u hw h
    simpa only [ofActors, update_of_ne hw] using h
  · intro w i hw h
    simpa only [ofActors, update_of_ne hw] using h
  · intro u i hu
    obtain ⟨hw, hs⟩ := hu
    have hut := hne u i hw
    rw [update_of_ne hut] at hw
    exact .inl ⟨hw, hwaits u hut hs⟩
  · intro u i hu hmem
    simp only [ofActors, update_self]
    exact hq u i (hne u i hu.1) hmem
  · exact fun u i _ hmem => .inl (hin u i hmem)
  · intro u i hu h
    simp only [ofActors, update_self]
    exact (hhand u h).resolve_right fun hf => hf hu.2
  · intro i h
    simp only [ofActors, update_self]
    exact (howes i h).imp_right fun hall u hu => hall u hu.1 hu.2
  · intro i h
    simp only [ofActors, update_self]
    exact hcalm i h

/-- Such a step that changes queue `i` and no sleeper. -/
theorem follows_queue [DecidableEq τ] [DecidableEq ι] {i} {l : List τ} (hwait : waitsOn p = none)
    (hq : ∀ u, u ≠ t → u ∈ queue i → u ∈ l ∨ hand p u) (hin : l ⊆ queue i) (hhand : ∀ u, ¬hand (pc t) u)
    (howes : ∀ j, owes (pc t) j → owes p j ∨ j = i ∧ l = []) (hcalm : ∀ j, calm j → calm' j ∨ owes p j) :
    (ofActors waitsOn hand owes pc waits queue calm).Follows
      (ofActors waitsOn hand owes (update pc t p) waits (update queue i l) calm') t := by
  refine follows_update hwait (fun _ _ h => h) (fun u j => ?_) (fun u j => ?_) (fun u h => absurd h (hhand u))
    (fun j h => (howes j h).imp_right ?_) hcalm
  · exact forall_update (motive := fun j (l : List τ) => u ≠ t → u ∈ queue j → u ∈ l ∨ hand p u) j (hq u) fun _ _ => .inl
  · exact forall_update (motive := fun j (l : List τ) => u ∈ l → u ∈ queue j) j (@hin u) fun _ => id
  · rintro ⟨rfl, rfl⟩
    simp

/-- Such a step that ends the sleep of `u`. -/
theorem follows_wake [DecidableEq τ] {S : Type*} {W : S → Prop} {sleep : τ → S} {x : S} {u : τ} (hx : ¬W x)
    (hwait : waitsOn p = none) (hhand : ∀ v, hand (pc t) v → hand p v ∨ v = u)
    (howes : ∀ i, owes (pc t) i → owes p i ∨ ∀ v ∈ queue i, v ≠ u → ¬W (sleep v)) (hcalm : ∀ i, calm i → calm' i ∨ owes p i) :
    (ofActors waitsOn hand owes pc (fun v => W (sleep v)) queue calm).Follows
      (ofActors waitsOn hand owes (update pc t p) (fun v => W (update sleep u x v)) queue calm') t := by
  refine follows_update hwait (fun v _ => ?_) (fun _ _ _ => .inl) (fun _ _ => id) (fun v hv => ?_)
    (fun i hi => (howes i hi).imp_right fun hall v _ hw hv => ?_) hcalm
  · exact forall_update (motive := fun v y => W y → W (sleep v)) v (fun h => absurd h hx) fun _ => id
  · refine (hhand v hv).imp_right ?_
    rintro rfl
    rwa [update_self]
  · by_cases hvu : v = u
    · subst hvu
      rw [update_self] at hw
      exact absurd hw hx
    · rw [update_of_ne hvu] at hw
      exact absurd hw (hall v hv hvu)

/-- Actor `t` goes to sleep on queue `i`. -/
theorem follows_sleep [DecidableEq τ] [DecidableEq ι] {i} (hwait : waitsOn p = some i) (hwaits : ∀ u, u ≠ t → waits' u → waits u)
    (hhand : ∀ u, ¬hand (pc t) u) (howes : ∀ j, ¬owes (pc t) j) (hcalm : ∀ j, calm j → calm' j) (hi : calm' i) :
    (ofActors waitsOn hand owes pc waits queue calm).Follows
      (ofActors waitsOn hand owes (update pc t p) waits' (update queue i (queue i ++ [t])) calm') t := by
  constructor
  · intro w u hw h
    simpa only [ofActors, update_of_ne hw] using h
  · intro w j hw h
    simpa only [ofActors, update_of_ne hw] using h
  · intro u j hu
    obtain ⟨hw, hs⟩ := hu
    by_cases hut : u = t
    · subst hut
      rw [update_self, hwait] at hw
      cases hw
      exact .inr ⟨hi, by simp [ofActors]⟩
    · rw [update_of_ne hut] at hw
      exact .inl ⟨hw, hwaits u hut hs⟩
  · refine fun u j _ h => .inl ?_
    exact forall_update (motive := fun j (l : List τ) => u ∈ queue j → u ∈ l) j (List.mem_append_left _) (fun _ => id) h
  · intro u j _ h
    by_cases hj : j = i
    · exact .inr (hj ▸ hi)
    · left
      simpa only [ofActors, update_of_ne hj] using h
  · exact fun u j _ h => absurd h (hhand u)
  · exact fun j h => absurd h (howes j)
  · exact fun j h => .inl (hcalm j h)

/-- Somebody is woken up, or sleeps on. -/
theorem follows_waits (hwaits : ∀ u, waits' u → waits u) (hcalm : ∀ i, calm i → calm' i) :
    (ofActors waitsOn hand owes pc waits queue calm).Follows (ofActors waitsOn hand owes pc waits' queue calm') t where
  hand_of_ne _ _ _ h := h
  owes_of_ne _ _ _ h := h
  asleep u _ hu := .inl ⟨hu.1, hwaits u hu.2⟩
  queued _ _ _ h := .inl h
  entered _ _ _ h := .inl h
  hand _ _ _ h := h
  owes _ h := .inl h
  calm i h := .inl (hcalm i h)

end

end WaitView

end ShellCore
