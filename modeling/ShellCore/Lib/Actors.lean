import Mathlib

/-!
# Systems of many actors

A state is reachable if finitely many steps lead to it. Each actor of a system has a local state;
`countOf P f` is how many actors are in a local state that satisfies `P`. A step changes the local
state of one actor, so it changes such a count by at most one, and a sum over all actors by what that
actor contributes.
-/

namespace ShellCore

open Function Relation

/-- What holds initially and is kept by every step holds in every reachable state. -/
theorem inv_of_reachable {σ : Type*} {step : σ → σ → Prop} {I : σ → Prop} {s₀ s} (h₀ : I s₀)
    (hstep : ∀ s s', I s → step s s' → I s') (hr : ReflTransGen step s₀ s) : I s := by
  induction hr with
  | refl => exact h₀
  | tail _ hlast ih => exact hstep _ _ ih hlast

/-- A step that is taken has its guard. -/
theorem of_guard {σ : Type*} {p : Prop} [Decidable p] {s s' : σ} (h : (if p then some s else none) = some s') :
    p ∧ s = s' := by
  obtain ⟨hp, h⟩ := Option.ite_none_right_eq_some.1 h
  exact ⟨hp, Option.some.inj h⟩

section

variable {σ τ κ : Type*} {R : σ → σ → Prop} {s s' : σ}

/-- Calls that are all accepted, as steps. -/
theorem reaches_of_foldlM {call : σ → κ → Option σ} {l : List κ} (hR : ∀ s k s', call s k = some s' → R s s')
    (h : l.foldlM call s = some s') : ReflTransGen R s s' := by
  induction l generalizing s with
  | nil =>
    cases h
    exact .refl
  | cons k l ih =>
    obtain ⟨s₁, hcall, h⟩ := Option.bind_eq_some_iff.1 h
    exact .head (hR s k s₁ hcall) (ih h)

/-- The steps of a schedule, one after another. -/
def runCalls (step : σ → τ → κ → Option σ) (s : σ) (l : List (τ × κ)) : Option σ :=
  l.foldlM (fun s k => step s k.1 k.2) s

variable {step : σ → τ → κ → Option σ} {l : List (τ × κ)}

theorem steps_of_runCalls (h : runCalls step s l = some s') : ReflTransGen (fun s s' => ∃ t k, step s t k = some s') s s' :=
  reaches_of_foldlM (fun _ k _ hk => ⟨k.1, k.2, hk⟩) h

/-- What one evaluation of a run shows of its end. -/
theorem exists_of_any {o : Option σ} {Q : σ → Prop} [DecidablePred Q] (h : (o.any fun s => decide (Q s)) = true) :
    ∃ s, o = some s ∧ Q s := by
  obtain ⟨s, ho, hs⟩ := (Option.any_eq_true _ _).1 h
  exact ⟨s, ho, of_decide_eq_true hs⟩

theorem exists_steps_of_any (l : List (τ × κ)) {Q : σ → Prop} [DecidablePred Q]
    (h : ((runCalls step s l).any fun s => decide (Q s)) = true) :
    ∃ s', ReflTransGen (fun s s' => ∃ t k, step s t k = some s') s s' ∧ Q s' := by
  obtain ⟨s', hrun, hs⟩ := exists_of_any h
  exact ⟨s', steps_of_runCalls hrun, hs⟩

/-- A run that stops before a step that is not allowed. -/
def runGuarded (P : σ → τ → κ → Prop) [∀ s t k, Decidable (P s t k)] (step : σ → τ → κ → Option σ) :
    σ → List (τ × κ) → Option σ :=
  runCalls fun s t k => if P s t k then step s t k else none

variable {P : σ → τ → κ → Prop}

theorem reaches_of_runGuarded [∀ s t k, Decidable (P s t k)] (hR : ∀ s t k s', P s t k → step s t k = some s' → R s s')
    (h : runGuarded P step s l = some s') : ReflTransGen R s s' := by
  refine reaches_of_foldlM (fun s k s' hk => ?_) h
  obtain ⟨hP, hk⟩ := Option.ite_none_right_eq_some.1 hk
  exact hR s k.1 k.2 s' hP hk

theorem steps_of_runGuarded [∀ s t k, Decidable (P s t k)] (h : runGuarded P step s l = some s') :
    ReflTransGen (fun s s' => ∃ t k, P s t k ∧ step s t k = some s') s s' :=
  reaches_of_runGuarded (fun _ t k _ hP hk => ⟨t, k, hP, hk⟩) h

/-- Whether or not they are allowed, these are steps. -/
theorem steps_of_guarded (h : ReflTransGen (fun s s' => ∃ t k, P s t k ∧ step s t k = some s') s s') :
    ReflTransGen (fun s s' => ∃ t k, step s t k = some s') s s' :=
  ReflTransGen.mono (fun _ _ ⟨t, k, _, hk⟩ => ⟨t, k, hk⟩) _ _ h

end

variable {α β : Type*} {P : β → Prop} {f : α → β} {t : α} {v : β}

/-- The actors in a local state that satisfies `P`. -/
def actorsIn (P : β → Prop) (f : α → β) : Set α := {x | P (f x)}

/-- How many they are. -/
noncomputable def countOf (P : β → Prop) (f : α → β) : Nat := (actorsIn P f).ncard

theorem countOf_eq_zero (hf : (actorsIn P f).Finite) : countOf P f = 0 ↔ ∀ x, ¬P (f x) := by
  rw [countOf, Set.ncard_eq_zero hf, Set.eq_empty_iff_forall_notMem]
  rfl

theorem actorsIn_const (h : ¬P v) : actorsIn P (fun _ : α => v) = ∅ :=
  Set.eq_empty_iff_forall_notMem.2 fun _ => h

variable [DecidableEq α]

/-- The local state of an actor after one of them has changed its own. -/
theorem update_cases {x w} (h : update f t v x = w) : (x = t ∧ w = v) ∨ (x ≠ t ∧ f x = w) := by
  by_cases hx : x = t
  · subst hx
    rw [update_self] at h
    exact .inl ⟨rfl, h.symm⟩
  · rw [update_of_ne hx] at h
    exact .inr ⟨hx, h⟩

/-- What holds of the actor that has changed its local state and of the others. -/
@[elab_as_elim]
theorem forall_update_of_ne {motive : α → β → Prop} (x : α) (hnew : motive t v) (hall : ∀ x, x ≠ t → motive x (f x)) :
    motive x (update f t v x) := by
  by_cases hx : x = t
  · subst hx
    rw [update_self]
    exact hnew
  · rw [update_of_ne hx]
    exact hall x hx

/-- What holds of the local state of every actor still holds if it does of the one that has changed. -/
@[elab_as_elim]
theorem forall_update {motive : α → β → Prop} (x : α) (hnew : motive t v) (hall : ∀ x, motive x (f x)) :
    motive x (update f t v x) :=
  forall_update_of_ne x hnew fun x _ => hall x

theorem actorsIn_update_same (h : P v ↔ P (f t)) : actorsIn P (update f t v) = actorsIn P f := by
  ext x
  by_cases hx : x = t
  · subst hx
    simp only [actorsIn, Set.mem_ofPred_eq, update_self, h]
  · simp only [actorsIn, Set.mem_ofPred_eq, update_of_ne hx]

theorem actorsIn_update_enter (h : P v) : actorsIn P (update f t v) = insert t (actorsIn P f) := by
  ext x
  by_cases hx : x = t
  · subst hx
    simp [actorsIn, h]
  · simp [actorsIn, hx]

theorem actorsIn_update_leave (h : ¬P v) : actorsIn P (update f t v) = actorsIn P f \ {t} := by
  ext x
  by_cases hx : x = t
  · subst hx
    simp [actorsIn, h]
  · simp [actorsIn, hx]

theorem finite_actorsIn_update (hf : (actorsIn P f).Finite) : (actorsIn P (update f t v)).Finite := by
  by_cases h : P v
  · rw [actorsIn_update_enter h]
    exact hf.insert t
  · rw [actorsIn_update_leave h]
    exact hf.subset Set.sdiff_subset

theorem countOf_update_same (h : P v ↔ P (f t)) : countOf P (update f t v) = countOf P f :=
  congrArg Set.ncard (actorsIn_update_same h)

theorem countOf_update_enter (hf : (actorsIn P f).Finite) (hold : ¬P (f t)) (hnew : P v) :
    countOf P (update f t v) = countOf P f + 1 := by
  have hnot : t ∉ actorsIn P f := hold
  rw [countOf, actorsIn_update_enter hnew, Set.ncard_insert_of_notMem hnot hf]
  rfl

theorem countOf_update_leave (hf : (actorsIn P f).Finite) (hold : P (f t)) (hnew : ¬P v) :
    countOf P (update f t v) + 1 = countOf P f := by
  rw [countOf, actorsIn_update_leave hnew]
  exact Set.ncard_sdiff_singleton_add_one hold hf

/-- What the actors contribute together, after one of them has changed its local state. -/
theorem sum_actors_update [Fintype α] {M : Type*} [AddCommMonoid M] (F : β → α → M) :
    ∑ x, F (update f t v x) x + F (f t) t = ∑ x, F (f x) x + F v t := by
  have hsplit : ∀ g : α → β, ∑ x, F (g x) x = F (g t) t + ∑ x ∈ Finset.univ.erase t, F (g x) x :=
    fun g => (Finset.add_sum_erase Finset.univ (fun x => F (g x) x) (Finset.mem_univ t)).symm
  have hrest : ∑ x ∈ Finset.univ.erase t, F (update f t v x) x = ∑ x ∈ Finset.univ.erase t, F (f x) x :=
    Finset.sum_congr rfl fun x hx => by rw [update_of_ne (Finset.ne_of_mem_erase hx)]
  rw [hsplit, hsplit f, hrest, update_self]
  abel

end ShellCore
