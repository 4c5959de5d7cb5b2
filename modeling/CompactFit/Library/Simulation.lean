import Mathlib.Logic.Basic

/-!
Machines that show some of their steps, and simulations between them. A machine that is
simulated by another one shows no sequence of events that the other one does not show.
-/

namespace Simulation

/-- A transition system; a step shows an event or is silent. -/
structure Machine (σ ε : Type) where
  init : σ → Prop
  step : σ → Option ε → σ → Prop

variable {σ τ υ ε : Type} {M : Machine σ ε} {N : Machine τ ε} {K : Machine υ ε}

/-- A finite run with the events it shows. -/
inductive Machine.Moves (M : Machine σ ε) : σ → List ε → σ → Prop where
  | refl (s : σ) : Moves M s [] s
  | step {s s' s'' : σ} {es : List ε} {e : Option ε} (run : Moves M s es s')
      (last : M.step s' e s'') : Moves M s (es ++ e.toList) s''

/-- The state can be reached from an initial one with the events `es`. -/
def Machine.Reached (M : Machine σ ε) (es : List ε) (s : σ) : Prop :=
  ∃ s₀, M.init s₀ ∧ M.Moves s₀ es s

/-- The machine shows the events `es` in some run. -/
def Machine.Shows (M : Machine σ ε) (es : List ε) : Prop := ∃ s, M.Reached es s

theorem Machine.Moves.single {s s' : σ} {e : Option ε} (step : M.step s e s') :
    M.Moves s e.toList s' := .step (.refl s) step

theorem Machine.Moves.trans {s s' s'' : σ} {es es' : List ε} (first : M.Moves s es s')
    (second : M.Moves s' es' s'') : M.Moves s (es ++ es') s'' := by
  induction second with
  | refl => rwa [List.append_nil]
  | step _ last ih =>
      rw [← List.append_assoc]
      exact .step ih last

/-- A run can be cut behind each of its events. -/
theorem Machine.Moves.split {s s'' : σ} {es es' : List ε} (run : M.Moves s (es ++ es') s'') :
    ∃ s', M.Moves s es s' ∧ M.Moves s' es' s'' := by
  generalize shown : es ++ es' = all at run
  induction run generalizing es' with
  | refl =>
      obtain ⟨rfl, rfl⟩ := List.append_eq_nil_iff.mp shown
      exact ⟨s, .refl s, .refl s⟩
  | @step s₁ s₂ all e run last ih =>
      rcases List.append_eq_append_iff.mp shown with ⟨mid, rfl, rfl⟩ | ⟨mid, rfl, tail⟩
      · obtain ⟨s', first, second⟩ := ih rfl
        exact ⟨s', first, .step second last⟩
      · cases e with
        | none =>
            obtain ⟨rfl, rfl⟩ := List.append_eq_nil_iff.mp tail.symm
            exact ⟨s₁, by simpa using run, .single last⟩
        | some e =>
            rcases List.append_eq_singleton_iff.mp tail.symm with ⟨rfl, rfl⟩ | ⟨rfl, rfl⟩
            · exact ⟨s₁, by simpa using run, .single last⟩
            · exact ⟨s₂, .step run last, .refl s₂⟩

/-- The step of a run that shows an event. -/
theorem Machine.Moves.event {s s'' : σ} {e : ε} {es : List ε} (run : M.Moves s (e :: es) s'') :
    ∃ s₁ s₂, M.Moves s [] s₁ ∧ M.step s₁ (some e) s₂ ∧ M.Moves s₂ es s'' := by
  generalize shown : e :: es = all at run
  induction run generalizing es with
  | refl => cases shown
  | @step s' s'' all x run last ih =>
      cases all with
      | nil =>
          cases x with
          | none => cases shown
          | some x =>
              cases shown
              exact ⟨s', s'', run, last, .refl s''⟩
      | cons y all =>
          obtain ⟨rfl, rfl⟩ := List.cons.inj shown
          obtain ⟨s₁, s₂, first, event, tail⟩ := ih rfl
          exact ⟨s₁, s₂, first, event, .step tail last⟩

/-- A property that the steps keep as long as they show no event outside `P`. -/
theorem Machine.Moves.keeps {I : σ → Prop} {P : ε → Prop} {s s' : σ} {es : List ε}
    (run : M.Moves s es s') (quiet : ∀ e ∈ es, P e) (start : I s)
    (step : ∀ s e s', I s → (∀ x ∈ e, P x) → M.step s e s' → I s') : I s' := by
  induction run with
  | refl => exact start
  | @step s₁ s₂ es e run last ih =>
      refine step _ e _ (ih fun x mem => quiet x (List.mem_append_left _ mem)) ?_ last
      intro x mem
      exact quiet x (List.mem_append_right _ (Option.mem_toList.mpr mem))

/-- What holds initially and is kept by every step holds in every reachable state. -/
theorem Machine.Reached.invariant {I : σ → Prop} {es : List ε} {s : σ} (reached : M.Reached es s)
    (init : ∀ s, M.init s → I s) (step : ∀ s e s', I s → M.step s e s' → I s') : I s := by
  obtain ⟨s₀, start, run⟩ := reached
  induction run with
  | refl => exact init _ start
  | step _ last ih => exact step _ _ _ ih last

/-- Every step of `M` is matched by a run of `N` that shows the same. -/
structure Simulates (M : Machine σ ε) (N : Machine τ ε) (R : σ → τ → Prop) : Prop where
  init : ∀ s, M.init s → ∃ t, N.init t ∧ R s t
  step : ∀ s t e s', R s t → M.step s e s' → ∃ t', N.Moves t e.toList t' ∧ R s' t'

theorem Simulates.moves {R : σ → τ → Prop} (sim : Simulates M N R) {s s' : σ} {es : List ε}
    (run : M.Moves s es s') {t : τ} (related : R s t) : ∃ t', N.Moves t es t' ∧ R s' t' := by
  induction run with
  | refl => exact ⟨t, .refl t, related⟩
  | step _ last ih =>
      obtain ⟨t', run, related'⟩ := ih
      obtain ⟨t'', tail, related''⟩ := sim.step _ _ _ _ related' last
      exact ⟨t'', run.trans tail, related''⟩

theorem Simulates.reached {R : σ → τ → Prop} (sim : Simulates M N R) {s : σ} {es : List ε}
    (reached : M.Reached es s) : ∃ t, N.Reached es t ∧ R s t := by
  obtain ⟨s₀, init, run⟩ := reached
  obtain ⟨t₀, initT, related⟩ := sim.init s₀ init
  obtain ⟨t, runT, related'⟩ := sim.moves run related
  exact ⟨t, ⟨t₀, initT, runT⟩, related'⟩

/-- Simulations compose. -/
theorem Simulates.trans {R : σ → τ → Prop} {Q : τ → υ → Prop} (first : Simulates M N R)
    (second : Simulates N K Q) : Simulates M K fun s u => ∃ t, R s t ∧ Q t u := by
  refine ⟨fun s init => ?_, fun s u e s' related step => ?_⟩
  · obtain ⟨t, initT, related⟩ := first.init s init
    obtain ⟨u, initU, related'⟩ := second.init t initT
    exact ⟨u, initU, t, related, related'⟩
  · obtain ⟨t, related, related'⟩ := related
    obtain ⟨t', run, relatedT⟩ := first.step s t e s' related step
    obtain ⟨u', run', relatedU⟩ := second.moves run related'
    exact ⟨u', run', t', relatedT, relatedU⟩

/-- The events that `M` shows, `N` shows too. -/
theorem Simulates.shows {R : σ → τ → Prop} (sim : Simulates M N R) {es : List ε}
    (shown : M.Shows es) : N.Shows es := by
  obtain ⟨s, reached⟩ := shown
  obtain ⟨t, reachedT, _⟩ := sim.reached reached
  exact ⟨t, reachedT⟩

end Simulation
