import Mathlib.Order.Defs.Unbundled
import Mathlib.Tactic.Common

/-!
Relations between the state before a program and its results. A program is a value of `Except`.
What holds of every result is proved along the program: at its ends, over the parts that
matter, and, for a transitive relation, over one part after the other.
-/

namespace RunRelation

variable {σ ρ ε α β : Type}

/-- `R` relates `s` to `f a` for every result `a` of the program. -/
def Within (R : σ → ρ → Prop) (s : σ) (f : α → ρ) (run : Except ε α) : Prop :=
  ∀ a, run = .ok a → R s (f a)

section
variable {R : σ → ρ → Prop} {s : σ} {f : α → ρ} {g : β → ρ}

theorem Within.ok {a : α} (h : R s (f a)) : Within (ε := ε) R s f (.ok a) := by
  rintro _ ⟨⟩
  exact h

theorem Within.error {e : ε} : Within R s f (.error e) := by
  rintro _ ⟨⟩

/-- A part of the program that does not touch the state. -/
theorem Within.pass {γ : Type} {x : Except ε γ} {k : γ → Except ε β}
    (next : ∀ a, x = .ok a → Within R s g (k a)) : Within R s g (x >>= k) := by
  intro b run
  cases hx : x with
  | error e =>
      rw [hx] at run
      cases run
  | ok a =>
      rw [hx] at run
      exact next a hx b run

end

section
variable {R : σ → σ → Prop} {s m : σ} {f : α → σ} {g : β → σ} [IsTrans σ R]

theorem Within.bind {x : Except ε α} {k : α → Except ε β} (first : Within R s f x)
    (next : ∀ a, x = .ok a → Within R (f a) g (k a)) : Within R s g (x >>= k) :=
  .pass fun a run b run' => IsTrans.trans _ _ _ (first a run) (next a run b run')

/-- An update of the state before the program. -/
theorem Within.after {run : Except ε α} (step : R s m) (rest : Within R m f run) :
    Within R s f run :=
  fun a eq => IsTrans.trans _ _ _ step (rest a eq)

end
end RunRelation
