import Mathlib.Logic.Relation
import Mathlib.Tactic.Common

/-!
Threads that wait for locks: `wants` says which lock a thread waits for, `owner` who has it.
Threads that wait for each other only along a decreasing rank do not block each other for
ever: behind every thread there is one that can run.
-/

namespace WaitFor

variable {τ μ : Type}

/-- `t` waits for a lock that `u` has. -/
def Waits (wants : τ → Option μ) (owner : μ → Option τ) (t u : τ) : Prop :=
  ∃ m, wants t = some m ∧ owner m = some u

def Blocked (wants : τ → Option μ) (owner : μ → Option τ) (t : τ) : Prop :=
  ∃ u, Waits wants owner t u

theorem exists_running {wants : τ → Option μ} {owner : μ → Option τ} (rank : τ → Nat)
    (down : ∀ t u, Waits wants owner t u → Blocked wants owner u → rank u < rank t) (t : τ) :
    ∃ u, Relation.ReflTransGen (Waits wants owner) t u ∧ ¬ Blocked wants owner u := by
  induction h : rank t using Nat.strongRecOn generalizing t with
  | ind n ih =>
      by_cases blocked : Blocked wants owner t
      · obtain ⟨u, waits⟩ := blocked
        by_cases more : Blocked wants owner u
        · obtain ⟨v, path, running⟩ := ih (rank u) (h ▸ down t u waits more) u rfl
          exact ⟨v, .head waits path, running⟩
        · exact ⟨u, .single waits, more⟩
      · exact ⟨t, .refl, blocked⟩

/-- The end of a chain of waiting threads is its start or has a lock. -/
theorem Waits.path_end {wants : τ → Option μ} {owner : μ → Option τ} {t u : τ}
    (path : Relation.ReflTransGen (Waits wants owner) t u) :
    u = t ∨ ∃ m, owner m = some u := by
  cases path with
  | refl => exact .inl rfl
  | tail _ last =>
      obtain ⟨m, _, owns⟩ := last
      exact .inr ⟨m, owns⟩

end WaitFor
