import Mathlib.Data.Finset.Basic
import Mathlib.Data.List.Nodup
import Mathlib.Tactic.Common

/-!
An atomic last-in first-out stack shared by threads. A thread pushes a chain of items that
it holds, pops the top, finds the stack empty, or passes an item on to another thread. An
item is on the stack or held by one thread, never both and never twice.
-/

namespace LifoStack
open Function

inductive Event (τ α : Type) where
  | push (t : τ) (xs : List α)
  | pop (t : τ) (x : α)
  | empty (t : τ)
  | pass (t u : τ) (x : α)
deriving DecidableEq

structure State (τ α : Type) where
  stack : List α
  held : τ → Finset α

variable {τ α : Type}

/-- Every item has exactly one place. -/
structure Exclusive (items : Finset α) (A : State τ α) : Prop where
  nodup : A.stack.Nodup
  placed : ∀ x, x ∈ items ↔ x ∈ A.stack ∨ ∃ t, x ∈ A.held t
  apart : ∀ t x, x ∈ A.held t → x ∉ A.stack
  single : ∀ t u x, x ∈ A.held t → x ∈ A.held u → t = u

theorem Exclusive.mem_of_stack {items : Finset α} {A : State τ α} {x : α}
    (ok : Exclusive items A) (mem : x ∈ A.stack) : x ∈ items :=
  (ok.placed x).mpr (.inl mem)

theorem Exclusive.mem_of_held {items : Finset α} {A : State τ α} {t : τ} {x : α}
    (ok : Exclusive items A) (mem : x ∈ A.held t) : x ∈ items :=
  (ok.placed x).mpr (.inr ⟨t, mem⟩)

variable [DecidableEq τ] [DecidableEq α]

/-- What the threads hold after `t` has handed out the items of `xs`. -/
def release (held : τ → Finset α) (t : τ) (xs : List α) : τ → Finset α :=
  update held t (held t \ xs.toFinset)

/-- What the threads hold after `t` has taken `x`. -/
def acquire (held : τ → Finset α) (t : τ) (x : α) : τ → Finset α :=
  update held t (insert x (held t))

inductive Step : State τ α → Event τ α → State τ α → Prop where
  | push {A : State τ α} {t : τ} {xs : List α} : xs.Nodup → (∀ x, x ∈ xs → x ∈ A.held t) →
      Step A (.push t xs) ⟨xs ++ A.stack, release A.held t xs⟩
  | pop {A : State τ α} {t : τ} {x : α} {rest : List α} : A.stack = x :: rest →
      Step A (.pop t x) ⟨rest, acquire A.held t x⟩
  | empty {A : State τ α} {t : τ} : A.stack = [] → Step A (.empty t) A
  | pass {A : State τ α} {t u : τ} {x : α} : x ∈ A.held t →
      Step A (.pass t u x) ⟨A.stack, acquire (release A.held t [x]) u x⟩

inductive Run (A₀ : State τ α) : List (Event τ α) → State τ α → Prop where
  | init : Run A₀ [] A₀
  | step {trace : List (Event τ α)} {A A' : State τ α} {e : Event τ α} : Run A₀ trace A →
      Step A e A' → Run A₀ (trace ++ [e]) A'

/-- One operation, or none. -/
inductive Advance (A : State τ α) : Option (Event τ α) → State τ α → Prop where
  | stutter : Advance A none A
  | move {e : Event τ α} {A' : State τ α} : Step A e A' → Advance A (some e) A'

theorem Run.advance {A₀ A A' : State τ α} {trace : List (Event τ α)} {o : Option (Event τ α)}
    (run : Run A₀ trace A) (advance : Advance A o A') : Run A₀ (trace ++ o.toList) A' := by
  cases advance with
  | stutter => rwa [Option.toList_none, List.append_nil]
  | move step => exact run.step step

section Held
variable {held : τ → Finset α} {t u : τ} {x y : α} {xs : List α}

theorem mem_release : y ∈ release held t xs u ↔ y ∈ held u ∧ (u = t → y ∉ xs) := by
  by_cases same : u = t
  · subst same
    simp [release]
  · simp [release, same]

theorem mem_acquire : y ∈ acquire held t x u ↔ y ∈ held u ∨ (u = t ∧ y = x) := by
  by_cases same : u = t
  · subst same
    simp [acquire, or_comm]
  · simp [acquire, same]

@[simp] theorem release_of_ne (ne : u ≠ t) : release held t xs u = held u :=
  update_of_ne ne _ _

@[simp] theorem acquire_of_ne (ne : u ≠ t) : acquire held t x u = held u :=
  update_of_ne ne _ _

end Held

namespace Exclusive
variable {items : Finset α} {A : State τ α} {t u : τ} {x : α} {xs rest : List α}

theorem push (ok : Exclusive items A) (nodup : xs.Nodup) (mine : ∀ x, x ∈ xs → x ∈ A.held t) :
    Exclusive items ⟨xs ++ A.stack, release A.held t xs⟩ where
  nodup := by
    refine List.nodup_append.mpr ⟨nodup, ok.nodup, fun x hx y hy same => ?_⟩
    exact ok.apart t x (mine x hx) (same ▸ hy)
  placed x := by
    rw [ok.placed x]
    simp only [List.mem_append, mem_release]
    constructor
    · rintro (top | ⟨u, mem⟩)
      · exact .inl (.inr top)
      · by_cases out : x ∈ xs
        · exact .inl (.inl out)
        · exact .inr ⟨u, mem, fun _ => out⟩
    · rintro ((out | top) | ⟨u, mem, _⟩)
      · exact .inr ⟨t, mine x out⟩
      · exact .inl top
      · exact .inr ⟨u, mem⟩
  apart u x mem := by
    obtain ⟨old, kept⟩ := mem_release.mp mem
    refine fun below => (List.mem_append.mp below).elim (fun out => ?_) (ok.apart u x old)
    exact kept (ok.single u t x old (mine x out)) out
  single u v x hu hv :=
    ok.single u v x (mem_release.mp hu).1 (mem_release.mp hv).1

theorem pop (ok : Exclusive items A) (top : A.stack = x :: rest) :
    Exclusive items ⟨rest, acquire A.held t x⟩ := by
  have split := top ▸ ok.nodup
  obtain ⟨fresh, nodup⟩ := List.nodup_cons.mp split
  have free : ∀ u, x ∉ A.held u := fun u mem =>
    ok.apart u x mem (by rw [top]; exact List.mem_cons_self)
  refine ⟨nodup, fun y => ?_, fun u y mem => ?_, fun u v y hu hv => ?_⟩
  · rw [ok.placed y, top]
    simp only [List.mem_cons, mem_acquire]
    constructor
    · rintro ((rfl | below) | ⟨u, mem⟩)
      · exact .inr ⟨t, .inr ⟨rfl, rfl⟩⟩
      · exact .inl below
      · exact .inr ⟨u, .inl mem⟩
    · rintro (below | ⟨u, mem | ⟨_, rfl⟩⟩)
      · exact .inl (.inr below)
      · exact .inr ⟨u, mem⟩
      · exact .inl (.inl rfl)
  · rcases mem_acquire.mp mem with old | ⟨_, rfl⟩
    · exact fun below => ok.apart u y old (by rw [top]; exact List.mem_cons_of_mem _ below)
    · exact fresh
  · rcases mem_acquire.mp hu with old | ⟨same, rfl⟩
    · rcases mem_acquire.mp hv with old' | ⟨_, rfl⟩
      · exact ok.single u v y old old'
      · exact absurd old (free u)
    · rcases mem_acquire.mp hv with old | ⟨same', _⟩
      · exact absurd old (free v)
      · exact same.trans same'.symm

theorem pass (ok : Exclusive items A) (mine : x ∈ A.held t) (u : τ) :
    Exclusive items ⟨A.stack, acquire (release A.held t [x]) u x⟩ := by
  have owner : ∀ v y, y ∈ acquire (release A.held t [x]) u x v → y = x ∧ v = u ∨
      y ≠ x ∧ y ∈ A.held v := by
    intro v y mem
    rcases mem_acquire.mp mem with rest | ⟨rfl, rfl⟩
    · obtain ⟨old, kept⟩ := mem_release.mp rest
      refine .inr ⟨fun same => ?_, old⟩
      subst same
      exact kept (ok.single v t y old mine) List.mem_cons_self
    · exact .inl ⟨rfl, rfl⟩
  refine ⟨ok.nodup, fun y => ?_, fun v y mem => ?_, fun v w y hv hw => ?_⟩
  · rw [ok.placed y]
    refine or_congr_right ⟨fun ⟨v, mem⟩ => ?_, fun ⟨v, mem⟩ => ?_⟩
    · by_cases same : y = x
      · exact ⟨u, mem_acquire.mpr (.inr ⟨rfl, same⟩)⟩
      · exact ⟨v, mem_acquire.mpr (.inl (mem_release.mpr ⟨mem, by simp [same]⟩))⟩
    · rcases owner v y mem with ⟨rfl, _⟩ | ⟨_, old⟩
      · exact ⟨t, mine⟩
      · exact ⟨v, old⟩
  · rcases owner v y mem with ⟨rfl, _⟩ | ⟨_, old⟩
    · exact ok.apart t y mine
    · exact ok.apart v y old
  · rcases owner v y hv with ⟨same, hv⟩ | ⟨other, old⟩
    · rcases owner w y hw with ⟨_, hw⟩ | ⟨other, _⟩
      · exact hv.trans hw.symm
      · exact absurd same other
    · rcases owner w y hw with ⟨same, _⟩ | ⟨_, old'⟩
      · exact absurd same other
      · exact ok.single v w y old old'

theorem step {A' : State τ α} {e : Event τ α} (ok : Exclusive items A) (step : Step A e A') :
    Exclusive items A' := by
  cases step with
  | push nodup mine => exact ok.push nodup mine
  | pop top => exact ok.pop top
  | empty => exact ok
  | pass mine => exact ok.pass mine _

end Exclusive

/-- No sequence of operations loses, duplicates or shares an item. -/
theorem Run.exclusive {items : Finset α} {A₀ A : State τ α} {trace : List (Event τ α)}
    (run : Run A₀ trace A) (start : Exclusive items A₀) : Exclusive items A := by
  induction run with
  | init => exact start
  | step _ step ih => exact ih.step step

end LifoStack
