import CompactFit.Library.Simulation
import Mathlib.Logic.Function.Basic

/-!
What an allocator is for: a store of objects behind addresses. `malloc` makes an object with
arbitrary bytes at an address that has no object, or gives none; reads and writes concern the
bytes of the object, wherever an allocator may keep them.
-/

namespace CompactFit
open Function

inductive Event where
  | malloc (t size : Nat) (address : Option Nat)
  | free (t address : Nat)
  | read (address j : Nat) (x : UInt8)
  | write (address j : Nat) (x : UInt8)
deriving DecidableEq

/-- The event makes byte `j` of the object at `a` anew. -/
def Event.Touches (a j : Nat) : Event → Prop
  | .malloc _ _ address => address = some a
  | .free _ b => b = a
  | .read .. => False
  | .write b i _ => b = a ∧ i = j

/-- Every read gets what was written last into its byte. -/
def ReadsLast (es : List Event) : Prop :=
  ∀ before mid after a j x y, es = before ++ Event.write a j x :: mid ++ .read a j y :: after →
    (∀ e ∈ mid, ¬ e.Touches a j) → y = x

/-- An address is not given out again before it was freed. -/
def NoReuse (es : List Event) : Prop :=
  ∀ before mid after a t size t' size',
    es = before ++ Event.malloc t size (some a) :: mid ++ .malloc t' size' (some a) :: after →
      ∃ u, Event.free u a ∈ mid

namespace ObjectStore

structure Object where
  size : Nat
  bytes : Nat → UInt8

abbrev Store := Nat → Option Object

inductive Step : Store → Option Event → Store → Prop where
  | null {S : Store} {t size : Nat} : Step S (some (.malloc t size none)) S
  | malloc {S : Store} {t size a : Nat} {bytes : Nat → UInt8} (fresh : S a = none) :
      Step S (some (.malloc t size (some a))) (update S a (some { size := size, bytes := bytes }))
  | free {S : Store} {t a : Nat} (live : S a ≠ none) : Step S (some (.free t a)) (update S a none)
  | read {S : Store} {a j : Nat} {o : Object} (live : S a = some o) (inside : j < o.size) :
      Step S (some (.read a j (o.bytes j))) S
  | write {S : Store} {a j : Nat} {o : Object} {x : UInt8} (live : S a = some o)
      (inside : j < o.size) :
      Step S (some (.write a j x)) (update S a (some { o with bytes := update o.bytes j x }))

def machine : Simulation.Machine Store Event where
  init S := ∀ a, S a = none
  step := Step

variable {S S' : Store} {e : Option Event} {es : List Event} {a j : Nat} {x y : UInt8}

def Has (a j : Nat) (x : UInt8) (S : Store) : Prop := ∀ o, S a = some o → o.bytes j = x

theorem Step.has (step : Step S e S') (quiet : ∀ x ∈ e, ¬ x.Touches a j) (has : Has a j x S) :
    Has a j x S' := by
  cases step with
  | null | read => exact has
  | @malloc _ _ b =>
      have ne : a ≠ b := fun eq => quiet _ rfl (congrArg some eq.symm)
      intro o live
      rw [update_of_ne ne] at live
      exact has o live
  | @free _ b =>
      have ne : a ≠ b := fun eq => quiet _ rfl eq.symm
      intro o live
      rw [update_of_ne ne] at live
      exact has o live
  | @write b i p y live =>
      intro o live'
      by_cases same : a = b
      · subst same
        have ne : j ≠ i := fun eq => quiet _ rfl ⟨rfl, eq.symm⟩
        rw [update_self] at live'
        cases live'
        exact (update_of_ne ne _ _).trans (has p live)
      · rw [update_of_ne same] at live'
        exact has o live'

theorem Step.stays (step : Step S e S') (kept : ∀ u, some (Event.free u a) ≠ e)
    (live : S a ≠ none) :
    S' a ≠ none := by
  cases step with
  | null | read => exact live
  | @malloc _ _ b | @write b =>
      by_cases same : a = b
      · subst same
        simp
      · rwa [update_of_ne same]
  | @free t b =>
      have ne : a ≠ b := fun eq => kept t (by rw [eq])
      rwa [update_of_ne ne]

theorem Has.keeps {mid : List Event} (has : Has a j x S) (run : machine.Moves S mid S')
    (quiet : ∀ e ∈ mid, ¬ e.Touches a j) : Has a j x S' :=
  run.keeps quiet has fun _ _ _ has quiet step => step.has quiet has

theorem readsLast (shown : machine.Shows es) : ReadsLast es := by
  rintro before mid after a j x y rfl quiet
  obtain ⟨_, _, _, run⟩ := shown
  obtain ⟨S₂, run, tail⟩ := run.split
  obtain ⟨_, _, run⟩ := run.split
  obtain ⟨_, S₁, _, written, run⟩ := run.event
  obtain ⟨S₃, _, silent, got, _⟩ := tail.event
  have has : Has a j x S₁ := by
    cases written with
    | write =>
        intro o live
        rw [update_self] at live
        cases live
        exact update_self ..
  have has := (has.keeps run quiet).keeps silent fun _ mem => (by cases mem)
  cases got with
  | read live => exact has _ live

theorem noReuse (shown : machine.Shows es) : NoReuse es := by
  rintro before mid after a t size t' size' rfl
  obtain ⟨_, _, _, run⟩ := shown
  obtain ⟨S₂, run, tail⟩ := run.split
  obtain ⟨_, _, run⟩ := run.split
  obtain ⟨_, S₁, _, made, run⟩ := run.event
  obtain ⟨S₃, _, silent, again, _⟩ := tail.event
  by_contra kept
  have stays : ∀ {S S' : Store} {es : List Event}, (∀ e ∈ es, ∀ u, e ≠ .free u a) →
      machine.Moves S es S' → S a ≠ none → S' a ≠ none := fun quiet run live =>
    run.keeps quiet live fun _ _ _ live quiet step =>
      step.stays (fun u eq => quiet _ eq.symm u rfl) live
  have live : S₁ a ≠ none := by
    cases made with
    | malloc => simp
  have live := stays (fun e mem u eq => kept ⟨u, eq ▸ mem⟩) run live
  have live := stays (fun _ mem => (by cases mem)) silent live
  cases again with
  | malloc fresh => exact live fresh

end ObjectStore
end CompactFit
