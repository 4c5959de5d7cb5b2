import CompactFit.Interleaving
import CompactFit.AddressBucketPool

/-!
Runs given as lists of actions. `script` performs a list and checks before each action
that it is enabled and does not run out of abstract addresses; a list that passes is a
run of the system.
-/

namespace CompactFit
open AddressPool

section
variable {π : Type} [AddressPool π]

/-- The action is enabled and clean; writes of the application are not checked. -/
def ready (cfg : Config) (T : Nat) (S : System π) : Action → Bool
  | .malloc t size => t < T && (S.calls t).isNone &&
      ((getFreeAa cfg.toAddressConfig t S.heap.addresses).1.isSome ||
        match getNfullPage cfg t (requestClass cfg size) S.heap with
        | .ok (some _, _) => false
        | _ => true)
  | .free t a => t < T && (S.calls t).isNone && (S.live a).isSome
  | .resume t => (S.calls t).isSome
  | .write .. => false

theorem ready_sound {cfg : Config} {T : Nat} {S : System π} {a : Action}
    (h : ready cfg T S a = true) : Enabled cfg T S a ∧ Clean cfg S a := by
  cases a with
  | malloc t size =>
      simp only [ready, Bool.and_eq_true, decide_eq_true_eq, Option.isNone_iff_eq_none] at h
      obtain ⟨⟨ht, idle⟩, found⟩ := h
      refine ⟨⟨ht, idle⟩, ?_⟩
      rintro ⟨none, p, g, page⟩
      simp [none, page] at found
  | free t a =>
      simp only [ready, Bool.and_eq_true, decide_eq_true_eq, Option.isNone_iff_eq_none] at h
      obtain ⟨⟨ht, idle⟩, alive⟩ := h
      exact ⟨⟨ht, idle, Option.isSome_iff_ne_none.mp alive⟩, trivial⟩
  | resume t => exact ⟨Option.isSome_iff_ne_none.mp h, trivial⟩
  | write => cases h

/-- Perform the actions of a list; `none` when one of them is not ready or fails. -/
def script (cfg : Config) (T : Nat) (step : System π → Action → Except Fault (System π)) :
    List Action → System π → Option (System π)
  | [], S => some S
  | a :: as, S =>
      if ready cfg T S a then
        match step S a with
        | .ok S => script cfg T step as S
        | .error _ => none
      else none

/-- What the steps preserve holds at the end of a list that passes. -/
theorem script_preserves {cfg : Config} {T : Nat}
    {step : System π → Action → Except Fault (System π)} {Holds : System π → Prop}
    (preserved : ∀ S a S', Holds S → Enabled cfg T S a → Clean cfg S a → step S a = .ok S' →
      Holds S') {as : List Action} {S S' : System π} (start : Holds S)
    (h : script cfg T step as S = some S') : Holds S' := by
  induction as generalizing S with
  | nil =>
      cases h
      exact start
  | cons a as ih =>
      simp only [script] at h
      split at h
      next ok =>
        split at h
        next S1 run =>
          obtain ⟨enabled, clean⟩ := ready_sound ok
          exact ih (preserved S a S1 start enabled clean run) h
        next => cases h
      next => cases h

theorem reachable_of_script (cfg : Config) (T : Nat) (addresses : π) (as : List Action)
    {p : System π → Bool}
    (h : (script cfg T (perform cfg) as (System.init cfg addresses)).any p = true) :
    ∃ S, Reachable cfg T addresses S ∧ p S = true := by
  obtain ⟨S, run, ok⟩ := (Option.any_eq_true _ _).mp h
  exact ⟨S, script_preserves (fun _ a _ run => .step a run) .init run, ok⟩

end

/-- A heap of eight pages with bound 1 and increments of 4096 bytes. -/
def smallConfig : Config where
  nrAaBuckets := 64
  nrLocalAas := 1
  nrLocalAbuckets := 1
  nrLocalFreeAbuckets := 1
  nrAaBuckets_pos := by decide
  nrLocalAas_pos := Nat.one_pos
  nrLocalAbuckets_pos := Nat.one_pos
  nrLocalFreeAbuckets_pos := Nat.one_pos
  partialCompactionBound := 1
  incrementalMemcpy := 4096
  memcpyMultiplicator := 1
  firstPage := 1
  nrPages := 8
  nrLocalPages := 1
  nrLocalPbuckets := 1
  aaSpace := 1048576
  past := 0
  partialCompactionBound_int := partialCompactionBound_one
  incrementalMemcpy_int := by decide
  memcpyMultiplicator_pos := Nat.one_pos
  nrLocalPages_pos := Nat.one_pos
  nrLocalPbuckets_pos := Nat.one_pos
  firstPage_pos := Nat.one_pos
  heap_end := by decide
  nrPages_buckets := by decide
  aaSpace_pos := by decide
  aaSpace_end := by decide

theorem smallConfig_compacting : smallConfig.Compacting :=
  ⟨by decide, wholeCopies_of_multiple (by decide)⟩

end CompactFit
