import CompactFit.AddressConservation
import CompactFit.LockFreePages

/-!
The pool of abstract addresses as the threads share it: `get_free_aa` and `put_free_aa` with
one step for each operation on a global stack. A call may make two of them, so other threads
see the pool when a bucket is neither full nor among the empty ones.
-/

namespace CompactFit
open Function AddressBuckets

/-- The call of a thread that has an operation on a global stack to do. -/
inductive AddressCall where
  | idle
  /-- `get_free_aa` at `aa_get`. -/
  | getting
  /-- `get_free_aa` at `aa_bucket_put`, with the bucket `maa` opened. -/
  | keeping (maa : Nat)
  /-- `put_free_aa` at `aa_bucket_get`. -/
  | fetching (id : Nat)
  /-- `put_free_aa` at `aa_put`. -/
  | sharing (id : Nat)
deriving DecidableEq

def AddressCall.returns : AddressCall → Option Nat
  | .fetching id | .sharing id => some id
  | _ => none

def AddressCall.opens : AddressCall → Option Nat
  | .keeping maa => some maa
  | _ => none

/-- The pool, the calls, and the identifiers that are handed out. -/
structure AddressCalls where
  pool : AddressBuckets
  calls : Nat → AddressCall
  out : Finset Nat

inductive AddressAction where
  | get (t : Nat)
  | put (t id : Nat)
  | access (t : Nat)
  /-- The application writes a word of the table. -/
  | write (id w : Nat)

namespace AddressCalls

def setCall (t : Nat) (c : AddressCall) (S : AddressCalls) : AddressCalls :=
  { S with calls := update S.calls t c }

def setPool (σ : AddressBuckets) (S : AddressCalls) : AddressCalls := { S with pool := σ }

/-- `get_free_aa` from `next = data->aas` on. -/
def takeAa (t : Nat) (S : AddressCalls) : AddressCalls × Option (PoolEvent Nat) :=
  let next := (S.pool.threads t).aas
  ({ pool := S.pool.modifyThread t fun d =>
      { d with aas := S.pool.aaSpace next, aasCount := d.aasCount - 1 }
     calls := update S.calls t .idle
     out := insert next S.out },
    some (.got t (some next)))

/-- `get_free_aa` from the bucket `maa` on, up to `aa_bucket_put` if the thread has too many
empty buckets; `keepBucket` calls `aa_bucket_put` in that case only. -/
def openBucket (cfg : AddressConfig) (t maa : Nat) (S : AddressCalls) :
    AddressCalls × Option (PoolEvent Nat) :=
  let σ := installAas cfg t maa S.pool
  if cfg.nrLocalFreeAbuckets ≤ (σ.threads t).freeAbucketsCount then
    ((S.setPool σ).setCall t (.keeping maa), none)
  else (S.setPool (keepBucket cfg t maa σ)).takeAa t

/-- `get_free_aa`, up to its first operation on a global stack. -/
def getFreeAa (cfg : AddressConfig) (t : Nat) (S : AddressCalls) :
    AddressCalls × Option (PoolEvent Nat) :=
  if (S.pool.threads t).aasCount = 0 then
    if (S.pool.threads t).abucketsCount = 0 then (S.setCall t .getting, none)
    else
      let maa := (S.pool.threads t).abuckets
      (S.setPool (S.pool.modifyThread t fun d =>
        { d with
          abuckets := (S.pool.aaBuckets maa).next
          abucketsCount := d.abucketsCount - 1 })).openBucket cfg t maa
  else S.takeAa t

/-- `put_free_aa` from `if (data->aas_count)` on. -/
def linkAa (t id : Nat) (S : AddressCalls) : AddressCalls × Option (PoolEvent Nat) :=
  ({ pool := pushAa t id S.pool
     calls := update S.calls t .idle
     out := S.out.erase id },
    some (.added t id))

/-- `put_free_aa` fills an empty bucket, and goes on up to `aa_put` if the thread has too many
full ones; `takeFreeAbucket` calls `aa_bucket_get` only if the thread has no empty one. -/
def fillBucket (cfg : AddressConfig) (t id : Nat) (S : AddressCalls) :
    Except Fault (AddressCalls × Option (PoolEvent Nat)) := do
  let (maa, σ) ← takeFreeAbucket cfg t S.pool
  let σ := closeAas t maa σ
  return if cfg.nrLocalAbuckets ≤ (σ.threads t).abucketsCount then
      ((S.setPool σ).setCall t (.sharing id), none)
    else (S.setPool σ).linkAa t id

/-- `put_free_aa`, up to its first operation on a global stack. -/
def putFreeAa (cfg : AddressConfig) (t id : Nat) (S : AddressCalls) :
    Except Fault (AddressCalls × Option (PoolEvent Nat)) :=
  if (S.pool.threads t).aasCount = cfg.nrLocalAas then
    if (S.pool.threads t).freeAbucketsCount = 0 then .ok (S.setCall t (.fetching id), none)
    else S.fillBucket cfg t id
  else .ok (S.linkAa t id)

/-- The next operation of a thread on a global stack, and what follows up to another one or to
the end of the call. -/
def access (cfg : AddressConfig) (t : Nat) (S : AddressCalls) :
    Except Fault (AddressCalls × Option (PoolEvent Nat)) :=
  match S.calls t with
  | .idle => .ok (S, none)
  | .getting =>
      let (maa, σ) := aaGet S.pool
      .ok (if maa = 0 then (S.setCall t .idle, some (.got t none))
        else (S.setPool σ).openBucket cfg t maa)
  | .keeping maa => .ok ((S.setPool (keepBucket cfg t maa S.pool)).takeAa t)
  | .fetching id => S.fillBucket cfg t id
  | .sharing id => .ok ((S.setPool (shareAas t S.pool)).linkAa t id)

def perform (cfg : AddressConfig) (S : AddressCalls) :
    AddressAction → Except Fault (AddressCalls × Option (PoolEvent Nat))
  | .get t => .ok (S.getFreeAa cfg t)
  | .put t id => S.putFreeAa cfg t id
  | .access t => S.access cfg t
  | .write id w => .ok (S.setPool (S.pool.setWord id w), none)

/-- The identifier is handed out, and no thread is returning it. -/
def Owned (T : Nat) (S : AddressCalls) (id : Nat) : Prop :=
  id ∈ S.out ∧ ∀ t, t < T → (S.calls t).returns ≠ some id

/-- The application returns identifiers of its own only, and writes their words. -/
def Enabled (T : Nat) (S : AddressCalls) : AddressAction → Prop
  | .get t => t < T ∧ S.calls t = .idle
  | .put t id => t < T ∧ S.calls t = .idle ∧ S.Owned T id
  | .access t => S.calls t ≠ .idle
  | .write id _ => S.Owned T id

instance (T : Nat) (S : AddressCalls) (id : Nat) : Decidable (S.Owned T id) :=
  inferInstanceAs (Decidable (_ ∧ ∀ _, _ → _))

instance (T : Nat) (S : AddressCalls) : (a : AddressAction) → Decidable (S.Enabled T a)
  | .get _ => inferInstanceAs (Decidable (_ ∧ _))
  | .put .. => inferInstanceAs (Decidable (_ ∧ _ ∧ _))
  | .access _ => inferInstanceAs (Decidable (_ ≠ _))
  | .write id _ => inferInstanceAs (Decidable (S.Owned T id))

def init (cfg : AddressConfig) : AddressCalls :=
  { pool := initFreeAaList cfg, calls := fun _ => .idle, out := ∅ }

/-- The states of all runs, with the calls in the order in which they are completed. -/
inductive Run (cfg : AddressConfig) (T : Nat) : List (PoolEvent Nat) → AddressCalls → Prop where
  | init : Run cfg T [] (init cfg)
  | step {es : List (PoolEvent Nat)} {S S' : AddressCalls} {e : Option (PoolEvent Nat)}
      (a : AddressAction) : Run cfg T es S → S.Enabled T a → S.perform cfg a = .ok (S', e) →
      Run cfg T (es ++ e.toList) S'

end AddressCalls
end CompactFit
