import CompactFit.AddressCalls

/-!
The pool between two operations of a call. A bucket that a thread has opened, and not yet put
among its empty ones, counts as the only empty bucket of a client of its own; with it the links
represent the pools of identifiers and of empty buckets as they do between whole calls.
-/

namespace CompactFit
open Function AddressBuckets

namespace AddressCalls

/-- What a client keeps that has the bucket a call has opened. -/
def openedData (c : AddressCall) : ThreadAddresses :=
  { aasCount := 0, aas := 0, abucketsCount := 0, abuckets := 0, lastAbucket := 0
    freeAbucketsCount := if c.opens = none then 0 else 1
    freeAbuckets := c.opens.getD 0 }

/-- The pool in which client `T + t` keeps the bucket that thread `t` has opened. -/
def withOpened (T : Nat) (calls : Nat → AddressCall) (σ : AddressBuckets) : AddressBuckets :=
  { σ with threads := fun s => if s < T then σ.threads s else openedData (calls (s - T)) }

section Opened
variable {T t : Nat} {calls : Nat → AddressCall} {σ : AddressBuckets} {c : AddressCall}

theorem withOpened_thread (ht : t < T) : (withOpened T calls σ).threads t = σ.threads t :=
  if_pos ht

theorem withOpened_client : (withOpened T calls σ).threads (T + t) = openedData (calls t) := by
  simp [withOpened]

theorem withOpened_modifyThread (ht : t < T) (f : ThreadAddresses → ThreadAddresses) :
    withOpened T calls (σ.modifyThread t f) = (withOpened T calls σ).modifyThread t f := by
  have threads : (withOpened T calls (σ.modifyThread t f)).threads =
      ((withOpened T calls σ).modifyThread t f).threads := by
    funext s
    by_cases same : s = t
    · subst same
      simp [withOpened, ht]
    · simp [withOpened, same]
  have own : (withOpened T calls σ).threads t = σ.threads t := withOpened_thread ht
  rw [modifyThread, ← own] at threads ⊢
  exact congrArg (fun threads => { σ with threads := threads }) threads

/-- A call that opens a bucket or puts it away changes its client only. -/
theorem withOpened_update (t : Nat) (c : AddressCall) : withOpened T (update calls t c) σ =
    (withOpened T calls σ).modifyThread (T + t) fun _ => openedData c := by
  refine congrArg (fun threads => { σ with threads := threads }) (funext fun s => ?_)
  by_cases same : s = T + t
  · subst same
    simp
  · rw [update_of_ne same]
    by_cases client : s < T
    · simp only [withOpened, client, if_true]
    · have ne : s - T ≠ t := by omega
      simp only [withOpened, client, if_false, update_of_ne ne]

theorem withOpened_same (same : c.opens = (calls t).opens) :
    withOpened T (update calls t c) σ = withOpened T calls σ := by
  refine congrArg (fun threads => { σ with threads := threads }) (funext fun s => ?_)
  by_cases client : s < T
  · simp only [client, if_true]
  · simp only [client, if_false]
    by_cases eq : s - T = t
    · rw [eq, update_self, openedData, openedData, same]
    · rw [update_of_ne eq]

/-! The code works on threads, so it does the same beside the clients. -/

theorem withOpened_installAas (cfg : AddressConfig) (ht : t < T) (maa : Nat) :
    withOpened T calls (installAas cfg t maa σ) = installAas cfg t maa (withOpened T calls σ) :=
  withOpened_modifyThread ht _

theorem withOpened_keepBucket (cfg : AddressConfig) (ht : t < T) (maa : Nat) :
    withOpened T calls (keepBucket cfg t maa σ) = keepBucket cfg t maa (withOpened T calls σ) := by
  have own : (withOpened T calls σ).threads t = σ.threads t := withOpened_thread ht
  have shared : withOpened T calls (shareFreeAbuckets cfg t σ) =
      shareFreeAbuckets cfg t (withOpened T calls σ) := by
    rw [shareFreeAbuckets, shareFreeAbuckets, own]
    split
    · exact withOpened_modifyThread ht _
    · rfl
  have after : (withOpened T calls (shareFreeAbuckets cfg t σ)).threads t =
      (shareFreeAbuckets cfg t σ).threads t := withOpened_thread ht
  simp only [keepBucket]
  rw [withOpened_modifyThread ht, ← shared, after]
  rfl

theorem withOpened_takeFreeAbucket (cfg : AddressConfig) (ht : t < T) :
    takeFreeAbucket cfg t (withOpened T calls σ) =
      (takeFreeAbucket cfg t σ).map fun r => (r.1, withOpened T calls r.2) := by
  have own : (withOpened T calls σ).threads t = σ.threads t := withOpened_thread ht
  by_cases none : (σ.threads t).freeAbucketsCount = 0
  · by_cases head : σ.freeAaBucketsHead = 0
    · have head' : (withOpened T calls σ).freeAaBucketsHead = 0 := head
      simp only [takeFreeAbucket, own, none, if_true, aaBucketGet, head, head']
      rfl
    · have head' : (withOpened T calls σ).freeAaBucketsHead ≠ 0 := head
      simp only [takeFreeAbucket, own, none, if_true, aaBucketGet, head, head', if_false,
        ensure_true (show σ.freeAaBucketsHead ≠ 0 from head), ensure_true head', ok_bind,
        modifyThread_same]
      refine congrArg (fun σ' => Except.ok (σ.freeAaBucketsHead, σ')) (Eq.symm ?_)
      rw [withOpened_modifyThread ht, withOpened_modifyThread ht]
      rfl
  · simp only [takeFreeAbucket, own, none, if_false, ok_bind]
    exact congrArg (fun σ' => Except.ok ((σ.threads t).freeAbuckets, σ'))
      (withOpened_modifyThread ht _).symm

theorem withOpened_closeAas (ht : t < T) (maa : Nat) :
    withOpened T calls (closeAas t maa σ) = closeAas t maa (withOpened T calls σ) := by
  have own : (withOpened T calls σ).threads t = σ.threads t := withOpened_thread ht
  rw [closeAas, closeAas, withOpened_modifyThread ht, own]
  rfl

theorem withOpened_shareAas (ht : t < T) :
    withOpened T calls (shareAas t σ) = shareAas t (withOpened T calls σ) := by
  have own : (withOpened T calls σ).threads t = σ.threads t := withOpened_thread ht
  rw [shareAas, shareAas, withOpened_modifyThread ht, own]
  rfl

theorem withOpened_pushAa (ht : t < T) (id : Nat) :
    withOpened T calls (pushAa t id σ) = pushAa t id (withOpened T calls σ) := by
  have own : (withOpened T calls σ).threads t = σ.threads t := withOpened_thread ht
  rw [pushAa, pushAa, withOpened_modifyThread ht, own]
  split <;> rfl

end Opened

def exchange (T : Nat) (S : AddressCalls) : Exchange :=
  { pool := withOpened T S.calls S.pool, out := S.out }

/-- What holds of the identifiers `P` and the empty buckets `Q` during each call of a thread. -/
def CallOk (cfg : AddressConfig) (out : Finset Nat) (P Q : Ids) (t : Nat) : AddressCall → Prop
  | .idle => True
  | .getting => (P.locals t).items = [] ∧ (P.locals t).buckets = []
  | .keeping _ => (P.locals t).items.length = cfg.nrLocalAas ∧
      (Q.locals t).items.length = cfg.nrLocalFreeAbuckets
  | .fetching id => (P.locals t).items.length = cfg.nrLocalAas ∧ (Q.locals t).items = [] ∧ id ∈ out
  | .sharing id => (P.locals t).items = [] ∧ (P.locals t).buckets ≠ [] ∧ id ∈ out

structure Tracked (cfg : AddressConfig) (T : Nat) (S : AddressCalls) (P Q : Ids)
    (cell : List Nat → Nat) : Prop where
  pool : (S.exchange T).Tracked cfg (T + T) P Q cell
  call : ∀ t, CallOk cfg S.out P Q t (S.calls t)
  single : ∀ t u id, (S.calls t).returns = some id → (S.calls u).returns = some id → t = u
  idle : ∀ t, T ≤ t → S.calls t = .idle

section
variable {cfg : AddressConfig} {T t : Nat} {S S' : AddressCalls} {P P' Q Q' : Ids}
  {cell cell' : List Nat → Nat} {c : AddressCall}

theorem Tracked.thread_lt (tracked : Tracked cfg T S P Q cell) (busy : S.calls t ≠ .idle) :
    t < T := by
  by_contra ge
  exact busy (tracked.idle t (Nat.le_of_not_lt ge))

theorem CallOk.other {out out' : Finset Nat} (ok : CallOk cfg out P Q t c)
    (ids : P'.locals t = P.locals t) (empties : Q'.locals t = Q.locals t)
    (kept : ∀ id, c.returns = some id → id ∈ out → id ∈ out') : CallOk cfg out' P' Q' t c := by
  cases c with
  | idle => trivial
  | getting => exact ⟨ids ▸ ok.1, ids ▸ ok.2⟩
  | keeping m => exact ⟨ids ▸ ok.1, empties ▸ ok.2⟩
  | fetching id => exact ⟨ids ▸ ok.1, empties ▸ ok.2.1, kept id rfl ok.2.2⟩
  | sharing id => exact ⟨ids ▸ ok.1, ids ▸ ok.2.1, kept id rfl ok.2.2⟩

/-- One thread has gone on to the call `c`. -/
theorem Tracked.of_call (tracked : Tracked cfg T S P Q cell) (ht : t < T)
    (pool : (S'.exchange T).Tracked cfg (T + T) P' Q' cell') (calls : S'.calls = update S.calls t c)
    (call : CallOk cfg S'.out P' Q' t c)
    (others : ∀ u, u ≠ t → u < T → P'.locals u = P.locals u ∧ Q'.locals u = Q.locals u)
    (kept : ∀ u id, u ≠ t → (S.calls u).returns = some id → id ∈ S.out → id ∈ S'.out)
    (fresh : ∀ id, c.returns = some id → ∀ u, u ≠ t → (S.calls u).returns ≠ some id) :
    Tracked cfg T S' P' Q' cell' := by
  refine ⟨pool, fun u => ?_, fun u v id hu hv => ?_, fun u ge => ?_⟩
  · rw [calls]
    by_cases same : u = t
    · rw [same, update_self]
      exact call
    · rw [update_of_ne same]
      by_cases hu : u < T
      · obtain ⟨ids, empties⟩ := others u same hu
        exact (tracked.call u).other ids empties fun id => kept u id same
      · rw [tracked.idle u (Nat.le_of_not_lt hu)]
        trivial
  · rw [calls] at hu hv
    by_cases atU : u = t <;> by_cases atV : v = t
    · exact atU.trans atV.symm
    · rw [atU, update_self] at hu
      rw [update_of_ne atV] at hv
      exact absurd hv (fresh id hu v atV)
    · rw [atV, update_self] at hv
      rw [update_of_ne atU] at hu
      exact absurd hu (fresh id hv u atU)
    · rw [update_of_ne atU] at hu
      rw [update_of_ne atV] at hv
      exact tracked.single u v id hu hv
  · rw [calls, update_of_ne (by omega)]
    exact tracked.idle u ge

end
end AddressCalls
end CompactFit
