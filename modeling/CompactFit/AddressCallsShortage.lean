import CompactFit.AddressCallsConservation
import Mathlib.Algebra.BigOperators.Ring.Finset

/-!
The assertion of `put_free_aa` with the calls of the threads interleaved. A bucket that another
thread has opened is missing too, but that thread then keeps its empty buckets and a bucketful
of identifiers, so the condition is the one for whole calls.
-/

namespace CompactFit
open Function AddressBuckets

namespace AddressCalls
variable {cfg : AddressConfig} {T t id maa : Nat} {es : List (PoolEvent Nat)} {S : AddressCalls}
  {P Q : Ids} {cell : List Nat → Nat} {σ : AddressBuckets} {E E' : Exchange}

/-! ### Counting the empty buckets -/

/-- A thread that has opened a bucket has its identifiers; the fetching one has no empty
bucket. -/
theorem Tracked.shares_of (tracked : Tracked cfg T S P Q cell) (fetching : S.calls t = .fetching id)
    (u : Nat) :
    cfg.nrLocalAas * ((Q.locals (T + u)).items.length + if u = t then 1 else 0) ≤
      (P.locals u).items.length ∧
    (Q.locals u).items.length + (if u = t then cfg.nrLocalFreeAbuckets else 0) ≤
      cfg.nrLocalFreeAbuckets := by
  have call := tracked.call u
  have le := tracked.pool.rep.ledger.empty.items_le u
  rw [tracked.client_items u]
  by_cases eq : u = t
  · subst eq
    rw [fetching] at call ⊢
    obtain ⟨filled, none, _⟩ := call
    simp [AddressCall.opens, filled, none]
  · simp only [eq, if_false, Nat.add_zero, le, and_true]
    cases running : S.calls u with
    | keeping m =>
        rw [running] at call
        simp [AddressCall.opens, call.1]
    | _ => simp [AddressCall.opens]

/-- Without an empty bucket on the global stack the other threads keep two. -/
theorem Tracked.shortage (tracked : Tracked cfg T S P Q cell) (fetching : S.calls t = .fetching id)
    (shared : Q.shared = []) : 2 ≤ (T - 1) * cfg.nrLocalFreeAbuckets ∧ 2 ≤ cfg.nrAaBuckets := by
  have ht := tracked.thread_lt (t := t) (by simp [fetching])
  have ledger := tracked.pool.rep.ledger
  have out : id ∈ S.out := by
    have call := tracked.call t
    rw [fetching] at call
    exact call.2.2
  have lt := tracked.pool.bound id out
  have fresh : ¬ P.Holds id := fun held => (tracked.pool.free id lt).mp held out
  have split : ∀ f : Nat → Nat, ((List.range (T + T)).map f).sum =
      (∑ u ∈ Finset.range T, f u) + ∑ u ∈ Finset.range T, f (T + u) :=
    fun f => Finset.sum_range_add f T T
  have once : ∀ n, (∑ u ∈ Finset.range T, if u = t then n else 0) = n := by
    intro n
    rw [Finset.sum_ite_eq', if_pos (Finset.mem_range.mpr ht)]
  have filled : cfg.nrLocalAas * ((∑ u ∈ Finset.range T, (Q.locals (T + u)).items.length) + 1) ≤
      ∑ u ∈ Finset.range T, (P.locals u).items.length := by
    rw [← once 1, ← Finset.sum_add_distrib, Finset.mul_sum]
    exact Finset.sum_le_sum fun u _ => (tracked.shares_of fetching u).1
  have kept : (∑ u ∈ Finset.range T, (Q.locals u).items.length) + cfg.nrLocalFreeAbuckets ≤
      T * cfg.nrLocalFreeAbuckets := by
    calc _ = ∑ u ∈ Finset.range T, ((Q.locals u).items.length +
          if u = t then cfg.nrLocalFreeAbuckets else 0) := by
            rw [Finset.sum_add_distrib, once]
      _ ≤ ∑ _u ∈ Finset.range T, cfg.nrLocalFreeAbuckets :=
          Finset.sum_le_sum fun u _ => (tracked.shares_of fetching u).2
      _ = T * cfg.nrLocalFreeAbuckets := by simp
  have nodup : (List.range (T + T)).Nodup := List.nodup_range
  have all : ∀ s, s < T + T → s ∈ List.range (T + T) := fun s hs => List.mem_range.mpr hs
  have ids := ledger.length_ids nodup fresh lt
  have cover := ledger.le_buckets all
  have noBucket : Q.bucketsOf (List.range (T + T)) = [] := by
    simp [BucketPool.Pool.bucketsOf, (tracked.pool.rep.empty.locals _).noBuckets, shared]
  rw [BucketPool.length_heldBy ledger.empty, noBucket, split] at cover
  rw [split] at ids
  generalize (P.bucketsOf (List.range (T + T))).length = full at *
  generalize (∑ u ∈ Finset.range T, (Q.locals (T + u)).items.length) = opened at *
  have few : opened + 1 + full < cfg.nrAaBuckets := by
    refine Nat.lt_of_mul_lt_mul_right (a := cfg.nrLocalAas) ?_
    rw [Nat.add_mul, Nat.mul_comm (opened + 1)]
    omega
  rw [Nat.sub_mul, Nat.one_mul]
  simp only [List.length_nil, Nat.zero_mul] at cover
  omega

/-! ### Whole calls as runs of their operations -/

def resting (E : Exchange) : AddressCalls :=
  { pool := E.pool, calls := fun _ => .idle, out := E.out }

theorem rests (alone : ∀ u, u ≠ t → S.calls u = .idle) :
    update S.calls t .idle = fun _ => .idle := by
  funext u
  by_cases eq : u = t
  · rw [eq, update_self]
  · rw [update_of_ne eq, alone u eq]

theorem Run.taken (run : Run cfg T es (S.takeAa t).1) (alone : ∀ u, u ≠ t → S.calls u = .idle)
    (out : S.out = E.out) (refilled : refillAas cfg t E.pool = some S.pool)
    (done : E.perform cfg (.get t) = .ok E') : ∃ es', Run cfg T es' (resting E') := by
  simp only [Exchange.perform, AddressBuckets.getFreeAa, refilled] at done
  cases done
  simp only [takeAa, rests alone, out] at run
  exact ⟨es, run⟩

/-- An opened bucket is kept, at once or after one more operation. -/
theorem Run.kept (run : Run cfg T es ((S.setPool σ).openBucket cfg t maa).1) :
    ∃ es', Run cfg T es'
      ((S.setPool (keepBucket cfg t maa (installAas cfg t maa σ))).takeAa t).1 := by
  by_cases many : cfg.nrLocalFreeAbuckets ≤
      ((installAas cfg t maa σ).threads t).freeAbucketsCount
  · have opened : (S.setPool σ).openBucket cfg t maa =
        ((S.setPool (installAas cfg t maa σ)).setCall t (.keeping maa), none) := if_pos many
    rw [opened] at run
    have keeping : ((S.setPool (installAas cfg t maa σ)).setCall t (.keeping maa)).calls t =
        .keeping maa := update_self ..
    have kept : Run cfg T _ ((((S.setPool (keepBucket cfg t maa (installAas cfg t maa σ))).setCall t
        (.keeping maa)).takeAa t).1) := .step (.access t) run (by rw [Enabled, keeping]; simp)
      (by simp only [perform, access, keeping]; rfl)
    rw [Tracked.takeAa_setCall] at kept
    exact ⟨_, kept⟩
  · have opened : (S.setPool σ).openBucket cfg t maa =
        (S.setPool (keepBucket cfg t maa (installAas cfg t maa σ))).takeAa t := if_neg many
    exact ⟨es, opened ▸ run⟩

theorem Run.get (run : Run cfg T es (resting E)) (ht : t < T)
    (done : E.perform cfg (.get t) = .ok E') : ∃ es', Run cfg T es' (resting E') := by
  have start : Run cfg T _ ((resting E).getFreeAa cfg t).1 := .step (.get t) run ⟨ht, rfl⟩ rfl
  have idle : ∀ u, u ≠ t → (resting E).calls u = .idle := fun _ _ => rfl
  by_cases aas : (E.pool.threads t).aasCount = 0
  · by_cases abuckets : (E.pool.threads t).abucketsCount = 0
    · have waits : (resting E).getFreeAa cfg t = ((resting E).setCall t .getting, none) :=
        (if_pos aas).trans (if_pos abuckets)
      rw [waits] at start
      have getting : ((resting E).setCall t .getting).calls t = .getting := update_self ..
      have enabled : ((resting E).setCall t .getting).Enabled T (.access t) := by
        rw [Enabled, getting]
        simp
      by_cases head : E.pool.freeAaHead = 0
      · have none : refillAas cfg t E.pool = none := by
          simp only [refillAas, aas, abuckets, if_true, aaGet, head]
        simp only [Exchange.perform, AddressBuckets.getFreeAa, none] at done
        cases done
        have head' : ((resting E).setCall t .getting).pool.freeAaHead = 0 := head
        have ended := Run.step (.access t) start enabled
          (by simp only [perform, access, getting, aaGet, head', if_true]; rfl)
        have same : ((resting E).setCall t .getting).setCall t .idle = resting E := by
          simp only [setCall, update_idem, rests idle]
          rfl
        exact ⟨_, same ▸ ended⟩
      · have head' : ((resting E).setCall t .getting).pool.freeAaHead ≠ 0 := head
        have opened := Run.step (.access t) start enabled
          (by simp only [perform, access, getting, aaGet, head', if_false]; rfl)
        obtain ⟨es', kept⟩ := opened.kept
        refine kept.taken (E := E) (fun u ne => update_of_ne ne _ _) rfl ?_ done
        simp only [refillAas, aas, abuckets, if_true, aaGet, head, if_false]
        rfl
    · have opens : (resting E).getFreeAa cfg t = _ := (if_pos aas).trans (if_neg abuckets)
      rw [opens] at start
      obtain ⟨es', kept⟩ := start.kept
      refine kept.taken (E := E) idle rfl ?_ done
      simp only [refillAas, aas, abuckets, if_true, if_false]
      rfl
  · have takes : (resting E).getFreeAa cfg t = (resting E).takeAa t := if_neg aas
    rw [takes] at start
    refine start.taken (E := E) idle rfl ?_ done
    simp only [refillAas, aas, if_false]
    rfl

theorem Run.linked (run : Run cfg T es (S.linkAa t id).1) (alone : ∀ u, u ≠ t → S.calls u = .idle)
    (out : S.out = E.out) (spilled : spillAas cfg t E.pool = .ok S.pool)
    (done : E.perform cfg (.put t id) = .ok E') : ∃ es', Run cfg T es' (resting E') := by
  simp only [Exchange.perform, AddressBuckets.putFreeAa, spilled, ok_bind] at done
  cases done
  simp only [linkAa, rests alone, out] at run
  exact ⟨es, run⟩

variable (T id) in
/-- A filled bucket is shared in one more operation, if the thread has too many. -/
theorem Run.filled (taken : takeFreeAbucket cfg t S.pool = .ok (maa, σ)) :
    ∃ S' e, S.fillBucket cfg t id = .ok (S', e) ∧ ∀ es, Run cfg T es S' →
      ∃ es', Run cfg T es' ((S.setPool (if cfg.nrLocalAbuckets ≤
        ((closeAas t maa σ).threads t).abucketsCount then shareAas t (closeAas t maa σ)
        else closeAas t maa σ)).linkAa t id).1 := by
  rw [fillBucket, taken, ok_bind]
  by_cases many : cfg.nrLocalAbuckets ≤ ((closeAas t maa σ).threads t).abucketsCount
  · simp only [many, if_true]
    refine ⟨_, _, rfl, fun es run => ?_⟩
    have sharing : ((S.setPool (closeAas t maa σ)).setCall t (.sharing id)).calls t =
        .sharing id := update_self ..
    have linked : Run cfg T _ (((S.setPool (shareAas t (closeAas t maa σ))).setCall t
        (.sharing id)).linkAa t id).1 := .step (.access t) run (by rw [Enabled, sharing]; simp)
      (by simp only [perform, access, sharing]; rfl)
    rw [Tracked.linkAa_setCall] at linked
    exact ⟨_, linked⟩
  · simp only [many, if_false]
    exact ⟨_, _, rfl, fun es run => ⟨es, run⟩⟩

theorem Run.put (run : Run cfg T es (resting E)) (enabled : E.Enabled T (.put t id))
    (done : E.perform cfg (.put t id) = .ok E') : ∃ es', Run cfg T es' (resting E') := by
  have idle : ∀ u, u ≠ t → (resting E).calls u = .idle := fun _ _ => rfl
  have start : (resting E).Enabled T (.put t id) :=
    ⟨enabled.1, rfl, enabled.2, fun _ _ eq => by cases eq⟩
  by_cases aas : (E.pool.threads t).aasCount = cfg.nrLocalAas
  · cases taken : takeFreeAbucket cfg t E.pool with
    | error fault =>
        simp only [Exchange.perform, AddressBuckets.putFreeAa, spillAas, aas, if_true,
          taken] at done
        cases done
    | ok r =>
        obtain ⟨maa, σ⟩ := r
        have spilled : spillAas cfg t E.pool = .ok (if cfg.nrLocalAbuckets ≤
            ((closeAas t maa σ).threads t).abucketsCount then shareAas t (closeAas t maa σ)
            else closeAas t maa σ) := by
          simp only [spillAas, aas, if_true, taken, ok_bind]
          rfl
        by_cases free : (E.pool.threads t).freeAbucketsCount = 0
        · have waits : (resting E).putFreeAa cfg t id =
              .ok ((resting E).setCall t (.fetching id), none) := (if_pos aas).trans (if_pos free)
          have fetching : ((resting E).setCall t (.fetching id)).calls t = .fetching id :=
            update_self ..
          obtain ⟨S', e, fills, after⟩ := Run.filled T id
            (S := (resting E).setCall t (.fetching id)) taken
          have filled := Run.step (.access t) (Run.step (.put t id) run start waits)
            (by rw [Enabled, fetching]; simp)
            (by simp only [perform, access, fetching]; exact fills)
          obtain ⟨es', linked⟩ := after _ filled
          exact linked.linked (E := E) (fun u ne => update_of_ne ne _ _) rfl spilled done
        · have fills : (resting E).putFreeAa cfg t id = (resting E).fillBucket cfg t id :=
            (if_pos aas).trans (if_neg free)
          obtain ⟨S', e, fills', after⟩ := Run.filled T id (S := resting E) taken
          obtain ⟨es', linked⟩ := after _ (.step (.put t id) run start (fills.trans fills'))
          exact linked.linked (E := E) idle rfl spilled done
  · have links : (resting E).putFreeAa cfg t id = .ok ((resting E).linkAa t id) := if_neg aas
    have linked : Run cfg T _ ((resting E).linkAa t id).1 := .step (.put t id) run start links
    refine linked.linked (E := E) idle rfl ?_ done
    simp only [spillAas, aas, if_false]
    rfl

theorem Run.whole (run : Exchange.Run cfg T E) : ∃ es, Run cfg T es (resting E) := by
  induction run with
  | init => exact ⟨[], .init⟩
  | step a _ enabled done ih =>
      obtain ⟨es, before⟩ := ih
      cases a with
      | get t => exact before.get enabled done
      | put t id => exact before.put enabled done
      | write id w =>
          cases done
          exact ⟨_, .step (.write id w) before ⟨enabled, fun _ _ eq => by cases eq⟩ rfl⟩

end AddressCalls

/-- With the operations of the calls in any order the assertion of `put_free_aa` holds in every
run exactly if the other threads can keep at most one empty bucket, or there is only one. -/
theorem bucket_assertion_iff (cfg : AddressConfig) (T : Nat) :
    (∀ es S, AddressCalls.Run cfg T es S →
      ∀ a, S.Enabled T a → S.perform cfg a ≠ .error .emptyBucket) ↔
    (T - 1) * cfg.nrLocalFreeAbuckets ≤ 1 ∨ cfg.nrAaBuckets ≤ 1 := by
  constructor
  · intro never
    by_contra few
    obtain ⟨E, id, whole, pos, out, aas, free, head⟩ :=
      Exchange.exists_stuck cfg T (by omega) (by omega)
    obtain ⟨es, run⟩ := AddressCalls.Run.whole whole
    have waits : (AddressCalls.resting E).putFreeAa cfg 0 id =
        .ok ((AddressCalls.resting E).setCall 0 (.fetching id), none) :=
      (if_pos aas).trans (if_pos free)
    have fetching : ((AddressCalls.resting E).setCall 0 (.fetching id)).calls 0 = .fetching id :=
      update_self 0 _ (AddressCalls.resting E).calls
    have stuck := AddressCalls.Run.step (.put 0 id) run
      ⟨pos, rfl, out, fun _ _ eq => by cases eq⟩ waits
    obtain ⟨P, Q, cell, tracked⟩ := stuck.tracked
    refine never _ _ stuck (.access 0) ?_ (tracked.lacks fetching head)
    rw [AddressCalls.Enabled, fetching]
    simp
  · intro few es S run a enabled failed
    obtain ⟨P, Q, cell, tracked⟩ := run.tracked
    rcases tracked.step enabled with ⟨t, id, _, fetching, _, shared⟩ | ⟨_, _, _, _, _, done, _⟩
    · have := tracked.shortage fetching shared
      omega
    · rw [done] at failed
      cases failed

end CompactFit
