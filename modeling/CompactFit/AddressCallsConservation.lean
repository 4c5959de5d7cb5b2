import CompactFit.AddressCallsSteps

/-!
Conservation of abstract addresses with the calls of the threads interleaved: also between
two operations of a call every identifier and every bucket structure is in one place.
-/

namespace CompactFit
open Function AddressBuckets

namespace AddressCalls
variable {cfg : AddressConfig} {T : Nat} {es : List (PoolEvent Nat)} {S : AddressCalls}
  {P Q : Ids} {cell : List Nat → Nat}

theorem tracked_init : Tracked cfg T (init cfg) (initialIds cfg) noIds (homeCell cfg) := by
  have same : withOpened T (fun _ => .idle) (initFreeAaList cfg) = initFreeAaList cfg := by
    refine congrArg (fun threads => { initFreeAaList cfg with threads := threads })
      (funext fun s => ?_)
    by_cases client : s < T
    · exact if_pos client
    · exact (if_neg client).trans ((filled_init cfg).threads s).symm
  refine ⟨?_, fun _ => trivial, fun _ _ _ eq => (by cases eq), fun _ _ => rfl⟩
  have whole : (Exchange.init cfg).Tracked cfg (T + T) _ _ _ := Exchange.tracked_init
  rw [exchange, show withOpened T (init cfg).calls (init cfg).pool = _ from same]
  exact whole

theorem Run.tracked (run : Run cfg T es S) : ∃ P Q cell, Tracked cfg T S P Q cell := by
  induction run with
  | init => exact ⟨_, _, _, tracked_init⟩
  | step a _ enabled run ih =>
      obtain ⟨P, Q, cell, tracked⟩ := ih
      rcases tracked.step enabled with ⟨_, _, _, _, fault, _⟩ | ⟨_, _, P', Q', cell', done, next, _⟩
      · rw [run] at fault
        cases fault
      · rw [run] at done
        cases done
        exact ⟨P', Q', cell', next⟩

/-- A call at `aa_bucket_get` needs a chain from the global stack. -/
theorem Tracked.lacks (tracked : Tracked cfg T S P Q cell) {t id : Nat}
    (fetching : S.calls t = .fetching id) (head : S.pool.freeAaBucketsHead = 0) :
    S.access cfg t = .error .emptyBucket := by
  have ht := tracked.thread_lt (t := t) (by simp [fetching])
  have call := tracked.call t
  rw [fetching] at call
  have none : (S.pool.threads t).freeAbucketsCount = 0 := by simp [tracked.counts ht, call.2.1]
  simp only [access, fetching, fillBucket, takeFreeAbucket, none, if_true, aaBucketGet, head]
  rfl

end AddressCalls

/-- In every interleaving the identifiers and the bucket structures are conserved. A step fails
only at `aa_bucket_get` of `put_free_aa`, exactly if the global stack has no empty bucket, and a
completed call has the right answer. -/
theorem address_calls_conserved {cfg : AddressConfig} {T : Nat} {es : List (PoolEvent Nat)}
    {S : AddressCalls} (run : AddressCalls.Run cfg T es S) :
    (∃ full free, (S.exchange T).Conserved cfg (T + T) full free) ∧
    ∀ a, S.Enabled T a →
      (∀ fault, S.perform cfg a = .error fault ↔ fault = .emptyBucket ∧
        ∃ t id, a = .access t ∧ S.calls t = .fetching id ∧ S.pool.freeAaBucketsHead = 0) ∧
      ∀ S' e, S.perform cfg a = .ok (S', e) → S.Answered cfg e := by
  obtain ⟨P, Q, cell, tracked⟩ := run.tracked
  refine ⟨⟨_, _, tracked.pool.conserved⟩, fun a enabled => ⟨fun fault => ⟨fun failed => ?_, ?_⟩,
    fun S' e done => ?_⟩⟩
  · rcases tracked.step enabled with ⟨t, id, eq, fetching, run', shared⟩ | ⟨_, _, _, _, _, run', _⟩
    · rw [run'] at failed
      cases failed
      have head := tracked.pool.rep.empty.shared
      rw [shared] at head
      exact ⟨rfl, t, id, eq, fetching, head⟩
    · rw [run'] at failed
      cases failed
  · rintro ⟨rfl, t, id, rfl, fetching, head⟩
    exact tracked.lacks fetching head
  · rcases tracked.step enabled with ⟨_, _, _, _, run', _⟩ | ⟨_, _, _, _, _, run', _, answered⟩
    · rw [run'] at done
      cases done
    · rw [run'] at done
      cases done
      exact answered

/-- Thread 1 keeps both buckets; thread 0 has an identifier to return and needs one of them. -/
theorem address_calls_conserved_fetching : ∃ S : AddressCalls,
    S.calls 0 = .fetching 0 ∧ S.out = {0} ∧
      (∃ full free, (S.exchange 2).Conserved shortageConfig (2 + 2) full free) ∧
      S.perform shortageConfig (.access 0) = .error .emptyBucket := by
  have first : AddressCalls.Run shortageConfig 2 _ _ :=
    .step (.access 1) (.step (.get 1) .init (by decide +kernel) rfl) (by decide +kernel) rfl
  have both : AddressCalls.Run shortageConfig 2 _ _ :=
    .step (.access 1) (.step (.get 1) first (by decide +kernel) rfl) (by decide +kernel) rfl
  have back : AddressCalls.Run shortageConfig 2 _ _ :=
    .step (.put 0 0) (.step (.put 0 1) both (by decide +kernel) rfl) (by decide +kernel) rfl
  have whole := address_calls_conserved back
  refine ⟨_, rfl, by decide +kernel, whole.1, ?_⟩
  exact ((whole.2 (.access 0) (by decide +kernel)).1 .emptyBucket).mpr ⟨rfl, 0, 0, rfl, rfl, rfl⟩

end CompactFit
