import CompactFit.Safety
import CompactFit.SizeClassLookup
import CompactFit.ThreadCaches

/-!
How often a `cf_free` releases its class lock. Each time it does, one increment fewer of
the block is left to copy, and no other thread can add to the rest; so the call ends after
as many resumptions as the block has increments, whatever the others do.
-/

namespace CompactFit
open AddressPool AddressBuckets RunRelation

section
variable {π : Type} {cfg : Config} {r r' : Nat}

/-- A compaction of `r` bytes that has released the lock has copied one increment. -/
def LeavesLess (cfg : Config) (r : Nat) (outcome : Outcome) : Prop :=
  ∀ comp, outcome = .unlocked comp → 0 < comp.remSize ∧ comp.remSize + cfg.incrementalMemcpy = r

/-- The same for the call. -/
def SuspendsLess (cfg : Config) (r : Nat) (call : Option Suspended) : Prop :=
  ∀ c, call = some c → 0 < c.comp.remSize ∧ c.comp.remSize + cfg.incrementalMemcpy = r

theorem LeavesLess.returned (abort : Nat) : LeavesLess cfg r (.returned abort) := by
  intro comp eq
  cases eq

theorem SuspendsLess.none : SuspendsLess cfg r none := by
  intro call eq
  cases eq

variable [AddressPool π] (t c : Nat) (h : Heap π)

theorem copyIncrement_less (comp : Compaction) :
    Within (LeavesLess cfg) comp.remSize Prod.fst (copyIncrement cfg t comp h) := by
  rw [copyIncrement]
  generalize hn : (if cfg.incrementalMemcpy ≠ 0 then min comp.remSize cfg.incrementalMemcpy
    else comp.remSize) = n
  dsimp only
  split
  next more =>
    refine .ok fun comp' eq => ?_
    cases eq
    refine ⟨more, ?_⟩
    dsimp only
    split at hn <;> omega
  next => exact .pass fun _ _ => .pass fun _ _ => .ok (.returned 0)

theorem doCompaction_less (targetPage targetIndex srcPage size : Nat) :
    Within (LeavesLess cfg) size Prod.fst
      (doCompaction cfg t c targetPage targetIndex srcPage size h) :=
  .pass fun _ _ => .pass fun _ _ => .pass fun _ _ => .pass fun _ _ => .pass fun _ _ =>
    copyIncrement_less t _ _

theorem resumeCompaction_less (comp : Compaction) :
    Within (LeavesLess cfg) comp.remSize Prod.fst (resumeCompaction cfg t comp h) := by
  refine .pass fun _ _ => ?_
  split
  · exact copyIncrement_less t h comp
  · split
    · exact copyIncrement_less t h { comp with j := comp.j + 1 }
    · refine .pass fun _ _ => ?_
      split
      · exact .pass fun _ _ => .ok (.returned _)
      · split
        · exact .pass fun _ _ => .ok (.returned _)
        · exact .error

theorem settleFree_less (a : Nat) (held : Option Nat) (o : Outcome) (less : LeavesLess cfg r o) :
    Within (SuspendsLess cfg) r Prod.fst (settleFree cfg t a held c (o, h)) := by
  cases o with
  | returned abort => exact .pass fun _ _ => .ok .none
  | unlocked comp =>
      refine .ok fun call eq => ?_
      cases eq
      exact less comp rfl

theorem freeInFullState_less (a targetPage size index : Nat) :
    Within (SuspendsLess cfg) r Prod.fst (freeInFullState cfg t c a targetPage size index h) := by
  rw [freeInFullState]
  dsimp only
  split
  · refine .pass fun _ _ => .pass fun _ _ => .pass fun _ _ => ?_
    split
    · exact .pass fun _ _ => .pass fun _ _ => .pass fun _ _ => .ok .none
    · exact .pass fun _ _ => .pass fun _ _ => .ok .none
  · exact .pass fun _ _ => .pass fun _ _ => .ok .none

theorem freeMoving_less (a srcPage targetBlock size : Nat) :
    Within (SuspendsLess cfg) size Prod.fst (freeMoving cfg t c a srcPage targetBlock size h) := by
  refine .pass fun g _ => ?_
  dsimp only
  split
  · exact .pass fun _ _ => settleFree_less t c _ a _ _ (.returned 0)
  · split
    · refine .pass fun _ _ => .pass fun _ _ => .pass fun r run => ?_
      exact settleFree_less t c _ a _ r.1 (doCompaction_less t c _ _ _ _ _ r run)
    · exact .pass fun _ _ => settleFree_less t c _ a _ _ (.returned 0)

theorem freeStill_less (a targetPage size index : Nat) :
    Within (SuspendsLess cfg) size Prod.fst (freeStill cfg t c a targetPage size index h) := by
  rw [freeStill]
  split
  · exact .pass fun _ _ => settleFree_less t c _ a _ _ (.returned 0)
  · split
    · refine .pass fun _ _ => .pass fun r run => ?_
      exact settleFree_less t c _ a _ r.1 (doCompaction_less t c _ _ _ _ _ r run)
    · exact .pass fun _ _ => settleFree_less t c _ a _ _ (.returned 0)

/-- A new call releases the lock with one increment of its block copied. -/
theorem cfFree_less (a : Nat) (call : Suspended) (h' : Heap π)
    (run : cfFree cfg t a h = .ok (some call, h')) : 0 < call.comp.remSize ∧
      call.comp.remSize + cfg.incrementalMemcpy ≤ pageDataSize := by
  have less : ∃ c, SuspendsLess cfg (blockSize c) (some call) := by
    rw [cfFree] at run
    split at run
    · obtain ⟨_, _, rest⟩ := bind_eq_ok run
      obtain ⟨_, _, rest⟩ := bind_eq_ok rest
      cases rest
    · obtain ⟨pageBlock, _, rest⟩ := bind_eq_ok run
      refine ⟨(h.pages (pageOfBlock pageBlock)).sc, ?_⟩
      dsimp only at rest
      split at rest
      · exact freeInFullState_less t _ h a _ _ _ _ rest
      · split at rest
        · exact freeMoving_less t _ h a _ _ _ _ rest
        · exact freeStill_less t _ h a _ _ _ _ rest
  obtain ⟨c, less⟩ := less
  obtain ⟨pos, eq⟩ := less call rfl
  exact ⟨pos, eq.le.trans (blockSize_le c)⟩

/-- A call that releases the lock again has copied another increment. -/
theorem resumeFree_less (call call' : Suspended) (h' : Heap π)
    (run : resumeFree cfg t call h = .ok (some call', h')) : 0 < call'.comp.remSize ∧
      call'.comp.remSize + cfg.incrementalMemcpy = call.comp.remSize := by
  obtain ⟨⟨o, g⟩, copied, rest⟩ := bind_eq_ok run
  have less := resumeCompaction_less t h call.comp _ copied
  exact settleFree_less t _ g call.address call.held o less _ rest call' rfl

end

/-! ### Runs -/

section Runs
variable {π : Type} [AddressPool π] {cfg : Config} {T t n : Nat} {S S' : System π} {a : Action}

/-- From `S` to `S'` thread `t` has been resumed `n` times and has always been suspended
again; the other threads have taken any steps. -/
inductive ResumedTimes (cfg : Config) (T t : Nat) (S : System π) : Nat → System π → Prop where
  | start : S.calls t ≠ none → ResumedTimes cfg T t S 0 S
  | other {n : Nat} {S' S'' : System π} (a : Action) : ResumedTimes cfg T t S n S' →
      Enabled cfg T S' a → Clean cfg S' a → a ≠ .resume t → perform cfg S' a = .ok S'' →
      ResumedTimes cfg T t S n S''
  | again {n : Nat} {S' S'' : System π} : ResumedTimes cfg T t S n S' →
      perform cfg S' (.resume t) = .ok S'' → S''.calls t ≠ none →
      ResumedTimes cfg T t S (n + 1) S''

omit [AddressPool π] in
theorem By.resume (enabled : Enabled cfg T S a) (busy : S.calls t ≠ none) (mine : a.By t) :
    a = .resume t := by
  cases a with
  | malloc u size => exact absurd (mine ▸ enabled.2) busy
  | free u a => exact absurd (mine ▸ enabled.2.1) busy
  | resume u => exact congrArg _ mine
  | write a j x => cases mine

/-- A resumed call is suspended again with one increment less. -/
theorem perform_resume {call call' : Suspended} (suspended : S.calls t = some call)
    (run : perform cfg S (.resume t) = .ok S') (again : S'.calls t = some call') :
    0 < call'.comp.remSize ∧
      call'.comp.remSize + cfg.incrementalMemcpy = call.comp.remSize := by
  rw [perform, System.resume] at run
  split at run
  next none =>
    rw [suspended] at none
    cases none
  next c eq =>
    rw [suspended] at eq
    cases eq
    obtain ⟨⟨r, h⟩, resumed, rest⟩ := bind_eq_ok run
    cases rest
    have same := (Function.update_self t r S.calls).symm.trans again
    exact resumeFree_less t S.heap call call' h (same ▸ resumed)

theorem ResumedTimes.busy (resumed : ResumedTimes cfg T t S n S') : S'.calls t ≠ none := by
  induction resumed with
  | start busy => exact busy
  | other a _ enabled _ ne run ih =>
      rw [perform_calls run fun mine => ne (By.resume enabled ih mine)]
      exact ih
  | again _ _ busy => exact busy

theorem ResumedTimes.less (resumed : ResumedTimes cfg T t S n S') {call : Suspended}
    (suspended : S.calls t = some call) (pos : 0 < call.comp.remSize) :
    ∃ call', S'.calls t = some call' ∧ 0 < call'.comp.remSize ∧
      call'.comp.remSize + n * cfg.incrementalMemcpy = call.comp.remSize := by
  induction resumed with
  | start => exact ⟨call, suspended, pos, by rw [Nat.zero_mul, Nat.add_zero]⟩
  | other a before enabled _ ne run ih =>
      obtain ⟨call', busy, left⟩ := ih
      have kept := perform_calls run fun mine => ne (By.resume enabled before.busy mine)
      exact ⟨call', kept.trans busy, left⟩
  | again _ run still ih =>
      obtain ⟨call', busy, _, left⟩ := ih
      obtain ⟨call'', again⟩ := Option.ne_none_iff_exists'.mp still
      obtain ⟨pos'', less⟩ := perform_resume busy run again
      refine ⟨call'', again, pos'', ?_⟩
      rw [Nat.succ_mul]
      omega

theorem ResumedTimes.reachable {addresses : π} (resumed : ResumedTimes cfg T t S n S')
    (reachable : Reachable cfg T addresses S) : Reachable cfg T addresses S' := by
  induction resumed with
  | start => exact reachable
  | other a _ enabled clean _ run ih => exact .step a ih enabled clean run
  | again before run _ ih => exact .step (.resume t) ih before.busy trivial run

/-- What a suspended call has left to copy. -/
theorem Run.remSize_bounds {allowed : System π → Action → Prop} {addresses : π}
    (run : Run cfg T allowed addresses S) : ∀ t call, S.calls t = some call →
      0 < call.comp.remSize ∧ call.comp.remSize + cfg.incrementalMemcpy ≤ pageDataSize := by
  induction run with
  | init =>
      intro t call none
      cases none
  | @step S S' a _ enabled _ run ih =>
      intro t call suspended
      by_cases mine : a.By t
      · cases a with
        | malloc u size =>
            obtain ⟨⟨r, h⟩, _, rest⟩ := bind_eq_ok run
            cases r <;> (cases rest; exact ih t call suspended)
        | free u a =>
            cases mine
            obtain ⟨⟨r, h⟩, freed, rest⟩ := bind_eq_ok run
            cases rest
            have same := (Function.update_self t r S.calls).symm.trans suspended
            exact cfFree_less t S.heap a call h (same ▸ freed)
        | resume u =>
            cases mine
            obtain ⟨call', busy⟩ := Option.ne_none_iff_exists'.mp enabled
            obtain ⟨pos, less⟩ := perform_resume busy run suspended
            have bound := (ih t call' busy).2
            exact ⟨pos, by omega⟩
        | write a j x => cases mine
      · exact ih t call ((perform_calls run mine).symm.trans suspended)

end Runs

/-- A suspended `cf_free` ends after as many resumptions as there are increments left, whatever
the other threads do in between. A resumption fails only for the lack of an address bucket. -/
theorem suspended_free_ends (cfg : Config) (config : cfg.Compacting)
    (once : cfg.memcpyMultiplicator = 1) (T : Nat) (S : System AddressBuckets)
    (reachable : Reachable cfg T (initFreeAaList cfg.toAddressConfig) S) (t : Nat)
    (call : Suspended) (suspended : S.calls t = some call) :
    call.comp.remSize + cfg.incrementalMemcpy ≤ pageDataSize ∧
      ∀ n S', ResumedTimes cfg T t S n S' →
        n * cfg.incrementalMemcpy < call.comp.remSize ∧
          ((∃ S'', perform cfg S' (.resume t) = .ok S'' ∧
            (call.comp.remSize ≤ (n + 1) * cfg.incrementalMemcpy → S''.calls t = none)) ∨
          (perform cfg S' (.resume t) = .error .emptyBucket ∧
            1 < (T - 1) * cfg.nrLocalFreeAbuckets ∧ 1 < cfg.nrAaBuckets)) := by
  obtain ⟨pos, bound⟩ := reachable.remSize_bounds t call suspended
  refine ⟨bound, fun n S' resumed => ?_⟩
  obtain ⟨call', busy, pos', left⟩ := resumed.less suspended pos
  refine ⟨by omega, ?_⟩
  have sound := (resumed.reachable reachable).sound config once (valid_init _ T)
  have enabled : Enabled cfg T S' (.resume t) := by
    rw [Enabled, busy]
    exact Option.some_ne_none call'
  rcases sound.steps config once (.resume t) enabled with ⟨S'', run⟩ | ⟨_, _, _, eq, _⟩ |
    ⟨run, scarce⟩
  · refine .inl ⟨S'', run, fun enough => ?_⟩
    cases again : S''.calls t with
    | none => rfl
    | some call'' =>
        obtain ⟨pos'', less⟩ := perform_resume busy run again
        rw [Nat.succ_mul] at enough
        omega
  · cases eq
  · obtain ⟨many, buckets⟩ := not_or.mp scarce
    exact .inr ⟨run, Nat.lt_of_not_le many, Nat.lt_of_not_le buckets⟩

theorem ResumedTimes.checked {π : Type} [AddressPool π] {cfg : Config} {T t n : Nat}
    {S S' : System π} {p : System π → Bool} (resumed : ResumedTimes cfg T t S n S')
    (check : (perform cfg S' (.resume t)).toOption.any
      (fun S'' => (S''.calls t).isSome && p S'') = true) :
    ∃ S'', ResumedTimes cfg T t S (n + 1) S'' ∧ p S'' = true := by
  cases hr : perform cfg S' (.resume t) with
  | error e =>
      rw [hr] at check
      cases check
  | ok S'' =>
      rw [hr] at check
      obtain ⟨still, more⟩ := (Bool.and_eq_true _ _).mp check
      exact ⟨S'', .again resumed hr (Option.isSome_iff_ne_none.mp still), more⟩

def fineConfig : Config :=
  { smallConfig with
    incrementalMemcpy := 1024
    incrementalMemcpy_int := by decide }

theorem fineConfig_compacting : fineConfig.Compacting :=
  ⟨by decide, wholeCopies_of_multiple (by decide)⟩

/-- The call that moves an object of 7000 bytes is resumed twice, and can be resumed again. -/
theorem suspended_free_ends_twice : ∃ S S' S'' : System AddressBuckets,
    ResumedTimes fineConfig 2 0 S 2 S' ∧ perform fineConfig S' (.resume 0) = .ok S'' := by
  obtain ⟨S, reachable, found⟩ := reachable_of_script fineConfig 2
    (initFreeAaList fineConfig.toAddressConfig)
    [.malloc 0 7000, .malloc 0 7000, .malloc 0 7000, .malloc 0 7000, .malloc 0 7000,
      .malloc 0 7000, .free 0 1048824, .free 0 1048820]
    (p := fun S => (S.calls 0).isSome && (perform fineConfig S (.resume 0)).toOption.any
      fun S' => (S'.calls 0).isSome && (perform fineConfig S' (.resume 0)).toOption.any
        fun S'' => (S''.calls 0).isSome && true) (by decide +kernel)
  obtain ⟨suspended, rest⟩ := (Bool.and_eq_true _ _).mp found
  obtain ⟨call, busy⟩ := Option.isSome_iff_exists.mp suspended
  have start : ResumedTimes fineConfig 2 0 S 0 S := .start (Option.isSome_iff_ne_none.mp suspended)
  obtain ⟨S1, once, rest⟩ := start.checked rest
  obtain ⟨S2, twice, _⟩ := once.checked rest
  have ends := ((suspended_free_ends fineConfig fineConfig_compacting rfl 2 S reachable
    0 call busy).2 2 S2 twice).2
  rcases ends with ⟨S3, run, _⟩ | ⟨_, many, _⟩
  · exact ⟨S, S2, S3, twice, run⟩
  · exact absurd many (by decide)

end CompactFit
