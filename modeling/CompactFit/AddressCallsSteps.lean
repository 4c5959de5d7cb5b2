import CompactFit.AddressCallsInvariant

/-!
One step of a call, from one operation on a global stack to the next.
-/

namespace CompactFit
open Function AddressBuckets BucketPool

namespace AddressCalls
variable {cfg : AddressConfig} {T t id maa : Nat} {S : AddressCalls} {P P' Q : Ids}
  {cell : List Nat → Nat} {σ : AddressBuckets}

/-- The answer of a completed call: an identifier that is not handed out, or NULL when the
thread and the global stack have none. -/
inductive Answered (cfg : AddressConfig) (S : AddressCalls) : Option (PoolEvent Nat) → Prop where
  | nothing : Answered cfg S none
  | got {t id : Nat} : id < cfg.nrAas → id ∉ S.out → Answered cfg S (some (.got t (some id)))
  | null {t : Nat} : (S.pool.threads t).aasCount = 0 → (S.pool.threads t).abucketsCount = 0 →
      S.pool.freeAaHead = 0 → Answered cfg S (some (.got t none))
  | added {t id : Nat} : id ∈ S.out → Answered cfg S (some (.added t id))

/-! ### The clients for the opened buckets -/

theorem ledger_regroup {Q' : Ids} (ledger : Ledger cfg T P Q cell)
    (empty : WellFormed cfg.nrLocalFreeAbuckets Q') (idle : ∀ s, T ≤ s → (Q'.locals s).elems = [])
    (holds : ∀ m, Q'.Holds m ↔ Q.Holds m) : Ledger cfg T P Q' cell where
  full := ledger.full
  empty := empty
  idle s ge := ⟨(ledger.idle s ge).1, idle s ge⟩
  held := ledger.held
  cell_range := ledger.cell_range
  empty_range m held := ledger.empty_range m ((holds m).mp held)
  apart b hb held := ledger.apart b hb ((holds _).mp held)
  inj := ledger.inj
  complete m pos le := (ledger.complete m pos le).imp_left (holds m).mpr

theorem client_opens (rep : EmptyRep σ Q) {u : Nat} (none : (Q.locals u).items = []) :
    EmptyRep (σ.modifyThread u fun _ => openedData (.keeping maa)) (push u maa Q) := by
  refine ⟨forall_clients u ?_ fun s ne => ?_, rep.shared, rep.bucket⟩
  · rw [modifyThread_same, push, setLocal_same, none]
    exact ⟨rfl, ⟨_, rfl, rfl⟩, (rep.locals u).noBuckets⟩
  · rw [modifyThread_other _ _ _ ne, push, setLocal_other _ _ ne]
    exact rep.locals s

theorem client_closes (rep : EmptyRep σ Q) {u : Nat} :
    EmptyRep (σ.modifyThread u fun _ => openedData .idle)
      (Q.setLocal u { Q.locals u with items := [] }) := by
  refine ⟨forall_clients u ?_ fun s ne => ?_, rep.shared, rep.bucket⟩
  · rw [modifyThread_same, setLocal_same]
    exact ⟨rfl, ⟨_, rfl⟩, (rep.locals u).noBuckets⟩
  · rw [modifyThread_other _ _ _ ne, setLocal_other _ _ ne]
    exact rep.locals s

/-- The words of a client say nothing about identifiers. -/
theorem client_full (full : FullRep (withOpened T S.calls σ) P cell) (t : Nat) (c : AddressCall) :
    FullRep (withOpened T (update S.calls t c) σ) P cell := by
  rw [withOpened_update]
  refine full.congr (fun _ _ => rfl) (fun _ _ => rfl) rfl (forall_clients (T + t) ?_ fun s ne => ?_)
  · rw [modifyThread_same, withOpened_client]
    exact ⟨rfl, rfl, rfl, rfl, rfl⟩
  · rw [modifyThread_other _ _ _ ne]
    exact ⟨rfl, rfl, rfl, rfl, rfl⟩

namespace Tracked

theorem client_items (tracked : Tracked cfg T S P Q cell) (t : Nat) :
    (Q.locals (T + t)).items = (S.calls t).opens.toList := by
  have client := tracked.pool.rep.empty.locals (T + t)
  simp only [exchange, withOpened_client] at client
  obtain ⟨count, ⟨e, chain⟩, _⟩ := client
  cases opened : (S.calls t).opens with
  | none =>
      simp only [openedData, opened, if_true] at count
      exact List.length_eq_zero_iff.mp count.symm
  | some maa =>
      simp only [openedData, opened, reduceCtorEq, if_false, Option.getD_some] at count chain
      obtain ⟨m, eq⟩ := List.length_eq_one_iff.mp count.symm
      rw [eq] at chain ⊢
      rw [← chain.1]
      rfl

theorem answered (tracked : Tracked cfg T S P Q cell) (held : P.Holds id) :
    Answered cfg S (some (.got t (some id))) := by
  have lt := tracked.pool.rep.ledger.held id held
  exact .got lt ((tracked.pool.free id lt).mp held)

/-- `get_free_aa` hands out the first identifier of the thread. -/
theorem take (tracked : Tracked cfg T S P Q cell) (ht : t < T) (quiet : (S.calls t).opens = none)
    {items : List Nat} (hi : (P.locals t).items = id :: items) :
    (S.takeAa t).2 = some (.got t (some id)) ∧ P.Holds id ∧
      Tracked cfg T (S.takeAa t).1 (P.setLocal t { P.locals t with items := items }) Q cell := by
  obtain ⟨first, held, holds, rep⟩ := tracked.pool.rep.pop (t := t) (by omega) hi
  have first : (S.pool.threads t).aas = id :=
    (congrArg ThreadAddresses.aas (withOpened_thread ht)).symm.trans first
  have lt := tracked.pool.rep.ledger.held id held
  have pool : ((S.takeAa t).1.exchange T).pool = (S.exchange T).pool.modifyThread t fun d =>
      { d with aas := S.pool.aaSpace (S.pool.threads t).aas, aasCount := d.aasCount - 1 } :=
    (withOpened_same (c := .idle) quiet.symm).trans (withOpened_modifyThread ht _)
  have out : (S.takeAa t).1.out = insert id S.out := congrArg (insert · S.out) first
  refine ⟨congrArg (fun id => some (PoolEvent.got t (some id))) first, held, ?_⟩
  refine tracked.of_call (t := t) (c := .idle) ht ⟨?_, fun a ha => ?_, fun a (ha : a ∈ _) => ?_⟩ rfl
    trivial (fun u ne _ => ⟨setLocal_other _ _ ne, rfl⟩) (fun u a _ _ mem => ?_)
    (fun a eq => by cases eq)
  · rw [pool]
    simp only [exchange, withOpened_thread ht] at rep ⊢
    exact rep
  · rw [holds, tracked.pool.free a ha, show ((S.takeAa t).1.exchange T).out = _ from out,
      Finset.mem_insert, not_or, and_comm]
    rfl
  · rw [show ((S.takeAa t).1.exchange T).out = _ from out] at ha
    rcases Finset.mem_insert.mp ha with rfl | ha
    · exact lt
    · exact tracked.pool.bound a ha
  · rw [out]
    exact Finset.mem_insert_of_mem mem

theorem takeAa_setCall (t : Nat) (c : AddressCall) (S : AddressCalls) :
    (S.setCall t c).takeAa t = S.takeAa t := by
  simp only [takeAa, setCall, update_idem]

/-- A thread without identifiers opens a bucket. It keeps the bucket at once, or it has to give
its empty ones back before. -/
theorem opens (tracked : Tracked cfg T S P Q cell) (ht : t < T) (quiet : (S.calls t).opens = none)
    (hi : (P.locals t).items = []) (hr : refill t P = some P')
    (opened : maa = cell (P'.locals t).items)
    (full : FullRep (withOpened T S.calls (installAas cfg t maa σ)) P' cell)
    (empty : EmptyRep (withOpened T S.calls (installAas cfg t maa σ)) Q) :
    ∃ P'' Q', Tracked cfg T ((S.setPool σ).openBucket cfg t maa).1 P'' Q' cell ∧
      Answered cfg S ((S.setPool σ).openBucket cfg t maa).2 := by
  have ledger := tracked.pool.rep.ledger
  have within : t < T + T := by omega
  obtain ⟨wf, holds⟩ := refill_spec ledger.full hr
  have free : ∀ a, a < cfg.nrAas → (P'.Holds a ↔ a ∉ S.out) :=
    fun a lt => (holds a).trans (tracked.pool.free a lt)
  obtain ⟨isBucket, fresh, kept⟩ := ledger.openBucket within within hi hr
  have len := isBucket_length ledger.full isBucket
  have count := (empty.locals t).count
  rw [withOpened_thread ht] at count
  rw [← opened] at fresh kept
  by_cases many : cfg.nrLocalFreeAbuckets ≤ (Q.locals t).items.length
  · have run : (S.setPool σ).openBucket cfg t maa =
        ((S.setPool (installAas cfg t maa σ)).setCall t (.keeping maa), none) :=
      if_pos (by rw [← count] at many; exact many)
    have client : (Q.locals (T + t)).items = [] := by
      rw [tracked.client_items t, quiet]
      rfl
    obtain ⟨_, _, away⟩ := ledger.openBucket within (u := T + t) (by omega) hi hr
    have push_eq : put cfg.nrLocalFreeAbuckets 1 (T + t) maa Q = push (T + t) maa Q := by
      have ne : ([] : List Nat).length ≠ cfg.nrLocalFreeAbuckets :=
        Nat.ne_of_lt cfg.nrLocalFreeAbuckets_pos
      rw [put, spill, client, if_neg ne]
    rw [← opened, push_eq] at away
    rw [run]
    refine ⟨P', push (T + t) maa Q, tracked.of_call (c := .keeping maa) ht ⟨⟨away, ?_, ?_⟩, free,
      tracked.pool.bound⟩ rfl ⟨len, ?_⟩ (fun u ne hu => ⟨refill_other hr ne, ?_⟩)
      (fun _ _ _ _ mem => mem) (fun _ eq => by cases eq), .nothing⟩
    · exact client_full full t _
    · have rep : EmptyRep _ (push (T + t) maa Q) := client_opens empty client
      rw [← withOpened_update] at rep
      exact rep
    · rw [push, setLocal_other _ _ (by omega)]
      exact le_antisymm (ledger.empty.items_le t) many
    · rw [push, setLocal_other _ _ (by omega)]
  · have run : (S.setPool σ).openBucket cfg t maa =
        ((S.setPool (keepBucket cfg t maa (installAas cfg t maa σ))).setCall t .idle).takeAa t := by
      rw [takeAa_setCall]
      exact if_neg (by rw [← count] at many; exact many)
    have apart : ∀ b, P'.IsBucket b → cell b ≠ maa ∧ ¬ Q.Holds (cell b) := by
      intro b hb
      obtain ⟨old, ne⟩ := (refill_isBucket cfg.nrLocalAas_pos ledger.full hr hi b).mp hb
      refine ⟨fun eq => ne (ledger.inj _ _ old isBucket (eq.trans opened)), ledger.apart b old⟩
    obtain ⟨full', empty'⟩ := keepBucket_spec (t := t) full empty ledger.empty fresh apart
    rw [← withOpened_keepBucket cfg ht] at full' empty'
    have resting : Tracked cfg T
        ((S.setPool (keepBucket cfg t maa (installAas cfg t maa σ))).setCall t .idle) P'
        (put cfg.nrLocalFreeAbuckets 1 t maa Q) cell := by
      refine tracked.of_call (c := .idle) ht ⟨⟨kept, client_full full' t _, ?_⟩, free,
        tracked.pool.bound⟩ rfl trivial
        (fun u ne hu => ⟨refill_other hr ne, put_other _ _ _ _ ne⟩) (fun _ _ _ _ mem => mem)
        (fun _ eq => by cases eq)
      rw [← withOpened_same (c := .idle) quiet.symm] at empty'
      exact empty'
    obtain ⟨id, items, first⟩ := exists_of_refill cfg.nrLocalAas_pos ledger.full hr
    obtain ⟨event, held, taken⟩ := resting.take ht (congrArg _ (update_self ..)) first
    rw [run, event]
    exact ⟨_, _, taken, tracked.answered ((holds id).mp held)⟩

/-- The empty buckets of the thread are on the global stack, and it keeps the opened one. -/
theorem keeps (tracked : Tracked cfg T S P Q cell) (ht : t < T)
    (keeping : S.calls t = .keeping maa) :
    ∃ P' Q', Tracked cfg T ((S.setPool (keepBucket cfg t maa S.pool)).takeAa t).1 P' Q' cell ∧
      Answered cfg S ((S.setPool (keepBucket cfg t maa S.pool)).takeAa t).2 := by
  obtain ⟨ledger, full, empty⟩ := tracked.pool.rep
  have call := tracked.call t
  rw [keeping] at call
  have client : (Q.locals (T + t)).items = [maa] := by
    rw [tracked.client_items t, keeping]
    rfl
  obtain ⟨wf, held, holds⟩ := get_spec ledger.empty (get_of_items client)
  have fresh : ¬ (Q.setLocal (T + t) { Q.locals (T + t) with items := [] }).Holds maa :=
    fun mem => ((holds maa).mp mem).2 rfl
  obtain ⟨wf', holds'⟩ := put_spec 1 cfg.nrLocalFreeAbuckets_pos (t := t) wf fresh
  have apart : ∀ b, P.IsBucket b → cell b ≠ maa ∧
      ¬ (Q.setLocal (T + t) { Q.locals (T + t) with items := [] }).Holds (cell b) := by
    intro b hb
    exact ⟨fun eq => ledger.apart b hb (eq ▸ held),
      fun mem => ledger.apart b hb ((holds _).mp mem).1⟩
  have closed := client_closes (u := T + t) empty
  simp only [exchange, ← withOpened_update] at closed
  obtain ⟨full', empty'⟩ :=
    keepBucket_spec (t := t) (client_full full t .idle) closed wf fresh apart
  rw [← withOpened_keepBucket cfg ht] at full' empty'
  have resting : Tracked cfg T ((S.setPool (keepBucket cfg t maa S.pool)).setCall t .idle) P
      (put cfg.nrLocalFreeAbuckets 1 t maa
        (Q.setLocal (T + t) { Q.locals (T + t) with items := [] })) cell := by
    refine tracked.of_call (c := .idle) ht ⟨⟨ledger_regroup ledger wf' (fun s ge => ?_) fun m => ?_,
      full', empty'⟩, tracked.pool.free, tracked.pool.bound⟩ rfl trivial (fun u ne hu => ⟨rfl, ?_⟩)
      (fun _ _ _ _ mem => mem) (fun _ eq => by cases eq)
    · rw [put_other _ _ _ _ (by omega), setLocal_other _ _ (by omega)]
      exact (ledger.idle s ge).2
    · rw [holds', holds]
      by_cases eq : m = maa
      · simp [eq, held]
      · simp [eq]
    · rw [put_other _ _ _ _ ne, setLocal_other _ _ (by omega)]
  obtain ⟨id, items, first⟩ : ∃ id items, (P.locals t).items = id :: items := by
    refine List.exists_cons_of_ne_nil fun nil => ?_
    have len := call.1
    rw [nil] at len
    exact absurd len (Nat.ne_of_lt cfg.nrLocalAas_pos)
  obtain ⟨event, held, taken⟩ := resting.take ht (congrArg _ (update_self ..)) first
  rw [← takeAa_setCall t .idle, event]
  exact ⟨_, _, taken, tracked.answered held⟩

/-- `put_free_aa` ends with the identifier in front of the others of the thread. -/
theorem links (tracked : Tracked cfg T S P Q cell) (ht : t < T) (quiet : (S.calls t).opens = none)
    (room : (P.locals t).items.length < cfg.nrLocalAas) (out : id ∈ S.out)
    (kept : ∀ u, u ≠ t → (S.calls u).returns ≠ some id) :
    Tracked cfg T (S.linkAa t id).1 (push t id P) Q cell := by
  have lt := tracked.pool.bound id out
  have fresh : ¬ P.Holds id := fun held => (tracked.pool.free id lt).mp held out
  have rep := tracked.pool.rep.push (t := t) (by omega) room fresh lt
  obtain ⟨_, holds⟩ := push_spec tracked.pool.rep.ledger.full room fresh
  refine tracked.of_call (c := .idle) ht ⟨?_, fun a ha => ?_, fun a ha => ?_⟩ rfl trivial
    (fun u ne _ => ⟨setLocal_other _ _ ne, rfl⟩) (fun u a ne returns mem => ?_)
    (fun _ eq => by cases eq)
  · have pool : ((S.linkAa t id).1.exchange T).pool = pushAa t id (S.exchange T).pool :=
      (withOpened_same (c := .idle) quiet.symm).trans (withOpened_pushAa ht id)
    rw [pool]
    exact rep
  · rw [holds, tracked.pool.free a ha, show ((S.linkAa t id).1.exchange T).out = S.out.erase id
      from rfl, Finset.mem_erase, not_and, ne_eq]
    by_cases eq : a = id
    · simp [eq]
    · simp [eq, exchange]
  · exact tracked.pool.bound a (Finset.mem_of_mem_erase ha)
  · refine Finset.mem_erase.mpr ⟨?_, mem⟩
    rintro rfl
    exact kept u ne returns

theorem linkAa_setCall (t : Nat) (c : AddressCall) (S : AddressCalls) :
    (S.setCall t c).linkAa t id = S.linkAa t id := by
  simp only [linkAa, setCall, update_idem]

/-- `put_free_aa` fills an empty bucket, unless neither the thread nor the global stack has
one. -/
theorem fills (tracked : Tracked cfg T S P Q cell) (ht : t < T) (quiet : (S.calls t).opens = none)
    (filled : (P.locals t).items.length = cfg.nrLocalAas) (out : id ∈ S.out)
    (kept : ∀ u, u ≠ t → (S.calls u).returns ≠ some id) :
    (S.fillBucket cfg t id = .error .emptyBucket ∧ (Q.locals t).items = [] ∧ Q.shared = []) ∨
    ∃ S' e P' Q' cell', S.fillBucket cfg t id = .ok (S', e) ∧ Tracked cfg T S' P' Q' cell' ∧
      Answered cfg S e := by
  have rep := tracked.pool.rep
  have same : takeFreeAbucket cfg t (withOpened T S.calls S.pool) = _ :=
    withOpened_takeFreeAbucket cfg ht
  rcases rep.fill (t := t) (by omega) filled with ⟨run, none⟩ | ⟨m, Q', σ', run, got, closed, _⟩
  · refine .inl ⟨?_, none⟩
    cases taken : takeFreeAbucket cfg t S.pool with
    | error fault =>
        rw [exchange, same, taken] at run
        cases run
        rw [fillBucket, taken]
        rfl
    | ok r =>
        rw [exchange, same, taken] at run
        cases run
  refine .inr ?_
  cases taken : takeFreeAbucket cfg t S.pool with
  | error fault =>
      rw [exchange, same, taken] at run
      cases run
  | ok r =>
      obtain ⟨maa, σ⟩ := r
      rw [exchange, same, taken] at run
      cases run
      rw [← withOpened_closeAas ht] at closed
      have pool : ∀ c : AddressCall, c.opens = none →
          (((S.setPool (closeAas t maa σ)).setCall t c).exchange T).Tracked cfg (T + T)
            (closeBucket t P) Q' (update cell (P.locals t).items maa) := by
        intro c none
        refine ⟨?_, fun a lt => ?_, tracked.pool.bound⟩
        · rw [← withOpened_same (c := c) (none.trans quiet.symm)] at closed
          exact closed
        · exact (holds_closeBucket t P a).trans (tracked.pool.free a lt)
      have others : ∀ u, u ≠ t → u < T → (closeBucket t P).locals u = P.locals u ∧
          Q'.locals u = Q.locals u :=
        fun u ne _ => ⟨setLocal_other _ _ ne, get_other got ne⟩
      have none : ((closeBucket t P).locals t).items = [] :=
        congrArg Local.items (setLocal_same ..)
      rw [fillBucket, taken, ok_bind]
      by_cases many : cfg.nrLocalAbuckets ≤ ((closeAas t maa σ).threads t).abucketsCount
      · simp only [many, if_true]
        have some : ((closeBucket t P).locals t).buckets ≠ [] := by simp [closeBucket]
        refine ⟨_, _, _, _, _, rfl, tracked.of_call (c := .sharing id) ht (pool _ rfl) rfl
          ⟨none, some, out⟩ others (fun _ _ _ _ mem => mem) (fun a eq => ?_), .nothing⟩
        cases eq
        exact kept
      · simp only [many, if_false]
        have resting : Tracked cfg T ((S.setPool (closeAas t maa σ)).setCall t .idle) _ _ _ :=
          tracked.of_call (c := .idle) ht (pool _ rfl) rfl trivial others (fun _ _ _ _ mem => mem)
            (fun _ eq => by cases eq)
        have linked := resting.links ht (congrArg _ (update_self ..))
          (by rw [none]; exact cfg.nrLocalAas_pos) out fun u ne => ?_
        · rw [linkAa_setCall] at linked
          exact ⟨_, _, _, _, _, rfl, linked, .added out⟩
        · rw [show ((S.setPool (closeAas t maa σ)).setCall t .idle).calls u = S.calls u from
            update_of_ne ne _ _]
          exact kept u ne

/-- The full buckets of the thread go to the global stack, and `put_free_aa` ends. -/
theorem shares (tracked : Tracked cfg T S P Q cell) (ht : t < T)
    (sharing : S.calls t = .sharing id) :
    ∃ P', Tracked cfg T ((S.setPool (shareAas t S.pool)).linkAa t id).1 P' Q cell := by
  have call := tracked.call t
  rw [sharing] at call
  obtain ⟨none, some, out⟩ := call
  have rep := tracked.pool.rep.share (t := t) (by omega) some
  have resting : Tracked cfg T ((S.setPool (shareAas t S.pool)).setCall t .idle) (share t P) Q
      cell := by
    refine tracked.of_call (c := .idle) ht ⟨?_, fun a lt => ?_, tracked.pool.bound⟩ rfl trivial
      (fun u ne _ => ⟨setLocal_other _ _ ne, rfl⟩) (fun _ _ _ _ mem => mem)
      (fun _ eq => by cases eq)
    · have quiet : AddressCall.idle.opens = (S.calls t).opens := by
        rw [sharing]
        rfl
      have pool : (((S.setPool (shareAas t S.pool)).setCall t .idle).exchange T).pool =
          shareAas t (S.exchange T).pool := (withOpened_same quiet).trans (withOpened_shareAas ht)
      rw [pool]
      exact rep
    · exact (holds_share t P a).trans (tracked.pool.free a lt)
  have linked := resting.links ht (congrArg _ (update_self ..)) ?_ out
    fun u ne returns => ?_
  · rw [linkAa_setCall] at linked
    exact ⟨_, linked⟩
  · have items : ((share t P).locals t).items = (P.locals t).items := by simp [share]
    rw [items, none]
    exact cfg.nrLocalAas_pos
  · rw [show ((S.setPool (shareAas t S.pool)).setCall t .idle).calls u = S.calls u from
      update_of_ne ne _ _] at returns
    exact ne (tracked.single u t id returns (by rw [sharing]; rfl))

theorem counts (tracked : Tracked cfg T S P Q cell) (ht : t < T) :
    (S.pool.threads t).aasCount = (P.locals t).items.length ∧
    (S.pool.threads t).abucketsCount = (P.locals t).buckets.length ∧
    (S.pool.threads t).freeAbucketsCount = (Q.locals t).items.length := by
  have full := tracked.pool.rep.full.locals t
  have empty := tracked.pool.rep.empty.locals t
  simp only [exchange, withOpened_thread ht] at full empty
  exact ⟨full.aasCount, full.abucketsCount, empty.count⟩

/-- A thread comes to its next operation on a global stack and has changed nothing. -/
theorem waits (tracked : Tracked cfg T S P Q cell) (ht : t < T) (quiet : (S.calls t).opens = none)
    {c : AddressCall} (opens : c.opens = none) (call : CallOk cfg S.out P Q t c)
    (fresh : ∀ id, c.returns = some id → ∀ u, u ≠ t → (S.calls u).returns ≠ some id) :
    Tracked cfg T (S.setCall t c) P Q cell := by
  have same : (S.setCall t c).exchange T = S.exchange T :=
    congrArg (fun σ => Exchange.mk σ S.out) (withOpened_same (opens.trans quiet.symm))
  refine tracked.of_call ht ?_ rfl call (fun _ _ _ => ⟨rfl, rfl⟩) (fun _ _ _ _ mem => mem) fresh
  rw [same]
  exact tracked.pool

theorem gets (tracked : Tracked cfg T S P Q cell) (ht : t < T) (idle : S.calls t = .idle) :
    ∃ P' Q', Tracked cfg T (S.getFreeAa cfg t).1 P' Q' cell ∧
      Answered cfg S (S.getFreeAa cfg t).2 := by
  obtain ⟨aas, abuckets, _⟩ := tracked.counts ht
  have quiet : (S.calls t).opens = none := by
    rw [idle]
    rfl
  cases hi : (P.locals t).items with
  | cons id items =>
      have some : (S.pool.threads t).aasCount ≠ 0 := by simp [aas, hi]
      obtain ⟨event, held, taken⟩ := tracked.take ht quiet hi
      rw [getFreeAa, if_neg some, event]
      exact ⟨_, _, taken, tracked.answered held⟩
  | nil =>
      have zero : (S.pool.threads t).aasCount = 0 := by simp [aas, hi]
      rw [getFreeAa, if_pos zero]
      cases hb : (P.locals t).buckets with
      | nil =>
          have none : (S.pool.threads t).abucketsCount = 0 := by simp [abuckets, hb]
          rw [if_pos none]
          exact ⟨P, Q, tracked.waits ht quiet rfl ⟨hi, hb⟩ (fun _ eq => by cases eq), .nothing⟩
      | cons b buckets =>
          have some : (S.pool.threads t).abucketsCount ≠ 0 := by simp [abuckets, hb]
          have hr : refill t P = .some (P.setLocal t { items := b, buckets := buckets }) := by
            simp only [refill, hi, hb]
          have rep := tracked.pool.rep
          have len := rep.ledger.full.bucket_length t b (by rw [hb]; exact List.mem_cons_self)
          obtain ⟨first, full⟩ := rep.full.openLocal hb len
          simp only [exchange, withOpened_thread ht] at first full
          rw [if_neg some, first]
          refine tracked.opens ht quiet hi hr (by rw [setLocal_same]) ?_ ?_
          · rw [withOpened_installAas cfg ht, withOpened_modifyThread ht]
            exact full
          · rw [withOpened_installAas cfg ht, withOpened_modifyThread ht]
            exact rep.empty.congr cfg.nrLocalFreeAbuckets_pos rep.ledger.empty (fun _ _ => rfl) rfl
              (forall_clients t (by simp [installAas, exchange])
                fun s ne => by simp [installAas, exchange, ne])

/-- `aa_get` finds a full bucket, or the global stack is empty. -/
theorem fetches (tracked : Tracked cfg T S P Q cell) (ht : t < T) (getting : S.calls t = .getting) :
    ∃ S' e P' Q', S.access cfg t = .ok (S', e) ∧ Tracked cfg T S' P' Q' cell ∧
      Answered cfg S e := by
  have call := tracked.call t
  rw [getting] at call
  obtain ⟨hi, hb⟩ := call
  obtain ⟨aas, abuckets, _⟩ := tracked.counts ht
  have quiet : (S.calls t).opens = none := by
    rw [getting]
    rfl
  have rep := tracked.pool.rep
  have shared := rep.full.shared
  simp only [access, getting]
  cases hs : P.shared with
  | nil =>
      rw [hs] at shared
      have head : S.pool.freeAaHead = 0 := shared
      simp only [aaGet, head, if_true]
      exact ⟨_, _, P, Q, rfl, tracked.waits ht quiet rfl trivial (fun _ eq => by cases eq),
        .null (by simp [aas, hi]) (by simp [abuckets, hb]) head⟩
  | cons b rest =>
      have hr : refill t P = some
          { P.setLocal t { items := b, buckets := [] } with shared := rest } := by
        simp only [refill, hi, hb, hs]
      have len := rep.ledger.full.shared_length b (by rw [hs]; exact List.mem_cons_self)
      obtain ⟨first, full⟩ := rep.full.openShared hb hs len
      have head : S.pool.freeAaHead = cell b := first
      have pos : cell b ≠ 0 :=
        Nat.ne_of_gt (rep.ledger.cell_range b (.inr (by rw [hs]; exact List.mem_cons_self))).1
      simp only [aaGet, head, pos, if_false]
      obtain ⟨P', Q', opened, answered⟩ := tracked.opens
        (σ := { S.pool with freeAaHead := (S.pool.aaBuckets (cell b)).next }) ht quiet hi hr
        (by rw [setLocal_same]) (by rw [withOpened_installAas cfg ht]; exact full) (by
          rw [withOpened_installAas cfg ht]
          exact rep.empty.congr cfg.nrLocalFreeAbuckets_pos rep.ledger.empty (fun _ _ => rfl) rfl
            (forall_clients t (by simp [installAas, exchange, withOpened])
              fun s ne => by simp [installAas, exchange, withOpened, ne]))
      exact ⟨_, _, P', Q', rfl, opened, answered⟩

theorem puts (tracked : Tracked cfg T S P Q cell) (ht : t < T) (idle : S.calls t = .idle)
    (owned : S.Owned T id) :
    ∃ S' e P' Q' cell', S.putFreeAa cfg t id = .ok (S', e) ∧ Tracked cfg T S' P' Q' cell' ∧
      Answered cfg S e := by
  obtain ⟨aas, _, free⟩ := tracked.counts ht
  have quiet : (S.calls t).opens = none := by
    rw [idle]
    rfl
  have kept : ∀ u, u ≠ t → (S.calls u).returns ≠ some id := by
    intro u _
    by_cases hu : u < T
    · exact owned.2 u hu
    · rw [tracked.idle u (Nat.le_of_not_lt hu)]
      exact fun eq => by cases eq
  have le := tracked.pool.rep.ledger.full.items_le t
  by_cases filled : (P.locals t).items.length = cfg.nrLocalAas
  · rw [putFreeAa, if_pos (aas.trans filled)]
    by_cases none : (Q.locals t).items = []
    · have zero : (S.pool.threads t).freeAbucketsCount = 0 := by simp [free, none]
      rw [if_pos zero]
      refine ⟨_, _, P, Q, cell, rfl, tracked.waits ht quiet rfl ⟨filled, none, owned.1⟩
        (fun a eq => ?_), .nothing⟩
      cases eq
      exact kept
    · have some : (S.pool.threads t).freeAbucketsCount ≠ 0 := by simpa [free] using none
      rw [if_neg some]
      rcases tracked.fills ht quiet filled owned.1 kept with ⟨_, nil, _⟩ | done
      · exact absurd nil none
      · exact done
  · have room : (S.pool.threads t).aasCount ≠ cfg.nrLocalAas := by rwa [aas]
    rw [putFreeAa, if_neg room]
    exact ⟨_, _, _, _, _, rfl, tracked.links ht quiet (by omega) owned.1 kept, .added owned.1⟩

/-- An enabled step follows its call, unless the assertion of `put_free_aa` fails. -/
theorem step (tracked : Tracked cfg T S P Q cell) {a : AddressAction} (enabled : S.Enabled T a) :
    (∃ t id, a = .access t ∧ S.calls t = .fetching id ∧ S.perform cfg a = .error .emptyBucket ∧
      Q.shared = []) ∨
    ∃ S' e P' Q' cell', S.perform cfg a = .ok (S', e) ∧ Tracked cfg T S' P' Q' cell' ∧
      Answered cfg S e := by
  cases a with
  | get t =>
      obtain ⟨P', Q', got, answered⟩ := tracked.gets enabled.1 enabled.2
      exact .inr ⟨_, _, P', Q', cell, rfl, got, answered⟩
  | put t id => exact .inr (tracked.puts enabled.1 enabled.2.1 enabled.2.2)
  | write id w =>
      have lt := tracked.pool.bound id enabled.1
      have rep := tracked.pool.rep.setWord
        (fun held => (tracked.pool.free id lt).mp held enabled.1) w
      exact .inr ⟨_, _, P, Q, cell, rfl, ⟨⟨rep, tracked.pool.free, tracked.pool.bound⟩,
        tracked.call, tracked.single, tracked.idle⟩, .nothing⟩
  | access t =>
      have ht := tracked.thread_lt enabled
      have call := tracked.call t
      simp only [perform]
      cases running : S.calls t with
      | idle => exact absurd running enabled
      | getting =>
          obtain ⟨S', e, P', Q', run, got, answered⟩ := tracked.fetches ht running
          exact .inr ⟨S', e, P', Q', cell, run, got, answered⟩
      | keeping maa =>
          obtain ⟨P', Q', kept, answered⟩ := tracked.keeps ht running
          exact .inr ⟨_, _, P', Q', cell, by simp only [access, running], kept, answered⟩
      | fetching id =>
          rw [running] at call
          have run : S.access cfg t = S.fillBucket cfg t id := by simp only [access, running]
          have single : ∀ u, u ≠ t → (S.calls u).returns ≠ some id :=
            fun u ne returns => ne (tracked.single u t id returns (by rw [running]; rfl))
          rw [run]
          rcases tracked.fills ht (by rw [running]; rfl) call.1 call.2.2 single with
            ⟨fault, _, shared⟩ | done
          · exact .inl ⟨t, id, rfl, running, fault, shared⟩
          · exact .inr done
      | sharing id =>
          rw [running] at call
          obtain ⟨P', shared⟩ := tracked.shares ht running
          exact .inr ⟨_, _, P', Q, cell, by simp only [access, running]; rfl, shared,
            .added call.2.2⟩

end Tracked
end AddressCalls
end CompactFit
