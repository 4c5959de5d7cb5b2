import CompactFit.LockFreePagesInvariant

/-!
The work of a thread between two accesses to the global stack, on the lists that the pool
says it has.
-/

namespace CompactFit
open Function NbStack LinkedChain BucketPool LifoStack

namespace LockFreePages
variable {cfg : Config} {T t : Nat} {S : LockFreePages} {P : Pool Nat Elem} {x p : Elem}
  {items : List Elem}

theorem ThreadOk.of_idle {l : Local Elem} (quiet : S.calls t = .idle)
    (held : ∀ x, x ∈ S.stack.held (some t) ↔ x ∈ l.buckets.map bucketElem)
    (lists : Lists S.localPages (S.threads t) l) (place : S.stack.locals (some t) = .idle)
    (chain : ∃ e, Chain S.stack.memory.next (S.threads t).pbuckets
      (l.buckets.map bucketElem) e) : ThreadOk cfg S t l := by
  refine ⟨?_, ?_, ?_⟩ <;> rw [quiet]
  exacts [held, lists, ⟨place, chain⟩]

/-- A page of the pool is handed out. -/
theorem Places.hand {S' : LockFreePages} {P' : Pool Nat Elem} (places : Places cfg S P)
    (held : P.Holds x) (holds : ∀ y, P'.Holds y ↔ P.Holds y ∧ y ≠ x)
    (out : S'.out = insert x S.out) (flags : S'.listFlags = update S.listFlags x .none) :
    Places cfg S' P' where
  mem_iff y := by
    rw [places.mem_iff, holds, out, Finset.mem_insert]
    by_cases same : y = x
    · simp [same, held]
    · simp [same]
  apart y mem := by
    obtain ⟨mem, ne⟩ := (holds y).mp mem
    rw [out, Finset.mem_insert, not_or]
    exact ⟨ne, places.apart y mem⟩
  free y mem := by
    obtain ⟨mem, ne⟩ := (holds y).mp mem
    rw [flags, update_of_ne ne]
    exact places.free y mem
  out y mem := by
    rw [out] at mem
    rw [flags]
    by_cases same : y = x
    · rw [same, update_self]
    · rw [update_of_ne same]
      exact places.out y (Finset.mem_of_mem_insert_of_ne mem same)

/-- A page that is handed out comes back. -/
theorem Places.back {S' : LockFreePages} {P' : Pool Nat Elem} (places : Places cfg S P)
    (held : p ∈ S.out) (holds : ∀ y, P'.Holds y ↔ P.Holds y ∨ y = p)
    (out : S'.out = S.out.erase p) (flags : S'.listFlags = update S.listFlags p .free) :
    Places cfg S' P' where
  mem_iff y := by
    rw [places.mem_iff, holds, out, Finset.mem_erase]
    by_cases same : y = p
    · simp [same, held]
    · simp [same]
  apart y mem := by
    rw [out, Finset.mem_erase]
    rintro ⟨ne, mem'⟩
    exact ((holds y).mp mem).elim (fun old => places.apart y old mem') ne
  free y mem := by
    rw [flags]
    by_cases same : y = p
    · rw [same, update_self]
    · rw [update_of_ne same]
      exact places.free y (((holds y).mp mem).resolve_right same)
  out y mem := by
    rw [out] at mem
    obtain ⟨ne, mem⟩ := Finset.mem_erase.mp mem
    rw [flags, update_of_ne ne]
    exact places.out y mem

namespace Tracked

/-- The lists of a thread that makes no call. -/
theorem lists_idle (tracked : Tracked cfg T S P) (quiet : S.calls t = .idle) :
    Lists S.localPages (S.threads t) (P.locals t) := by
  have lists := (tracked.threads t).lists
  rwa [quiet] at lists

theorem held_idle (tracked : Tracked cfg T S P) (quiet : S.calls t = .idle) (x : Elem) :
    x ∈ S.stack.held (some t) ↔ x ∈ (P.locals t).buckets.map bucketElem := by
  have held := (tracked.threads t).held x
  rwa [quiet] at held

theorem call_idle (tracked : Tracked cfg T S P) (quiet : S.calls t = .idle) :
    S.stack.locals (some t) = .idle ∧
      ∃ e, Chain S.stack.memory.next (S.threads t).pbuckets
        ((P.locals t).buckets.map bucketElem) e := by
  have call := (tracked.threads t).call
  rwa [quiet] at call

/-- `get_free_page` hands out the first page of the thread. -/
theorem take (tracked : Tracked cfg T S P) (quiet : S.calls t = .idle)
    (hi : (P.locals t).items = x :: items) :
    ∃ S', S.takePage t = .ok (S', some (.got t (some x))) ∧
      Tracked cfg T S' (P.setLocal t { P.locals t with items := items }) := by
  have lists := tracked.lists_idle quiet
  obtain ⟨place, e, chain⟩ := tracked.call_idle quiet
  have pages := lists.pages
  rw [hi] at pages
  obtain ⟨first, rest⟩ := pages
  obtain ⟨wf, held, holds⟩ := get_spec tracked.wellFormed (get_of_items hi)
  have count := lists.pagesCount
  rw [hi, List.length_cons] at count
  refine ⟨{ S.modifyThread t fun d =>
      { d with pages := S.localPages x, pagesCount := d.pagesCount - 1 } with
    listFlags := update S.listFlags x .none, out := insert x S.out }, ?_, ?_⟩
  · simp only [takePage, first, if_pos (tracked.usable held)]
    rw [show (S.modifyThread t _).listFlags x = ListFlag.free from tracked.places.free x held]
    rfl
  · refine ⟨tracked.stack, tracked.owner, wf, fun u => ?_, tracked.shared,
      tracked.places.hand held holds rfl rfl, tracked.single, tracked.idle⟩
    by_cases same : u = t
    · subst same
      rw [setLocal_same]
      refine .of_idle quiet (tracked.held_idle quiet) ⟨?_, ?_, ?_, ?_, lists.bucket⟩ place ⟨e, ?_⟩
        <;> simp only [modifyThread, update_self]
      · omega
      · exact rest
      · exact lists.pbucketsCount
      · exact lists.lastPbucket
      · exact chain
    · rw [setLocal_other _ _ same]
      exact (tracked.threads u).still ⟨rfl, update_of_ne same _ _, rfl, rfl, rfl, fun _ _ => rfl,
        fun p _ mem => Finset.mem_insert_of_mem mem⟩ fun _ _ => rfl

/-- The first bucket of the thread becomes its pages. -/
theorem opens (tracked : Tracked cfg T S P) (quiet : S.calls t = .idle)
    (hi : (P.locals t).items = []) {b : List Elem} {bs : List (List Elem)}
    (hb : (P.locals t).buckets = b :: bs) :
    Tracked cfg T (S.openPbucket cfg t) (P.setLocal t { items := b, buckets := bs }) := by
  have lists := tracked.lists_idle quiet
  have held := tracked.held_idle quiet
  obtain ⟨place, e, chain⟩ := tracked.call_idle quiet
  have opened : refill t P = some (P.setLocal t { items := b, buckets := bs }) := by
    simp only [refill, hi, hb]
  obtain ⟨wf, holds⟩ := refill_spec tracked.wellFormed opened
  rw [hb] at chain held
  obtain ⟨first, rest⟩ := chain
  have mine : bucketElem b ∈ S.stack.held (some t) := (held _).mpr List.mem_cons_self
  have apart : bucketElem b ∉ bs.map bucketElem := by
    have nodup := (List.nodup_append.mp (tracked.wellFormed.nodup_local t)).2.1
    have distinct := bucketElems_nodup (tracked.wellFormed.bucket_length t) nodup
    rw [hb] at distinct
    exact (List.nodup_cons.mp distinct).1
  have passed : (S.openPbucket cfg t).stack.held =
      acquire (release S.stack.held (some t) [bucketElem b]) none (bucketElem b) := by
    rw [← first]
    rfl
  refine ⟨?_, tracked.owner, wf, fun u => ?_, tracked.shared, tracked.places.congr holds rfl rfl,
    tracked.single, tracked.idle⟩
  · have ok := tracked.stack.pass place mine none
    rw [← first] at ok
    exact ok
  · by_cases same : u = t
    · subst same
      rw [setLocal_same]
      refine .of_idle quiet (fun x => ?_) ⟨?_, ?_, ?_, ?_, ?_⟩ place ⟨e, ?_⟩
      · rw [passed, mem_acquire, mem_release, held, List.map_cons]
        constructor
        · rintro (⟨mem, left⟩ | ⟨eq, _⟩)
          · exact (List.mem_cons.mp mem).resolve_left fun eq => left rfl (List.mem_singleton.mpr eq)
          · cases eq
        · intro mem
          refine .inl ⟨List.mem_cons_of_mem _ mem, fun _ here => ?_⟩
          exact apart (List.mem_singleton.mp here ▸ mem)
      all_goals simp only [openPbucket, act, modifyThread, update_self, System.perform]
      · exact (tracked.wellFormed.bucket_length u b (by simp [hb])).symm
      · exact first ▸ lists.bucket b (by simp [hb])
      · rw [lists.pbucketsCount, hb, List.length_cons, Nat.add_sub_cancel]
      · exact fun bs' c split => lists.lastPbucket (b :: bs') c (by rw [hb, split]; rfl)
      · exact fun c mem => lists.bucket c (by simp [hb, mem])
      · exact first ▸ rest
    · rw [setLocal_other _ _ same]
      have other : some u ≠ some t := fun eq => same (Option.some.inj eq)
      exact (tracked.threads u).still ⟨rfl, update_of_ne same _ _, rfl, rfl,
        pass_of_ne (l := pageLayout) other (Option.some_ne_none u), fun _ _ => rfl,
        fun p _ mem => mem⟩ fun _ _ => rfl

/-- `add_free_page` puts the page in front of the others of the thread. -/
theorem store (tracked : Tracked cfg T S P) (quiet : S.calls t = .idle)
    (room : (P.locals t).items.length < cfg.nrLocalPages) (out : p ∈ S.out)
    (kept : ∀ u, S.calls u ≠ .adding p) : Tracked cfg T (S.storePage t p).1 (push t p P) := by
  have lists := tracked.lists_idle quiet
  obtain ⟨place, e, chain⟩ := tracked.call_idle quiet
  have away : ¬ P.Holds p := fun held => tracked.places.apart p held out
  obtain ⟨wf, holds⟩ := push_spec tracked.wellFormed room away
  have links : ∀ x, P.Holds x → update S.localPages p (S.threads t).pages x = S.localPages x := by
    intro x held
    refine update_of_ne ?_ _ _
    rintro rfl
    exact away held
  refine ⟨tracked.stack, tracked.owner, wf, fun u => ?_, fun b mem => ?_,
    tracked.places.back out holds rfl rfl, tracked.single, tracked.idle⟩
  · by_cases same : u = t
    · subst same
      rw [push, setLocal_same]
      refine .of_idle quiet (tracked.held_idle quiet) ⟨?_, ?_, ?_, ?_, ?_⟩ place ⟨e, ?_⟩
        <;> simp only [storePage, modifyThread, update_self]
      · rw [lists.pagesCount, List.length_cons]
      · rw [chain_cons, update_self]
        exact ⟨rfl, chain_congr (fun x mem => links x (.inl ⟨u, List.mem_append_left _ mem⟩))
          lists.pages⟩
      · exact lists.pbucketsCount
      · exact lists.lastPbucket
      · exact fun b mem => chain_congr (fun x here => links x (isBucket_holds (.inl ⟨u, mem⟩) here))
          (lists.bucket b mem)
      · exact chain
    · rw [push, setLocal_other _ _ same]
      refine (tracked.threads u).still ⟨rfl, update_of_ne same _ _, rfl, rfl, rfl, fun _ _ => rfl,
        fun q adding mem => Finset.mem_erase.mpr ⟨?_, mem⟩⟩ fun x mem => links x (.inl ⟨u, mem⟩)
      rintro rfl
      exact kept u adding
  · have shared : P.IsBucket b := .inr mem
    exact chain_congr (fun x here => links x (isBucket_holds shared here)) (tracked.shared b mem)

/-- The pages of the thread become its first bucket. -/
theorem close (tracked : Tracked cfg T S P) (quiet : S.calls t = .idle)
    (full : (P.locals t).items.length = cfg.nrLocalPages) :
    Tracked cfg T (S.closePages t) (closeBucket t P) := by
  have lists := tracked.lists_idle quiet
  have held := tracked.held_idle quiet
  obtain ⟨place, e, chain⟩ := tracked.call_idle quiet
  obtain ⟨x, items, hi⟩ : ∃ x items, (P.locals t).items = x :: items := by
    refine List.exists_cons_of_ne_nil fun nil => ?_
    rw [nil] at full
    exact absurd full (Nat.ne_of_lt cfg.nrLocalPages_pos)
  have pages := lists.pages
  rw [hi] at pages
  obtain ⟨first, below⟩ := pages
  have inItems : x ∈ (P.locals t).items := hi ▸ List.mem_cons_self
  have mine : x ∈ S.stack.held none :=
    tracked.item_held (fun p adding => by rw [quiet] at adding; cases adding) inItems
  have unheld : ∀ u, x ∉ S.stack.held (some u) :=
    fun u => tracked.stack.not_held mine (Option.some_ne_none u)
  have next : ∀ y, y ≠ x → (S.closePages t).stack.memory.next y = S.stack.memory.next y := by
    intro y ne
    exact update_of_ne (first ▸ ne) _ _
  have passed : (S.closePages t).stack.held =
      acquire (release S.stack.held none [x]) (some t) x := by
    rw [← first]
    rfl
  refine ⟨?_, tracked.owner, wellFormed_closeBucket tracked.wellFormed full, fun u => ?_,
    tracked.shared, tracked.places.congr (holds_closeBucket t P) rfl rfl, tracked.single,
    tracked.idle⟩
  · have ok := (tracked.stack.write (v := (S.threads t).pbuckets) tracked.owner mine).pass
      tracked.owner mine (some t)
    rw [← first] at ok
    exact ok
  · by_cases same : u = t
    · subst same
      rw [closeBucket, setLocal_same]
      refine .of_idle quiet (fun y => ?_) ⟨?_, ?_, ?_, ?_, ?_⟩ place ⟨e, ?_⟩
      · rw [passed, mem_acquire, mem_release, held, hi]
        constructor
        · rintro (⟨mem, _⟩ | ⟨_, eq⟩)
          · exact List.mem_cons_of_mem _ mem
          · exact eq ▸ List.mem_cons_self
        · intro mem
          rcases List.mem_cons.mp mem with eq | mem
          · exact .inr ⟨rfl, eq⟩
          · exact .inl ⟨mem, fun eq => absurd eq (Option.some_ne_none u)⟩
      all_goals simp only [closePages, modifyThread, update_self]
      · rfl
      · rfl
      · exact congrArg (· + 1) lists.pbucketsCount
      · intro bs b split
        have count := lists.pbucketsCount
        rcases List.cons_eq_append_iff.mp split with ⟨_, eq⟩ | ⟨bs', _, eq⟩
        · obtain ⟨rfl, none⟩ := List.cons.inj eq
          rw [← none, List.length_nil] at count
          refine (if_pos (congrArg (· + 1) count)).trans (first.trans ?_)
          rw [hi]
          rfl
        · rw [eq, List.length_append, List.length_singleton] at count
          refine (if_neg fun one => ?_).trans (lists.lastPbucket bs' b eq)
          exact Nat.succ_ne_zero _ (count.symm.trans (Nat.add_right_cancel one))
      · intro b mem
        rcases List.mem_cons.mp mem with rfl | mem
        · rw [hi]
          exact ⟨rfl, below⟩
        · exact lists.bucket b mem
      · have link : (S.closePages u).stack.memory.next x = (S.threads u).pbuckets :=
          first ▸ update_self ..
        have below : Chain (S.closePages u).stack.memory.next
            ((S.closePages u).stack.memory.next x) ((P.locals u).buckets.map bucketElem) e := by
          rw [link]
          refine chain_congr (fun y mem => next y ?_) chain
          rintro rfl
          exact unheld u ((held y).mpr mem)
        rw [hi]
        exact ⟨first, below⟩
    · rw [closeBucket, setLocal_other _ _ same]
      have other : some u ≠ some t := fun eq => same (Option.some.inj eq)
      refine (tracked.threads u).still ⟨rfl, update_of_ne same _ _, rfl, rfl,
        pass_of_ne (l := pageLayout) (Option.some_ne_none u) other, fun y mem => next y ?_,
        fun p _ mem => mem⟩
        fun _ _ => rfl
      rintro rfl
      exact unheld u mem

/-- A thread with too many buckets calls `page_put`, with its pages as one of them. -/
theorem starts (tracked : Tracked cfg T S (closeBucket t P)) (quiet : S.calls t = .idle)
    (ht : t < T) (wf : WellFormed cfg.nrLocalPages P)
    (full : (P.locals t).items.length = cfg.nrLocalPages)
    (enough : cfg.nrLocalPbuckets ≤ (P.locals t).buckets.length + 1) (out : p ∈ S.out)
    (kept : ∀ u, S.calls u ≠ .adding p) : Tracked cfg T (S.putPbuckets t p) P := by
  have lists := tracked.lists_idle quiet
  have held := tracked.held_idle quiet
  obtain ⟨place, e, chain⟩ := tracked.call_idle quiet
  have lengths := tracked.wellFormed.bucket_length t
  have nodup := (List.nodup_append.mp (tracked.wellFormed.nodup_local t)).2.1
  rw [closeBucket, setLocal_same] at lists held chain lengths nodup
  have visited := follow_chain chain
  rw [List.length_map, ← lists.pbucketsCount] at visited
  have ends : ((closed (P.locals t)).buckets.map bucketElem).getLast? =
      some (S.threads t).lastPbucket := by
    obtain ⟨bs, b, split⟩ : ∃ bs b, (closed (P.locals t)).buckets = bs ++ [b] :=
      ⟨_, _, (List.dropLast_append_getLast (List.cons_ne_nil _ _)).symm⟩
    rw [lists.lastPbucket bs b split, split, List.map_append]
    exact List.getLast?_concat
  have allowed : S.stack.Allowed pageLayout (.callPut (some t) (S.threads t).pbuckets
      (S.threads t).lastPbucket (follow S.stack.memory.next (S.threads t).pbucketsCount
        (S.threads t).pbuckets)) := by
    rw [visited]
    refine ⟨place, bucketElems_nodup lengths nodup, fun x mem => ?_, ?_, ends⟩
    · exact (held x).mpr (List.mem_toFinset.mp mem)
    · rw [List.length_map, ← lists.pbucketsCount]
      exact visited
  have mine : (S.putPbuckets t p).calls t = .adding p := update_self ..
  have chained : (S.putPbuckets t p).stack.chain (some t) =
      (closed (P.locals t)).buckets.map bucketElem := (update_self ..).trans visited
  refine ⟨tracked.stack.callPut allowed, ?_, wf, fun u => ?_, tracked.shared,
    tracked.places.congr (fun y => (holds_closeBucket t P y).symm) rfl rfl,
    tracked.single.update fun q eq => PoolCall.adding.inj eq ▸ kept, fun u ge => ?_⟩
  · exact (callPut_of_ne (Option.some_ne_none t).symm).1.trans tracked.owner
  · by_cases same : u = t
    · subst same
      refine ⟨?_, ?_, ?_⟩ <;> rw [mine]
      · exact held
      · exact lists
      · exact ⟨tracked.stack.inPut allowed, chained, full, enough, out⟩
    · have other : some u ≠ some t := fun eq => same (Option.some.inj eq)
      have ok := tracked.threads u
      rw [closeBucket, setLocal_other _ _ same] at ok
      exact ok.still ⟨update_of_ne same _ _, rfl, (callPut_of_ne other).1, (callPut_of_ne other).2,
        rfl, fun _ _ => rfl, fun _ _ mem => mem⟩ fun _ _ => rfl
  · exact (update_of_ne (by omega) _ _).trans (tracked.idle u ge)

end Tracked
end LockFreePages
end CompactFit
