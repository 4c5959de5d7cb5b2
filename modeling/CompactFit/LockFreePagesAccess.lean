import CompactFit.LockFreePagesSteps

/-!
A call takes effect at its last access to the global stack, where the bucketed pool serves
it; the accesses before change nothing that another thread sees.
-/

namespace CompactFit
open Function NbStack LinkedChain BucketPool LifoStack

/-- A completed call as the bucketed pool serves it; `out` are the pages it has handed out. -/
inductive Serves {α : Type} (cfg : Config) (T : Nat) (out : Finset α) (P : Pool Nat α) :
    Option (PoolEvent α) → Pool Nat α → Prop where
  | nothing : Serves cfg T out P none P
  | got {t : Nat} {x : α} {P' : Pool Nat α} : t < T → get t P = some (x, P') →
      Serves cfg T out P (some (.got t (some x))) P'
  | null {t : Nat} : t < T → get t P = none → Serves cfg T out P (some (.got t none)) P
  | added {t : Nat} {p : α} : t < T → p ∈ out → Serves cfg T out P (some (.added t p))
      (put cfg.nrLocalPages cfg.nrLocalPbuckets t p P)

namespace LockFreePages
variable {cfg : Config} {T t u : Nat} {S S' : LockFreePages} {P : Pool Nat Elem} {x p : Elem}

namespace Tracked

/-- An access of `t`, as the other threads see it. -/
theorem beside (tracked : Tracked cfg T S P) (beside : Beside S.stack S'.stack (some t))
    (ne : u ≠ t) (call : S'.calls u = S.calls u) (data : S'.threads u = S.threads u)
    (held : S'.stack.held (some u) = S.stack.held (some u)) (out : S'.out = S.out) :
    Still S S' u where
  call := call
  data := data
  place := beside.locals (some u) fun eq => ne (Option.some.inj eq)
  chain := congrFun beside.chain (some u)
  held := held
  next y mem := beside.next y fun mine =>
    ne (Option.some.inj (tracked.stack.exclusive.single _ _ y mem mine))
  out _ _ mem := out ▸ mem

theorem owner_after (tracked : Tracked cfg T S P) {stack : NbStack.System (Option Nat)}
    (beside : Beside S.stack stack (some t)) : stack.locals none = .idle :=
  (beside.locals none (Option.some_ne_none t).symm).trans tracked.owner

theorem busy_lt (tracked : Tracked cfg T S P) (busy : S.calls t ≠ .idle) : t < T := by
  by_contra ge
  exact busy (tracked.idle t (Nat.le_of_not_lt ge))

/-- The calls after `t` has ended its own. -/
theorem ended_idle (tracked : Tracked cfg T S P) (t : Nat) :
    ∀ u, T ≤ u → update S.calls t .idle u = .idle := by
  intro u ge
  by_cases same : u = t
  · rw [same, update_self]
  · rw [update_of_ne same]
    exact tracked.idle u ge

/-- An access after which the call goes on. -/
theorem waits (tracked : Tracked cfg T S P) {stack : NbStack.System (Option Nat)}
    (ok : Refines pageLayout (pageElems cfg) stack ⟨P.shared.map bucketElem, S.stack.held⟩)
    (beside : Beside S.stack stack (some t)) (held : stack.held = S.stack.held)
    (call : CallOk cfg { S with stack := stack } t (P.locals t) (S.calls t)) :
    Tracked cfg T { S with stack := stack } P := by
  refine ⟨?_, tracked.owner_after beside, tracked.wellFormed, fun u => ?_, tracked.shared,
    tracked.places.congr (fun _ => Iff.rfl) rfl rfl, tracked.single, tracked.idle⟩
  · rw [← held] at ok
    exact ok
  · by_cases same : u = t
    · subst same
      refine ⟨fun x => ?_, (tracked.threads u).lists, call⟩
      rw [show LockFreePages.stack { S with stack := stack } = stack from rfl, held]
      exact (tracked.threads u).held x
    · exact (tracked.threads u).still (tracked.beside beside same rfl rfl (congrFun held _) rfl)
        fun _ _ => rfl

/-- The bucket that `page_get` returns becomes the pages of the thread. -/
theorem openShared (tracked : Tracked cfg T S P) (getting : S.calls t = .getting)
    {b : List Elem} {bs : List (List Elem)} (hs : P.shared = b :: bs)
    {stack : NbStack.System (Option Nat)} (ok : Refines pageLayout (pageElems cfg) stack
      ⟨bs.map bucketElem, acquire S.stack.held (some t) (bucketElem b)⟩)
    (beside : Beside S.stack stack (some t)) (place : stack.locals (some t) = .idle)
    (held : stack.held = acquire S.stack.held (some t) (bucketElem b)) :
    Tracked cfg T (((act (.pass (some t) none (bucketElem b)) { S with stack := stack }).setCall t
      .idle).modifyThread t fun d =>
        { d with pagesCount := cfg.nrLocalPages, pages := bucketElem b })
      { P.setLocal t { items := b, buckets := [] } with shared := bs } := by
  have thread := tracked.threads t
  have call := thread.call
  have mine := thread.held
  have lists := thread.lists
  rw [getting] at call mine lists
  obtain ⟨_, hi, hb⟩ := call
  have refilled : refill t P =
      some { P.setLocal t { items := b, buckets := [] } with shared := bs } := by
    simp only [refill, hi, hb, hs]
  obtain ⟨wf, holds⟩ := refill_spec tracked.wellFormed refilled
  have here : bucketElem b ∈ stack.held (some t) := by
    rw [held]
    exact mem_acquire.mpr (.inr ⟨rfl, rfl⟩)
  have passed : Beside S.stack
      (act (.pass (some t) none (bucketElem b)) { S with stack := stack }).stack (some t) :=
    ⟨beside.locals, beside.chain, beside.next⟩
  refine ⟨?_, tracked.owner_after passed, wf, fun u => ?_, fun c mem => ?_,
    tracked.places.congr holds rfl rfl, tracked.single.update (by simp), tracked.ended_idle t⟩
  · have ok := ok.pass place here none
    rw [← held] at ok
    exact ok
  · by_cases same : u = t
    · subst same
      simp only [setLocal_same]
      refine .of_idle (update_self ..) (fun x => ?_) ⟨?_, ?_, ?_, ?_, ?_⟩ place ⟨_, rfl⟩
      · refine iff_of_false (fun mem => ?_) List.not_mem_nil
        rcases mem_acquire.mp mem with mem | ⟨eq, _⟩
        · obtain ⟨mem, left⟩ := mem_release.mp mem
          simp only [held, mem_acquire, mine, inMemory, hb, List.map_nil, List.not_mem_nil,
            false_or] at mem
          exact left rfl (List.mem_singleton.mpr mem.2)
        · cases eq
      all_goals simp only [act, setCall, modifyThread, update_self]
      · exact (tracked.wellFormed.shared_length b (by simp [hs])).symm
      · exact tracked.shared b (by simp [hs])
      · rw [lists.pbucketsCount]
        exact congrArg List.length hb
      · exact fun bs c split => absurd split.symm (by simp)
      · exact fun c mem => absurd mem List.not_mem_nil
    · simp only [setLocal_other _ _ same]
      have other : some u ≠ some t := fun eq => same (Option.some.inj eq)
      refine (tracked.threads u).still (tracked.beside passed same (update_of_ne same _ _)
        (update_of_ne same _ _) ?_ rfl) fun _ _ => rfl
      refine (pass_of_ne (l := pageLayout) other (Option.some_ne_none u)).trans ?_
      rw [held, acquire_of_ne other]
  · exact tracked.shared c (by simp [hs, mem])

theorem access_get (tracked : Tracked cfg T S P) (getting : S.calls t = .getting)
    (allowed : S.stack.Allowed pageLayout (.access (some t))) :
    ∃ S' e P', S.access cfg t = .ok (S', e) ∧ Tracked cfg T S' P' ∧ Serves cfg T S.out P e P' := by
  have thread := tracked.threads t
  have call := thread.call
  have busy : S.calls t ≠ .idle := by
    rw [getting]
    exact nofun
  rw [getting] at call
  obtain ⟨place, hi, hb⟩ := call
  obtain ⟨A', advance, ok⟩ := tracked.stack.step (.access (some t)) allowed
  obtain ⟨after, beside⟩ := tracked.stack.get_access place
  rw [access, getting]
  generalize he : (S.stack.perform pageLayout (.access (some t))).2 = e at advance after
  cases after with
  | more place' held =>
      cases advance
      have ok' := tracked.waits ok beside held (getting ▸ ⟨place', hi, hb⟩)
      exact ⟨_, _, P, rfl, ok', .nothing⟩
  | empty place' held =>
      obtain ⟨nothing, rfl⟩ : P.shared.map bucketElem = [] ∧
          A' = ⟨P.shared.map bucketElem, S.stack.held⟩ := by
        cases advance with
        | move step =>
            cases step with
            | empty nil => exact ⟨nil, rfl⟩
      have empty : BucketPool.get t P = none := by
        simp only [BucketPool.get, hi, hb, List.map_eq_nil_iff.mp nothing]
      refine ⟨_, _, P, rfl, ⟨?_, tracked.owner_after beside, tracked.wellFormed, fun u => ?_,
        tracked.shared, tracked.places.congr (fun _ => Iff.rfl) rfl rfl,
        tracked.single.update (by simp), tracked.ended_idle t⟩, .null (tracked.busy_lt busy) empty⟩
      · rw [show ((S.act (.access (some t))).setCall t .idle).stack.held = S.stack.held from held]
        exact ok
      · by_cases same : u = t
        · subst same
          have mine := thread.held
          have lists := thread.lists
          rw [getting] at mine lists
          refine .of_idle (update_self ..) (fun x => ?_) lists place' ⟨_, by rw [hb]; rfl⟩
          rw [show ((S.act (.access (some u))).setCall u .idle).stack.held = S.stack.held from held]
          exact mine x
        · exact (tracked.threads u).still (tracked.beside beside same (update_of_ne same _ _) rfl
            (congrFun held _) rfl) fun _ _ => rfl
  | pop x place' held =>
      obtain ⟨rest, top, rfl⟩ : ∃ rest, P.shared.map bucketElem = x :: rest ∧
          A' = ⟨rest, acquire S.stack.held (some t) x⟩ := by
        cases advance with
        | move step =>
            cases step with
            | pop top => exact ⟨_, top, rfl⟩
      obtain ⟨b, bs, hs, rfl, rfl⟩ := List.map_eq_cons_iff.mp top
      have opened := tracked.openShared getting hs ok beside place' held
      have refilled : refill t P =
          some { P.setLocal t { items := b, buckets := [] } with shared := bs } := by
        simp only [refill, hi, hb, hs]
      obtain ⟨x, items, first⟩ := exists_of_refill cfg.nrLocalPages_pos tracked.wellFormed refilled
      obtain ⟨S', run, taken⟩ := opened.take (update_self ..) first
      exact ⟨S', _, _, run, taken, .got (tracked.busy_lt busy) (get_of_refill refilled first)⟩

/-- The buckets of the thread are on the stack. -/
theorem shares (tracked : Tracked cfg T S P) (adding : S.calls t = .adding p)
    {stack : NbStack.System (Option Nat)} (ok : Refines pageLayout (pageElems cfg) stack
      ⟨S.stack.chain (some t) ++ P.shared.map bucketElem,
        release S.stack.held (some t) (S.stack.chain (some t))⟩)
    (beside : Beside S.stack stack (some t)) (place : stack.locals (some t) = .idle)
    (held : stack.held = release S.stack.held (some t) (S.stack.chain (some t))) :
    Tracked cfg T ((setCall t .idle { S with stack := stack }).modifyThread t fun d =>
      { d with pbucketsCount := 0, pbuckets := 0, lastPbucket := 0 })
        (share t (closeBucket t P)) := by
  have thread := tracked.threads t
  have call := thread.call
  have mine := thread.held
  have lists := thread.lists
  rw [adding] at call mine lists
  obtain ⟨_, chain, full, _, out⟩ := call
  have locals : ∀ u, u ≠ t → (share t (closeBucket t P)).locals u = P.locals u := by
    intro u ne
    simp [share, closeBucket, ne]
  have own : (share t (closeBucket t P)).locals t = { items := [], buckets := [] } := by
    simp [share, closeBucket]
  have shared : (share t (closeBucket t P)).shared = (closed (P.locals t)).buckets ++ P.shared := by
    simp [share, closeBucket, closed]
  refine ⟨?_, tracked.owner_after beside,
    wellFormed_share (wellFormed_closeBucket tracked.wellFormed full), fun u => ?_, fun b mem => ?_,
    tracked.places.congr (fun y => (holds_share t _ y).trans (holds_closeBucket t P y)) rfl rfl,
    tracked.single.update (by simp), tracked.ended_idle t⟩
  · rw [shared, List.map_append, ← chain]
    rw [← held] at ok
    exact ok
  · by_cases same : u = t
    · subst same
      rw [own]
      refine .of_idle (update_self ..) (fun x => ?_) ⟨?_, ?_, ?_, ?_, ?_⟩ place ⟨_, rfl⟩
      · refine iff_of_false (fun mem => ?_) List.not_mem_nil
        obtain ⟨mem, left⟩ := mem_release.mp (congrFun held (some u) ▸ mem)
        exact left rfl (chain ▸ (mine x).mp mem)
      all_goals simp only [setCall, modifyThread, update_self]
      · exact lists.pagesCount
      · exact lists.pages
      · rfl
      · exact fun bs c split => absurd split.symm (by simp)
      · exact fun c mem => absurd mem List.not_mem_nil
    · rw [locals u same]
      have other : some u ≠ some t := fun eq => same (Option.some.inj eq)
      refine (tracked.threads u).still (tracked.beside beside same (update_of_ne same _ _)
        (update_of_ne same _ _) ?_ rfl) fun _ _ => rfl
      exact (congrFun held _).trans (release_of_ne other)
  · rw [shared] at mem
    rcases List.mem_append.mp mem with mem | mem
    · exact lists.bucket b mem
    · exact tracked.shared b mem

/-- Nobody returns the page that `t` has just returned. -/
theorem returned (tracked : Tracked cfg T S P) (adding : S.calls t = .adding p) (u : Nat) :
    update S.calls t .idle u ≠ .adding p := by
  intro again
  by_cases same : u = t
  · rw [same, update_self] at again
    cases again
  · rw [update_of_ne same] at again
    exact same (tracked.single u t p again adding)

/-- Until its last access `add_free_page` changes nothing, and then the pool takes the page. -/
theorem access_put (tracked : Tracked cfg T S P) (adding : S.calls t = .adding p)
    (allowed : S.stack.Allowed pageLayout (.access (some t))) :
    ∃ S' e P', S.access cfg t = .ok (S', e) ∧ Tracked cfg T S' P' ∧ Serves cfg T S.out P e P' := by
  have thread := tracked.threads t
  have call := thread.call
  have busy : S.calls t ≠ .idle := by
    rw [adding]
    exact nofun
  rw [adding] at call
  obtain ⟨place, chain, full, enough, out⟩ := call
  obtain ⟨A', advance, ok⟩ := tracked.stack.step (.access (some t)) allowed
  obtain ⟨after, beside⟩ := tracked.stack.put_access place
  rw [access, adding]
  generalize he : (S.stack.perform pageLayout (.access (some t))).2 = e at advance after
  cases after with
  | more place' held =>
      cases advance
      have chain' := (congrFun beside.chain (some t)).trans chain
      have ok' := tracked.waits ok beside held (adding ▸ ⟨place', chain', full, enough, out⟩)
      exact ⟨_, _, P, rfl, ok', .nothing⟩
  | push place' held =>
      obtain rfl : A' = ⟨S.stack.chain (some t) ++ P.shared.map bucketElem,
          release S.stack.held (some t) (S.stack.chain (some t))⟩ := by
        cases advance with
        | move step =>
            cases step with
            | push => rfl
      have shared := tracked.shares adding ok beside place' held
      have stored := shared.store (p := p) (update_self ..) ?_ out fun u => ?_
      · refine ⟨_, _, _, rfl, stored, ?_⟩
        have whole : put cfg.nrLocalPages cfg.nrLocalPbuckets t p P =
            push t p (share t (closeBucket t P)) := by
          rw [put, spill, if_pos full, if_pos enough]
        rw [← whole]
        exact .added (tracked.busy_lt busy) out
      · simpa [share, closeBucket] using cfg.nrLocalPages_pos
      · exact tracked.returned adding u

/-- A thread without pages and buckets calls `page_get`. -/
theorem asks (tracked : Tracked cfg T S P) (ht : t < T) (quiet : S.calls t = .idle)
    (hi : (P.locals t).items = []) (hb : (P.locals t).buckets = []) :
    Tracked cfg T ((S.act (.callGet (some t))).setCall t .getting) P := by
  have place := (tracked.call_idle quiet).1
  obtain ⟨A', advance, ok⟩ := tracked.stack.step (.callGet (some t)) place
  cases advance
  refine ⟨ok, ?_, tracked.wellFormed, fun u => ?_, tracked.shared,
    tracked.places.congr (fun _ => Iff.rfl) rfl rfl, tracked.single.update (by simp),
    fun u ge => ?_⟩
  · exact (callGet_of_ne (l := pageLayout) (Option.some_ne_none t).symm).trans tracked.owner
  · by_cases same : u = t
    · subst same
      have calls : ((S.act (.callGet (some u))).setCall u .getting).calls u = .getting :=
        update_self ..
      refine ⟨?_, ?_, ?_⟩ <;> rw [calls]
      · exact tracked.held_idle quiet
      · exact tracked.lists_idle quiet
      · refine ⟨?_, hi, hb⟩
        rw [show ((S.act (.callGet (some u))).setCall u .getting).stack.locals (some u) =
          NbStack.Local.getHead from update_self ..]
        trivial
    · have other : some u ≠ some t := fun eq => same (Option.some.inj eq)
      exact (tracked.threads u).still ⟨update_of_ne same _ _, rfl,
        callGet_of_ne (l := pageLayout) other, rfl, rfl, fun _ _ => rfl, fun _ _ mem => mem⟩
        fun _ _ => rfl
  · exact (update_of_ne (by omega) _ _).trans (tracked.idle u ge)

/-- The application writes a page of its own. -/
theorem writes (tracked : Tracked cfg T S P) (out : p ∈ S.out) (v w : Elem) :
    Tracked cfg T { S.act (.write none p v) with localPages := update S.localPages p w } P := by
  have mine := tracked.out_held out
  have away : ∀ x, P.Holds x → update S.localPages p w x = S.localPages x := by
    intro x held
    refine update_of_ne ?_ _ _
    rintro rfl
    exact tracked.places.apart x held out
  refine ⟨tracked.stack.write tracked.owner mine, tracked.owner, tracked.wellFormed, fun u => ?_,
    fun b mem => ?_, tracked.places.congr (fun _ => Iff.rfl) rfl rfl, tracked.single, tracked.idle⟩
  · refine (tracked.threads u).still ⟨rfl, rfl, rfl, rfl, rfl, fun x held => ?_, fun _ _ mem => mem⟩
      fun x mem => away x (.inl ⟨u, mem⟩)
    refine update_of_ne ?_ _ _
    rintro rfl
    exact tracked.stack.not_held mine (Option.some_ne_none u) held
  · have shared : P.IsBucket b := .inr mem
    exact chain_congr (fun x here => away x (isBucket_holds shared here)) (tracked.shared b mem)

/-- `get_free_page` takes a page of the thread, opens a bucket, or calls `page_get`. -/
theorem gets (tracked : Tracked cfg T S P) (ht : t < T) (quiet : S.calls t = .idle) :
    ∃ S' e P', S.getFreePage cfg t = .ok (S', e) ∧ Tracked cfg T S' P' ∧
      Serves cfg T S.out P e P' := by
  have lists := tracked.lists_idle quiet
  have count := lists.pagesCount
  have buckets := lists.pbucketsCount
  cases hi : (P.locals t).items with
  | cons x items =>
      rw [hi, List.length_cons] at count
      obtain ⟨S', run, taken⟩ := tracked.take quiet hi
      rw [getFreePage, if_neg (by omega), run]
      exact ⟨S', _, _, rfl, taken, .got ht (get_of_items hi)⟩
  | nil =>
      rw [hi, List.length_nil] at count
      cases hb : (P.locals t).buckets with
      | nil =>
          rw [hb, List.length_nil] at buckets
          rw [getFreePage, if_pos count, if_pos buckets]
          exact ⟨_, _, P, rfl, tracked.asks ht quiet hi hb, .nothing⟩
      | cons b bs =>
          rw [hb, List.length_cons] at buckets
          have refilled : refill t P = some (P.setLocal t { items := b, buckets := bs }) := by
            simp only [refill, hi, hb]
          obtain ⟨x, items, first⟩ :=
            exists_of_refill cfg.nrLocalPages_pos tracked.wellFormed refilled
          obtain ⟨S', run, taken⟩ := (tracked.opens quiet hi hb).take quiet first
          rw [getFreePage, if_pos count, if_neg (by omega), run]
          exact ⟨S', _, _, rfl, taken, .got ht (get_of_refill refilled first)⟩

/-- `add_free_page` keeps the page in the lists of the thread, or calls `page_put`. -/
theorem adds (tracked : Tracked cfg T S P) (ht : t < T) (quiet : S.calls t = .idle)
    (owned : S.Owned T p) :
    ∃ S' e P', S.addFreePage cfg t p = .ok (S', e) ∧ Tracked cfg T S' P' ∧
      Serves cfg T S.out P e P' := by
  have lists := tracked.lists_idle quiet
  have count := lists.pagesCount
  have buckets := lists.pbucketsCount
  obtain ⟨out, unreturned⟩ := owned
  have kept : ∀ u, S.calls u ≠ .adding p := by
    intro u
    by_cases hu : u < T
    · exact unreturned u hu
    · rw [tracked.idle u (Nat.le_of_not_lt hu)]
      exact nofun
  have page : p ≠ 0 := (tracked.stack.usable p ((tracked.places.mem_iff p).mpr (.inr out))).1
  have flag : S.listFlags p = .none := tracked.places.out p out
  rw [addFreePage, ensure_true page, ok_bind, ensure_true flag, ok_bind]
  by_cases full : (P.locals t).items.length = cfg.nrLocalPages
  · have closed := tracked.close quiet full
    have closedCount : ((S.closePages t).threads t).pbucketsCount =
        (P.locals t).buckets.length + 1 :=
      (congrArg PoolData.pbucketsCount (update_self ..)).trans (congrArg (· + 1) buckets)
    simp only [if_pos (count.trans full), closedCount]
    by_cases enough : cfg.nrLocalPbuckets ≤ (P.locals t).buckets.length + 1
    · rw [if_pos enough]
      exact ⟨_, _, P, rfl, closed.starts quiet ht tracked.wellFormed full enough out kept, .nothing⟩
    · rw [if_neg enough]
      have room : ((closeBucket t P).locals t).items.length < cfg.nrLocalPages := by
        simpa [closeBucket] using cfg.nrLocalPages_pos
      refine ⟨_, _, _, rfl, closed.store quiet room out kept, ?_⟩
      have whole : put cfg.nrLocalPages cfg.nrLocalPbuckets t p P = push t p (closeBucket t P) := by
        rw [put, spill, if_pos full, if_neg enough]
      rw [← whole]
      exact .added ht out
  · rw [if_neg (fun eq => full (count.symm.trans eq))]
    have le := tracked.wellFormed.items_le t
    have stored := tracked.store quiet (by omega) out kept
    refine ⟨_, _, _, rfl, stored, ?_⟩
    have whole : put cfg.nrLocalPages cfg.nrLocalPbuckets t p P = push t p P := by
      rw [put, spill, if_neg full]
    rw [← whole]
    exact .added ht out

/-- Every step succeeds, and a call that it completes is served by the pool. -/
theorem step (tracked : Tracked cfg T S P) {a : PoolAction} (enabled : S.Enabled T a) :
    ∃ S' e P', S.perform cfg a = .ok (S', e) ∧ Tracked cfg T S' P' ∧ Serves cfg T S.out P e P' := by
  cases a with
  | get t => exact tracked.gets enabled.1 enabled.2
  | add t p => exact tracked.adds enabled.1 enabled.2.1 enabled.2.2
  | access t =>
      obtain ⟨busy, allowed⟩ := enabled
      cases call : S.calls t with
      | idle => exact absurd call busy
      | getting => exact tracked.access_get call allowed
      | adding p => exact tracked.access_put call allowed
  | write p v w => exact ⟨_, _, P, rfl, tracked.writes enabled.1 v w, .nothing⟩

end Tracked
end LockFreePages
end CompactFit
