import CompactFit.PageExchange
import CompactFit.Library.BucketPlaces

/-!
Conservation of pages, read off the links: in every run a page is handed out or in one of
the lists they form, and the operations on the pool do not fail.
-/

namespace CompactFit
open LinkedChain BucketPool

inductive PagePlace where
  | out
  | local (t : Nat)
  | bucket (t b : Nat)
  | stack (b : Nat)

namespace Heap
variable {π : Type}

/-- The pages of a thread: `pages_count` links from `pages`. -/
def localPages (h : Heap π) (t : Nat) : List Nat :=
  follow (localLink h.memory) (h.threads t).pagesCount (h.threads t).pages

def localPbuckets (h : Heap π) (t : Nat) : List Nat :=
  follow (nextLink h.memory) (h.threads t).pbucketsCount (h.threads t).pbuckets

def bucketPages (cfg : Config) (h : Heap π) (b : Nat) : List Nat :=
  follow (localLink h.memory) cfg.nrLocalPages b

end Heap

namespace PageExchange
variable {π : Type}

def Holds (cfg : Config) (T : Nat) (S : PageExchange π) (stack : List Nat) (p : Nat) :
    PagePlace → Prop
  | .out => p ∈ S.out
  | .local t => t < T ∧ pageAddress p ∈ S.heap.localPages t
  | .bucket t b => t < T ∧ b ∈ S.heap.localPbuckets t ∧ pageAddress p ∈ S.heap.bucketPages cfg b
  | .stack b => b ∈ stack ∧ pageAddress p ∈ S.heap.bucketPages cfg b

/-- Every page is in one place, and once; `stack` is the global stack. -/
structure Conserved (cfg : Config) (T : Nat) (S : PageExchange π) (stack : List Nat) : Prop where
  chain : Chain (nextLink S.heap.memory) S.heap.freePageHead stack 0
  place : ∀ p, cfg.firstPage ≤ p → p < cfg.firstPage + cfg.nrPages →
    ∃! place, S.Holds cfg T stack p place
  range : ∀ p place, S.Holds cfg T stack p place →
    cfg.firstPage ≤ p ∧ p < cfg.firstPage + cfg.nrPages
  locals : ∀ t, t < T → (S.heap.localPages t).Nodup ∧
    Chain (localLink S.heap.memory) (S.heap.threads t).pages (S.heap.localPages t) 0
  bucket : ∀ b, b ∈ stack ∨ (∃ t, t < T ∧ b ∈ S.heap.localPbuckets t) →
    (S.heap.bucketPages cfg b).length = cfg.nrLocalPages ∧ (S.heap.bucketPages cfg b).Nodup ∧
      Chain (localLink S.heap.memory) b (S.heap.bucketPages cfg b) 0
  listNodup : stack.Nodup ∧ ∀ t, t < T → (S.heap.localPbuckets t).Nodup
  lastPbucket : ∀ t b, t < T → (S.heap.localPbuckets t).getLast? = some b →
    (S.heap.threads t).lastPbucket = b
  flags : ∀ p, cfg.firstPage ≤ p → p < cfg.firstPage + cfg.nrPages →
    ((S.heap.pages p).listFlags = .free ↔ p ∉ S.out)
  outFlags : ∀ p, p ∈ S.out → (S.heap.pages p).listFlags = .none

end PageExchange

section
variable {π : Type} {cfg : Config} {h : Heap π} {P : Pool Nat Nat}

theorem PoolOk.localPages_eq (ok : PoolOk cfg h P) (t : Nat) :
    h.localPages t = (P.locals t).items.map pageAddress := by
  have visited := follow_chain (ok.rep.pages t)
  rwa [List.length_map, ← ok.rep.pagesCount t] at visited

theorem PoolOk.localPbuckets_eq (ok : PoolOk cfg h P) (t : Nat) :
    h.localPbuckets t = (P.locals t).buckets.map bucketAddress := by
  have visited := follow_chain (ok.rep.pbuckets t)
  rwa [List.length_map, ← ok.rep.pbucketsCount t] at visited

theorem PoolOk.isBucket_chain (ok : PoolOk cfg h P) {b : List Nat} (hb : P.IsBucket b) :
    Chain (localLink h.memory) (bucketAddress b) (b.map pageAddress) 0 :=
  ok.rep.bucket b hb.symm

theorem PoolOk.bucketPages_eq (ok : PoolOk cfg h P) {b : List Nat} (hb : P.IsBucket b) :
    h.bucketPages cfg (bucketAddress b) = b.map pageAddress := by
  have visited := follow_chain (ok.isBucket_chain hb)
  rwa [List.length_map, isBucket_length ok.wellFormed hb] at visited

theorem mem_pageAddress {p : Nat} {ps : List Nat} (mem : pageAddress p ∈ ps.map pageAddress) :
    p ∈ ps := by
  obtain ⟨q, hq, eq⟩ := List.mem_map.mp mem
  rwa [← pageAddress_inj eq]

theorem pageAddresses_nodup {ps : List Nat} (nodup : ps.Nodup) : (ps.map pageAddress).Nodup :=
  nodup.map fun _ _ eq => pageAddress_inj eq

end

def pagePlace : Place Nat Nat → PagePlace
  | .items t => .local t
  | .bucket t b => .bucket t (bucketAddress b)
  | .shared b => .stack (bucketAddress b)

namespace PageExchange
variable {π : Type} {cfg : Config} {T t : Nat} {S : PageExchange π} {P : Pool Nat Nat}
  {addresses : π}

theorem Tracked.client_lt (tracked : S.Tracked cfg T P) {p : Nat} (mem : p ∈ (P.locals t).elems) :
    t < T := by
  by_contra le
  rw [tracked.idle t (Nat.le_of_not_lt le)] at mem
  cases mem

theorem Tracked.holds_iff (tracked : S.Tracked cfg T P) (p : Nat) (place : PagePlace) :
    S.Holds cfg T (P.shared.map bucketAddress) p place ↔
      (place = .out ∧ p ∈ S.out) ∨ ∃ q, P.At p q ∧ place = pagePlace q := by
  have ok := tracked.pool
  constructor
  · intro h
    cases place with
    | out => exact .inl ⟨rfl, h⟩
    | «local» t =>
        obtain ⟨_, mem⟩ := h
        rw [ok.localPages_eq t] at mem
        exact .inr ⟨.items t, mem_pageAddress mem, rfl⟩
    | bucket t m =>
        obtain ⟨_, listed, mem⟩ := h
        rw [ok.localPbuckets_eq t] at listed
        obtain ⟨b, hb, rfl⟩ := List.mem_map.mp listed
        rw [ok.bucketPages_eq (.inl ⟨t, hb⟩)] at mem
        exact .inr ⟨.bucket t b, ⟨hb, mem_pageAddress mem⟩, rfl⟩
    | stack m =>
        obtain ⟨listed, mem⟩ := h
        obtain ⟨b, hb, rfl⟩ := List.mem_map.mp listed
        rw [ok.bucketPages_eq (.inr hb)] at mem
        exact .inr ⟨.shared b, ⟨hb, mem_pageAddress mem⟩, rfl⟩
  · rintro (⟨rfl, h⟩ | ⟨q, h, rfl⟩)
    · exact h
    · cases q with
      | items t =>
          refine ⟨tracked.client_lt (List.mem_append_left _ h), ?_⟩
          rw [ok.localPages_eq t]
          exact List.mem_map_of_mem h
      | bucket t b =>
          refine ⟨tracked.client_lt (List.mem_append_right _ (at_bucket_mem h)), ?_, ?_⟩
          · rw [ok.localPbuckets_eq t]
            exact List.mem_map_of_mem h.1
          · rw [ok.bucketPages_eq (.inl ⟨t, h.1⟩)]
            exact List.mem_map_of_mem h.2
      | shared b =>
          refine ⟨List.mem_map_of_mem h.1, ?_⟩
          rw [ok.bucketPages_eq (.inr h.1)]
          exact List.mem_map_of_mem h.2

theorem Tracked.held_iff (tracked : S.Tracked cfg T P) {p : Nat} (lo : cfg.firstPage ≤ p)
    (hi : p < cfg.firstPage + cfg.nrPages) : P.Holds p ↔ p ∉ S.out :=
  (tracked.pool.holds p).trans (tracked.flags p lo hi)

theorem Tracked.place (tracked : S.Tracked cfg T P) {p : Nat} (lo : cfg.firstPage ≤ p)
    (hi : p < cfg.firstPage + cfg.nrPages) :
    ∃! place, S.Holds cfg T (P.shared.map bucketAddress) p place := by
  by_cases out : p ∈ S.out
  · refine ⟨.out, (tracked.holds_iff p _).mpr (.inl ⟨rfl, out⟩), fun place h => ?_⟩
    rcases (tracked.holds_iff p place).mp h with ⟨eq, _⟩ | ⟨q, at_, _⟩
    · exact eq
    · exact absurd out ((tracked.held_iff lo hi).mp (exists_at.mp ⟨q, at_⟩))
  · obtain ⟨q, at_⟩ := exists_at.mpr ((tracked.held_iff lo hi).mpr out)
    refine ⟨pagePlace q, (tracked.holds_iff p _).mpr (.inr ⟨q, at_, rfl⟩), fun place h => ?_⟩
    rcases (tracked.holds_iff p place).mp h with ⟨_, mem⟩ | ⟨q', at', rfl⟩
    · exact absurd mem out
    · rw [at_unique tracked.pool.wellFormed at' at_]

theorem Tracked.range (tracked : S.Tracked cfg T P) {p : Nat} {place : PagePlace}
    (h : S.Holds cfg T (P.shared.map bucketAddress) p place) :
    cfg.firstPage ≤ p ∧ p < cfg.firstPage + cfg.nrPages := by
  rcases (tracked.holds_iff p place).mp h with ⟨_, mem⟩ | ⟨q, at_, _⟩
  · exact (tracked.outFlags p mem).1
  · exact tracked.pool.inHeap p ((tracked.pool.holds p).mp (exists_at.mp ⟨q, at_⟩))

theorem lastPbucket_eq (ok : PoolOk cfg S.heap P) {b : Nat}
    (last : (S.heap.localPbuckets t).getLast? = some b) : (S.heap.threads t).lastPbucket = b := by
  rw [ok.localPbuckets_eq t, List.getLast?_map, Option.map_eq_some_iff] at last
  obtain ⟨c, last, rfl⟩ := last
  obtain ⟨bs, split⟩ := List.getLast?_eq_some_iff.mp last
  exact ok.rep.lastPbucket t bs c split

theorem Tracked.conserved (tracked : S.Tracked cfg T P) :
    S.Conserved cfg T (P.shared.map bucketAddress) where
  chain := tracked.pool.rep.shared
  place _ := tracked.place
  range _ _ := tracked.range
  locals t _ := by
    rw [tracked.pool.localPages_eq t]
    refine ⟨pageAddresses_nodup ?_, tracked.pool.rep.pages t⟩
    exact (List.nodup_append.mp (tracked.pool.wellFormed.nodup_local t)).1
  bucket m listed := by
    have isBucket : ∃ b, P.IsBucket b ∧ bucketAddress b = m := by
      rcases listed with mem | ⟨t, _, mem⟩
      · obtain ⟨b, hb, rfl⟩ := List.mem_map.mp mem
        exact ⟨b, .inr hb, rfl⟩
      · rw [tracked.pool.localPbuckets_eq t] at mem
        obtain ⟨b, hb, rfl⟩ := List.mem_map.mp mem
        exact ⟨b, .inl ⟨t, hb⟩, rfl⟩
    obtain ⟨b, hb, rfl⟩ := isBucket
    rw [tracked.pool.bucketPages_eq hb, List.length_map]
    exact ⟨isBucket_length tracked.pool.wellFormed hb,
      pageAddresses_nodup (isBucket_nodup tracked.pool.wellFormed hb),
      tracked.pool.isBucket_chain hb⟩
  listNodup := by
    have wf := tracked.pool.wellFormed
    refine ⟨bucketAddresses_nodup (fun b hb => tracked.pool.bucket_ne_nil (.inl hb))
      wf.nodup_shared, fun t _ => ?_⟩
    rw [tracked.pool.localPbuckets_eq t]
    exact bucketAddresses_nodup (fun b hb => tracked.pool.bucket_ne_nil (.inr ⟨t, hb⟩))
      (List.nodup_append.mp (wf.nodup_local t)).2.1
  lastPbucket _ _ _ := lastPbucket_eq tracked.pool
  flags := tracked.flags
  outFlags p mem := (tracked.outFlags p mem).2

/-- A thread that has to push its buckets knows the last of them. -/
theorem Tracked.pushed (tracked : S.Tracked cfg T P)
    (full : (S.heap.threads t).pagesCount = cfg.nrLocalPages) :
    ((closePages t S.heap).localPbuckets t).getLast? =
      some ((closePages t S.heap).threads t).lastPbucket := by
  have count := tracked.pool.rep.pagesCount t
  obtain ⟨closed, _⟩ := closePages_spec (t := t) tracked.pool (by omega)
  have some : ((closePages t S.heap).localPbuckets t) ≠ [] := by
    rw [closed.localPbuckets_eq t]
    simp [closeBucket]
  rw [List.getLast?_eq_some_getLast some]
  refine congrArg Option.some (Eq.symm ?_)
  exact lastPbucket_eq (S := { heap := closePages t S.heap, out := S.out }) closed
    (List.getLast?_eq_some_getLast some)

end PageExchange

/-- In every run the pages are conserved, the assertions of both operations hold, the last
bucket is known when a thread pushes its buckets, and NULL is returned only when the thread
and the global stack have no page. -/
theorem pages_conserved {π : Type} {cfg : Config} {T : Nat} {addresses : π} {S : PageExchange π}
    (run : PageExchange.Run cfg T addresses S) :
    (∃ stack, S.Conserved cfg T stack) ∧
    (∀ t, t < T → ∃ p h, getFreePage cfg t S.heap = .ok (p, h) ∧
      (p = none → NoFreePage t S.heap)) ∧
    (∀ t p, t < T → p ∈ S.out → ∃ h, addFreePage cfg t p S.heap = .ok h) ∧
    ∀ t, t < T → (S.heap.threads t).pagesCount = cfg.nrLocalPages →
      ((closePages t S.heap).localPbuckets t).getLast? =
        some ((closePages t S.heap).threads t).lastPbucket := by
  obtain ⟨P, tracked⟩ := run.tracked
  refine ⟨⟨_, tracked.conserved⟩, fun t ht => ?_, fun t p ht hp => ?_, fun t _ => tracked.pushed⟩
  · rcases PageExchange.tracked_get tracked ht with ⟨run, none⟩ | ⟨p, h, P', run, _⟩
    · refine ⟨_, _, run, fun _ => ?_⟩
      obtain ⟨items, buckets, shared⟩ :=
        get_none cfg.nrLocalPages_pos tracked.pool.wellFormed none
      refine ⟨?_, ?_, ?_⟩
      · rw [tracked.pool.rep.pagesCount, items]
        rfl
      · rw [tracked.pool.rep.pbucketsCount, buckets]
        rfl
      · have chain := tracked.pool.rep.shared
        rw [shared] at chain
        exact chain
    · exact ⟨_, _, run, nofun⟩
  · obtain ⟨h, run, _⟩ := PageExchange.tracked_add tracked ht hp
    exact ⟨h, run⟩

def pairConfig : Config where
  nrAaBuckets := 1
  nrLocalAas := 1
  nrLocalAbuckets := 1
  nrLocalFreeAbuckets := 1
  nrAaBuckets_pos := Nat.one_pos
  nrLocalAas_pos := Nat.one_pos
  nrLocalAbuckets_pos := Nat.one_pos
  nrLocalFreeAbuckets_pos := Nat.one_pos
  partialCompactionBound := 1
  incrementalMemcpy := 0
  memcpyMultiplicator := 1
  firstPage := 1
  nrPages := 4
  nrLocalPages := 2
  nrLocalPbuckets := 1
  aaSpace := 65536
  past := 0
  partialCompactionBound_int := partialCompactionBound_one
  incrementalMemcpy_int := incrementalMemcpy_off
  memcpyMultiplicator_pos := Nat.one_pos
  nrLocalPages_pos := Nat.two_pos
  nrLocalPbuckets_pos := Nat.one_pos
  firstPage_pos := Nat.one_pos
  heap_end := by decide
  nrPages_buckets := by decide
  aaSpace_pos := by decide
  aaSpace_end := by decide

/-- Thread 1 takes the last page and writes over its first word; thread 0 gets it back. -/
theorem pages_conserved_returned : ∃ S : PageExchange Unit, S.out = ∅ ∧
    (∃ stack, S.Conserved pairConfig 2 stack) ∧
    (∀ t, t < 2 → ∃ p h, getFreePage pairConfig t S.heap = .ok (p, h) ∧
      (p = none → NoFreePage t S.heap)) ∧
    (∀ t p, t < 2 → p ∈ S.out → ∃ h, addFreePage pairConfig t p S.heap = .ok h) ∧
    ∀ t, t < 2 → (S.heap.threads t).pagesCount = pairConfig.nrLocalPages →
      ((closePages t S.heap).localPbuckets t).getLast? =
        some ((closePages t S.heap).threads t).lastPbucket :=
  have taken : PageExchange.Run pairConfig 2 () _ := .step (.get 1) .init (by decide) rfl
  have written : PageExchange.Run pairConfig 2 () _ :=
    .step (.write 65536 255) taken (by decide +kernel) rfl
  have back : PageExchange.Run pairConfig 2 () _ := .step (.add 0 4) written (by decide +kernel) rfl
  ⟨_, by decide +kernel, pages_conserved back⟩

end CompactFit
