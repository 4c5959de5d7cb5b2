import CompactFit.PagePool

/-!
The operations on the pool of free pages are those of the bucketed pool: `get_free_page`
takes what the bucketed pool gives, and `add_free_page` returns one page to it.
-/

namespace CompactFit
open Function ByteMemory LinkedChain

section PagePool
variable {π : Type}

/-- The pointers of one thread and the links in `m` represent its pages and buckets. -/
structure LocalRep (m : Memory) (d : ThreadPages) (l : BucketPool.Local Nat) : Prop where
  pagesCount : d.pagesCount = l.items.length
  pages : Chain (localLink m) d.pages (l.items.map pageAddress) 0
  pbucketsCount : d.pbucketsCount = l.buckets.length
  pbuckets : Chain (nextLink m) d.pbuckets (l.buckets.map bucketAddress) 0
  lastPbucket : ∀ bs b, l.buckets = bs ++ [b] → d.lastPbucket = bucketAddress b

theorem LocalRep.congr {m m' : Memory} {d : ThreadPages} {l : BucketPool.Local Nat}
    (ok : LocalRep m d l)
    (items : ∀ p, p ∈ l.items → localLink m' (pageAddress p) = localLink m (pageAddress p))
    (buckets : ∀ b, b ∈ l.buckets →
      nextLink m' (bucketAddress b) = nextLink m (bucketAddress b)) : LocalRep m' d l := by
  refine ⟨ok.pagesCount, chain_congr (fun x hx => ?_) ok.pages, ok.pbucketsCount,
    chain_congr (fun x hx => ?_) ok.pbuckets, ok.lastPbucket⟩
  · obtain ⟨p, hp, rfl⟩ := List.mem_map.mp hx
    exact items p hp
  · obtain ⟨b, hb, rfl⟩ := List.mem_map.mp hx
    exact buckets b hb

section Rep
variable {h h' : Heap π} {P P' : BucketPool.Pool Nat Nat} {t : Nat}

theorem PoolRep.locals (rep : PoolRep h P) (t : Nat) :
    LocalRep h.memory (h.threads t) (P.locals t) :=
  ⟨rep.pagesCount t, rep.pages t, rep.pbucketsCount t, rep.pbuckets t, rep.lastPbucket t⟩

theorem PoolRep.of_locals (locals : ∀ t, LocalRep h.memory (h.threads t) (P.locals t))
    (shared : Chain (nextLink h.memory) h.freePageHead (P.shared.map bucketAddress) 0)
    (bucket : ∀ b, P.IsBucket b →
      Chain (localLink h.memory) (bucketAddress b) (b.map pageAddress) 0) : PoolRep h P :=
  ⟨fun t => (locals t).pagesCount, fun t => (locals t).pages, fun t => (locals t).pbucketsCount,
    fun t => (locals t).pbuckets, fun t => (locals t).lastPbucket, shared,
    fun b hb => bucket b hb.symm⟩

/-- The links of the pool are the only memory it depends on. -/
theorem PoolRep.congr (rep : PoolRep h P)
    (items : ∀ p, P.Holds p →
      localLink h'.memory (pageAddress p) = localLink h.memory (pageAddress p))
    (buckets : ∀ b, P.IsBucket b →
      nextLink h'.memory (bucketAddress b) = nextLink h.memory (bucketAddress b))
    (threads : h'.threads = h.threads) (head : h'.freePageHead = h.freePageHead) :
    PoolRep h' P := by
  refine .of_locals (fun s => ?_) ?_ fun b hb => chain_congr (fun x hx => ?_) (rep.bucket b hb.symm)
  · rw [threads]
    exact (rep.locals s).congr (fun p hp => items p (.inl ⟨s, List.mem_append_left _ hp⟩))
      fun b hb => buckets b (.inl ⟨s, hb⟩)
  · rw [head]
    refine chain_congr (fun x hx => ?_) rep.shared
    obtain ⟨b, hb, rfl⟩ := List.mem_map.mp hx
    exact buckets b (.inr hb)
  · obtain ⟨p, hp, rfl⟩ := List.mem_map.mp hx
    exact items p (BucketPool.isBucket_holds hb hp)

theorem PoolRep.openLocal (rep : PoolRep h P) {n : Nat} {b : List Nat} {buckets : List (List Nat)}
    (hb : (P.locals t).buckets = b :: buckets) (len : b.length = n) :
    PoolRep (h.modifyThread t fun d =>
        { d with
          pages := d.pbuckets
          pagesCount := n
          pbuckets := readWord h.memory d.pbuckets
          pbucketsCount := d.pbucketsCount - 1 })
      (P.setLocal t { items := b, buckets := buckets }) := by
  have mine := rep.locals t
  have chain := mine.pbuckets
  rw [hb, List.map_cons, chain_cons] at chain
  have count := mine.pbucketsCount
  rw [hb, List.length_cons] at count
  refine .of_locals (BucketPool.forall_clients t ?_ fun s hs => ?_) rep.shared fun c hc => ?_
  · rw [BucketPool.setLocal_same]
    refine ⟨by simpa [Heap.modifyThread] using len.symm, ?_, by simp [Heap.modifyThread, count],
      ?_, fun bs c eq => ?_⟩
    · simpa [Heap.modifyThread, chain.1] using rep.bucket b (.inr ⟨t, by simp [hb]⟩)
    · simpa [Heap.modifyThread, chain.1, nextLink] using chain.2
    · have last := mine.lastPbucket (b :: bs) c (by rw [hb, show buckets = bs ++ [c] from eq]; rfl)
      simpa [Heap.modifyThread] using last
  · simpa [Heap.modifyThread, hs] using rep.locals s
  · refine rep.bucket c (BucketPool.isBucket_of_setLocal (fun d mem => ?_) (fun d => .inr) hc).symm
    exact .inl ⟨t, by rw [hb]; exact List.mem_cons_of_mem _ mem⟩

/-- A thread without local pages and buckets opens the top of the global stack. -/
theorem PoolRep.openShared (rep : PoolRep h P) (hb : (P.locals t).buckets = []) {n : Nat}
    {b : List Nat} {shared : List (List Nat)} (hs : P.shared = b :: shared) (len : b.length = n) :
    h.freePageHead = bucketAddress b ∧
    PoolRep { h.modifyThread t fun d => { d with pagesCount := n, pages := h.freePageHead } with
        freePageHead := readWord h.memory h.freePageHead }
      { P.setLocal t { items := b, buckets := [] } with shared := shared } := by
  have mine := rep.locals t
  have chain := rep.shared
  rw [hs, List.map_cons, chain_cons] at chain
  have count := mine.pbucketsCount
  have buckets := mine.pbuckets
  rw [hb] at count buckets
  refine ⟨chain.1, .of_locals (BucketPool.forall_clients t ?_ fun s ne => ?_) ?_ fun c hc => ?_⟩
  · simp only [BucketPool.setLocal_same]
    refine ⟨by simpa [Heap.modifyThread] using len.symm, ?_,
      by simpa [Heap.modifyThread] using count,
      by simpa [Heap.modifyThread] using buckets, fun bs c eq => ?_⟩
    · simpa [Heap.modifyThread, chain.1] using rep.bucket b (.inl (by simp [hs]))
    · simp at eq
  · simpa [Heap.modifyThread, ne] using rep.locals s
  · simpa [Heap.modifyThread, chain.1, nextLink] using chain.2
  · refine rep.bucket c (BucketPool.isBucket_of_setLocal (fun d mem => ?_)
      (fun d mem => ?_) hc).symm
    · cases mem
    · exact .inr (by rw [hs]; exact List.mem_cons_of_mem _ mem)

theorem PoolRep.pop (rep : PoolRep h P) {p : Nat} {items : List Nat}
    (hi : (P.locals t).items = p :: items) :
    (h.threads t).pages = pageAddress p ∧
    PoolRep (h.modifyThread t fun d =>
        { d with
          pages := readWord h.memory ((h.threads t).pages + 4)
          pagesCount := d.pagesCount - 1 })
      (P.setLocal t { P.locals t with items := items }) := by
  have mine := rep.locals t
  have chain := mine.pages
  rw [hi, List.map_cons, chain_cons] at chain
  have count := mine.pagesCount
  rw [hi, List.length_cons] at count
  refine ⟨chain.1, .of_locals (BucketPool.forall_clients t ?_ fun s hs => ?_) rep.shared
    fun c hc => rep.bucket c (BucketPool.isBucket_items.mp hc).symm⟩
  · rw [BucketPool.setLocal_same]
    refine ⟨by simp [Heap.modifyThread, count], ?_, by simpa [Heap.modifyThread] using
      mine.pbucketsCount, by simpa [Heap.modifyThread] using mine.pbuckets, ?_⟩
    · simpa [Heap.modifyThread, chain.1, localLink] using chain.2
    · simpa [Heap.modifyThread] using mine.lastPbucket
  · simpa [Heap.modifyThread, hs] using rep.locals s

/-- A page that links to the local pages of a thread becomes the first of them. -/
theorem PoolRep.push (rep : PoolRep h P) {p : Nat}
    (link : localLink h.memory (pageAddress p) = (h.threads t).pages) :
    PoolRep (h.modifyThread t fun d =>
        { d with pages := pageAddress p, pagesCount := d.pagesCount + 1 })
      (BucketPool.push t p P) := by
  have mine := rep.locals t
  refine .of_locals (BucketPool.forall_clients t ?_ fun s hs => ?_) rep.shared
    fun c hc => rep.bucket c (BucketPool.isBucket_items.mp hc).symm
  · rw [BucketPool.push, BucketPool.setLocal_same]
    refine ⟨by simp [Heap.modifyThread, mine.pagesCount], ?_, by simpa [Heap.modifyThread] using
      mine.pbucketsCount, by simpa [Heap.modifyThread] using mine.pbuckets, ?_⟩
    · simpa [Heap.modifyThread, link] using mine.pages
    · simpa [Heap.modifyThread] using mine.lastPbucket
  · simpa [Heap.modifyThread, BucketPool.push, hs] using rep.locals s

end Rep

private theorem mem_elems_bucket {l : BucketPool.Local Nat} {p : Nat} {items : List Nat}
    (h : p :: items ∈ l.buckets) : p ∈ l.elems := by
  simp only [BucketPool.Local.elems, List.mem_append, List.mem_flatten]
  exact .inr ⟨_, h, List.mem_cons_self⟩

theorem PoolOk.bucket_ne_nil {cfg : Config} {h : Heap π} {P : BucketPool.Pool Nat Nat}
    (ok : PoolOk cfg h P) {b : List Nat} (hb : b ∈ P.shared ∨ ∃ t, b ∈ (P.locals t).buckets) :
    b ≠ [] := by
  rintro rfl
  exact absurd (BucketPool.isBucket_length ok.wellFormed hb.symm)
    (Nat.ne_of_lt cfg.nrLocalPages_pos)

/-- The refill step opens the bucket that the bucketed pool opens and touches nothing but the
pool's own pointers. -/
private theorem refillPages_spec {cfg : Config} {t : Nat} {h : Heap π}
    {P : BucketPool.Pool Nat Nat} (ok : PoolOk cfg h P) :
    (BucketPool.refill t P = none ∧ refillPages cfg t h = none) ∨
    ∃ P1 threads head, BucketPool.refill t P = some P1 ∧
      refillPages cfg t h = some { h with threads := threads, freePageHead := head } ∧
      PoolRep { h with threads := threads, freePageHead := head } P1 := by
  have rep := ok.rep
  have count := rep.pagesCount t
  have bcount := rep.pbucketsCount t
  cases hr : BucketPool.refill t P with
  | none =>
      obtain ⟨hi, hb, hs⟩ := BucketPool.refill_none hr
      have head : h.freePageHead = 0 := by
        have chain := rep.shared
        rwa [hs] at chain
      refine .inl ⟨rfl, ?_⟩
      simp [refillPages, count, hi, bcount, hb, pageGet, head]
  | some P1 =>
      refine .inr ?_
      rcases BucketPool.refill_cases hr with ⟨rfl, some⟩ |
        ⟨hi, b, ⟨buckets, hb, rfl⟩ | ⟨shared, hb, hs, rfl⟩⟩
      · refine ⟨_, h.threads, h.freePageHead, rfl, ?_, rep⟩
        simp [refillPages, count, some]
      · refine ⟨_, _, h.freePageHead, rfl, ?_,
          rep.openLocal hb (ok.wellFormed.bucket_length t b (by simp [hb]))⟩
        simp [refillPages, count, hi, bcount, hb, Heap.modifyThread]
      · obtain ⟨first, rep'⟩ := rep.openShared (t := t) hb hs
          (ok.wellFormed.shared_length b (by simp [hs]))
        obtain ⟨p, items, rfl⟩ := List.exists_cons_of_ne_nil (ok.bucket_ne_nil (b := b)
          (.inl (by simp [hs])))
        have free := (ok.holds p).mp (.inr (by simp [hs]))
        have bounds := pageAddress_bounds (ok.inHeap p free)
        have nonzero : h.freePageHead ≠ 0 := by
          rw [first]
          exact Nat.ne_of_gt bounds.1
        refine ⟨_, _, _, rfl, ?_, rep'⟩
        simp [refillPages, count, hi, bcount, hb, pageGet, nonzero, Heap.modifyThread]

/-- `get_free_page` takes one page out of the pool or leaves the heap as it is;
it writes no memory. -/
theorem getFreePage_spec {cfg : Config} (t : Nat) {h : Heap π} {P : BucketPool.Pool Nat Nat}
    (ok : PoolOk cfg h P) :
    (getFreePage cfg t h = .ok (none, h) ∧ BucketPool.get t P = none) ∨
    ∃ p P' threads head, getFreePage cfg t h = .ok (some p,
        { h.modifyPage p fun pg => { pg with listFlags := .none } with
          threads := threads, freePageHead := head }) ∧
      (h.pages p).listFlags = .free ∧
      PoolOk cfg { h.modifyPage p fun pg => { pg with listFlags := .none } with
        threads := threads, freePageHead := head } P' ∧ BucketPool.get t P = some (p, P') := by
  rcases refillPages_spec (t := t) ok with ⟨none, refill⟩ | ⟨P1, threads, head, opened, refill, rep⟩
  · exact .inl ⟨by simp [getFreePage, refill], BucketPool.get_of_refill_none none⟩
  · obtain ⟨p, items, hi⟩ :=
      BucketPool.exists_of_refill cfg.nrLocalPages_pos ok.wellFormed opened
    have get := BucketPool.get_of_refill opened hi
    obtain ⟨wf, held, holds⟩ := BucketPool.get_spec ok.wellFormed get
    have flag := (ok.holds p).mp held
    have pos := (pageAddress_bounds (ok.inHeap p flag)).1
    obtain ⟨first, rep'⟩ := rep.pop hi
    have nonzero : (threads t).pages ≠ 0 := by rw [first]; omega
    have page : pageOfBlock (threads t).pages = p := by rw [first, pageOfBlock_pageAddress]
    refine .inr ⟨p, P1.setLocal t { P1.locals t with items := items }, update threads t
      { threads t with
        pages := readWord h.memory ((threads t).pages + 4)
        pagesCount := (threads t).pagesCount - 1 }, head, ?_, flag,
      ⟨rep'.congr (fun _ _ => rfl) (fun _ _ => rfl) rfl rfl, wf, fun q => ?_, fun q => ?_⟩, get⟩
    · simp [getFreePage, refill, nonzero, page, flag, Heap.modifyThread, Heap.modifyPage, ensure,
        bind, Except.bind, pure, Except.pure]
    · rw [holds q, ok.holds q]
      by_cases hq : q = p
      · subst hq; simp
      · simp [hq]
    · by_cases hq : q = p
      · subst hq; simp
      · simpa [hq] using ok.inHeap q

/-- The links of the free pages are the only memory the pool depends on. -/
theorem poolOk_congr {cfg : Config} {h h' : Heap π} {P : BucketPool.Pool Nat Nat}
    (ok : PoolOk cfg h P)
    (flags : ∀ p, (h'.pages p).listFlags = .free ↔ (h.pages p).listFlags = .free)
    (links : ∀ p, (h.pages p).listFlags = .free → AgreeOn h.memory h'.memory (pageAddress p) 8)
    (threads : h'.threads = h.threads) (head : h'.freePageHead = h.freePageHead) :
    PoolOk cfg h' P := by
  refine ⟨ok.rep.congr (fun p held => ?_) (fun b hb => ?_) threads head, ok.wellFormed,
    fun p => (ok.holds p).trans (flags p).symm, fun p free => ok.inHeap p ((flags p).mp free)⟩
  · exact (links p ((ok.holds p).mp held)).readWord (by omega) (by omega)
  · obtain ⟨p, b, rfl⟩ := List.exists_cons_of_ne_nil (ok.bucket_ne_nil hb.symm)
    have free := (ok.holds p).mp (BucketPool.isBucket_holds hb List.mem_cons_self)
    exact (links p free).readWord le_rfl (by simp only [bucketAddress]; omega)

theorem nextLink_writeNext_self (m : Memory) (q : Nat) {w : Nat} (hw : w < 4294967296) :
    nextLink (writeWord m (pageAddress q) w) (pageAddress q) = w :=
  readWord_writeWord m _ hw

theorem pageAddress_inj {p q : Nat} (h : pageAddress p = pageAddress q) : p = q :=
  Nat.eq_of_mul_eq_mul_right (by decide : 0 < pageSize) h

theorem chain_local_writeNext {m : Memory} {q w x e : Nat} {l : List Nat}
    (h : Chain (localLink m) x (l.map pageAddress) e) :
    Chain (localLink (writeWord m (pageAddress q) w)) x (l.map pageAddress) e := by
  refine chain_congr ?_ h
  intro y hy
  obtain ⟨p, _, rfl⟩ := List.mem_map.mp hy
  exact localLink_writeNext _ _ _ _

theorem chain_next_writeNext {m : Memory} {q w x e : Nat} {bs : List (List Nat)}
    (apart : ∀ b, b ∈ bs → b ≠ [] ∧ bucketAddress b ≠ pageAddress q)
    (h : Chain (nextLink m) x (bs.map bucketAddress) e) :
    Chain (nextLink (writeWord m (pageAddress q) w)) x (bs.map bucketAddress) e := by
  refine chain_congr ?_ h
  intro y hy
  obtain ⟨b, hb, rfl⟩ := List.mem_map.mp hy
  obtain ⟨p, b, rfl⟩ := List.exists_cons_of_ne_nil (apart b hb).1
  exact nextLink_writeNext _ _ (fun eq => (apart _ hb).2 (by rw [eq]; rfl))

theorem bucketAddresses_nodup {bs : List (List Nat)} (ne : ∀ b, b ∈ bs → b ≠ [])
    (nodup : bs.flatten.Nodup) : (bs.map bucketAddress).Nodup := by
  induction bs with
  | nil => simp
  | cons b bs ih =>
      rw [List.flatten_cons, List.nodup_append] at nodup
      obtain ⟨_, rest, apart⟩ := nodup
      rw [List.map_cons, List.nodup_cons]
      refine ⟨?_, ih (fun c hc => ne c (List.mem_cons_of_mem _ hc)) rest⟩
      intro mem
      obtain ⟨c, hc, eq⟩ := List.mem_map.mp mem
      obtain ⟨p, b, rfl⟩ := List.exists_cons_of_ne_nil (ne b List.mem_cons_self)
      obtain ⟨q, c, rfl⟩ := List.exists_cons_of_ne_nil (ne c (List.mem_cons_of_mem _ hc))
      have same : q = p := pageAddress_inj eq
      subst same
      exact apart q List.mem_cons_self q (List.mem_flatten.mpr ⟨_, hc, List.mem_cons_self⟩) rfl

namespace PoolOk
variable {cfg : Config} {h : Heap π} {P : BucketPool.Pool Nat Nat}

theorem free_of_local (ok : PoolOk cfg h P) {t p : Nat} (mem : p ∈ (P.locals t).elems) :
    (h.pages p).listFlags = .free := (ok.holds p).mp (.inl ⟨t, mem⟩)

theorem bucket_inHeap (ok : PoolOk cfg h P) {b : List Nat}
    (hb : b ∈ P.shared ∨ ∃ t, b ∈ (P.locals t).buckets) {p : Nat} (hp : p ∈ b) :
    cfg.firstPage ≤ p ∧ p < cfg.firstPage + cfg.nrPages := by
  refine ok.inHeap p ((ok.holds p).mp ?_)
  rcases hb with hb | ⟨t, hb⟩
  · exact .inr (List.mem_flatten.mpr ⟨b, hb, hp⟩)
  · exact .inl ⟨t, List.mem_append_right _ (List.mem_flatten.mpr ⟨b, hb, hp⟩)⟩

theorem chainStart_lt (ok : PoolOk cfg h P) {link : Nat → Nat} {a : Nat} {bs : List (List Nat)}
    (hbs : ∀ b, b ∈ bs → b ∈ P.shared ∨ ∃ t, b ∈ (P.locals t).buckets)
    (chain : Chain link a (bs.map bucketAddress) 0) : a < 4294967296 := by
  cases bs with
  | nil =>
      simp only [List.map_nil, chain_nil] at chain
      omega
  | cons b bs =>
      have hb := hbs b List.mem_cons_self
      obtain ⟨p, b, rfl⟩ := List.exists_cons_of_ne_nil (ok.bucket_ne_nil hb)
      have bounds := pageAddress_bounds (ok.bucket_inHeap hb (p := p) List.mem_cons_self)
      have start : a = pageAddress p := chain.1
      simp only [pageSize] at bounds
      omega

end PoolOk

/-- Only a free page changes when one of its link words is written. -/
private theorem writeLink_frame {h : Heap π} {q w a x : Nat}
    (free : (h.pages q).listFlags = .free) (link : x = pageAddress q ∨ x = pageAddress q + 4)
    (used : (h.pages (a / pageSize)).listFlags ≠ .free) :
    writeWord h.memory x w a = h.memory a := by
  refine writeWord_of_outside _ ?_
  by_contra inside
  apply used
  have page : a / pageSize = q := by
    simp only [pageAddress, pageSize] at inside link ⊢
    omega
  rwa [page]

/-- Writing the `next` link of page `q` leaves the links of the buckets without `q`. -/
private theorem PoolOk.next_same {cfg : Config} {h : Heap π} {P : BucketPool.Pool Nat Nat}
    (ok : PoolOk cfg h P) {q w : Nat} {b : List Nat} (hb : P.IsBucket b) (apart : q ∉ b) :
    nextLink (writeWord h.memory (pageAddress q) w) (bucketAddress b) =
      nextLink h.memory (bucketAddress b) := by
  obtain ⟨p, b, rfl⟩ := List.exists_cons_of_ne_nil (ok.bucket_ne_nil hb.symm)
  exact nextLink_writeNext _ _ fun eq => apart (eq ▸ List.mem_cons_self)

theorem closePages_spec {cfg : Config} {t : Nat} {h : Heap π}
    {P : BucketPool.Pool Nat Nat} (ok : PoolOk cfg h P)
    (full : (P.locals t).items.length = cfg.nrLocalPages) :
    PoolOk cfg (closePages t h) (BucketPool.closeBucket t P) ∧
      ∀ a, (h.pages (a / pageSize)).listFlags ≠ .free →
        (closePages t h).memory a = h.memory a := by
  have mine := ok.rep.locals t
  have nonempty : (P.locals t).items ≠ [] := by
    intro eq
    rw [eq] at full
    exact absurd full (Nat.ne_of_lt cfg.nrLocalPages_pos)
  obtain ⟨p, items, hitems⟩ := List.exists_cons_of_ne_nil nonempty
  have here : p ∈ (P.locals t).items := by simp [hitems]
  have pages : (h.threads t).pages = pageAddress p := by
    have chain := mine.pages
    rw [hitems, List.map_cons, chain_cons] at chain
    exact chain.1
  generalize hm : writeWord h.memory (pageAddress p) (h.threads t).pbuckets = m
  have memory : (closePages t h).memory = m := by
    simp [closePages, Heap.modifyThread, Heap.writeMemory, pages, hm]
  have kept : PoolRep { h with memory := m } P := by
    refine ok.rep.congr (fun q _ => ?_) (fun b hb => ?_) rfl rfl <;> rw [← hm]
    · exact localLink_writeNext _ _ _ _
    · exact ok.next_same hb (BucketPool.not_mem_bucket ok.wellFormed here hb)
  have link : nextLink m (pageAddress p) = (h.threads t).pbuckets := by
    rw [← hm]
    exact nextLink_writeNext_self _ _ (ok.chainStart_lt (fun b hb => .inr ⟨t, hb⟩) mine.pbuckets)
  refine ⟨⟨.of_locals (BucketPool.forall_clients t ?_ fun s hs => ?_) ?_ fun b hb => ?_,
    BucketPool.wellFormed_closeBucket ok.wellFormed full, fun q => ?_, ok.inHeap⟩, fun a used => ?_⟩
  · rw [BucketPool.closeBucket, BucketPool.setLocal_same, memory]
    refine ⟨by simp [closePages, Heap.modifyThread], by simp [closePages, Heap.modifyThread],
      by simp [closePages, Heap.modifyThread, Heap.writeMemory, mine.pbucketsCount], ?_,
      fun bs b eq => ?_⟩
    · simpa [closePages, Heap.modifyThread, Heap.writeMemory, hitems, bucketAddress, pages, link]
        using (kept.locals t).pbuckets
    · have first : bs = [] → bucketAddress b = pageAddress p := by
        rintro rfl
        rw [← (List.cons.inj eq).1, hitems]
        rfl
      cases bs with
      | nil =>
          have zero := mine.pbucketsCount
          rw [(List.cons.inj eq).2, List.length_nil] at zero
          simp [closePages, Heap.modifyThread, Heap.writeMemory, zero, pages, first]
      | cons c bs =>
          have tail : (P.locals t).buckets = bs ++ [b] := (List.cons.inj eq).2
          have some : (h.threads t).pbucketsCount ≠ 0 := by simp [mine.pbucketsCount, tail]
          simpa [closePages, Heap.modifyThread, Heap.writeMemory, some] using
            mine.lastPbucket bs b tail
  · rw [memory]
    simpa [closePages, Heap.modifyThread, Heap.writeMemory, BucketPool.closeBucket, hs] using
      kept.locals s
  · rw [memory]
    exact kept.shared
  · rw [memory]
    rcases (BucketPool.isBucket_closeBucket t P b).mp hb with rfl | old
    · have chain := (kept.locals t).pages
      rw [show ({ h with memory := m } : Heap π).threads = h.threads from rfl, pages] at chain
      rw [hitems] at chain ⊢
      exact chain
    · exact kept.bucket b old.symm
  · rw [show (BucketPool.closeBucket t P).Holds q ↔ P.Holds q from
      BucketPool.holds_closeBucket t P q]
    exact ok.holds q
  · rw [memory, ← hm]
    exact writeLink_frame (ok.free_of_local (List.mem_append_left _ here)) (.inl rfl) used

private theorem sharePages_spec {cfg : Config} {t : Nat} {h : Heap π}
    {P : BucketPool.Pool Nat Nat} (ok : PoolOk cfg h P) (some : (P.locals t).buckets ≠ []) :
    PoolOk cfg (sharePages t h) (BucketPool.share t P) ∧
      ∀ a, (h.pages (a / pageSize)).listFlags ≠ .free →
        (sharePages t h).memory a = h.memory a := by
  have rep := ok.rep
  obtain ⟨bs, b, split⟩ : ∃ bs b, (P.locals t).buckets = bs ++ [b] :=
    ⟨_, _, (List.dropLast_append_getLast some).symm⟩
  obtain ⟨nodup, elsewhere⟩ := BucketPool.buckets_apart cfg.nrLocalPages_pos ok.wellFormed t
  have hb : b ∈ (P.locals t).buckets := by rw [split]; simp
  obtain ⟨q, b, rfl⟩ := List.exists_cons_of_ne_nil (ok.bucket_ne_nil (.inr ⟨t, hb⟩))
  have last : (h.threads t).lastPbucket = pageAddress q := rep.lastPbucket t bs _ split
  generalize hm : writeWord h.memory (pageAddress q) h.freePageHead = m
  have memory : (sharePages t h).memory = m := by
    simp [sharePages, pagePut, Heap.modifyThread, Heap.writeMemory, last, hm]
  have pagesSame : ∀ p, localLink m (pageAddress p) = localLink h.memory (pageAddress p) :=
    fun p => by rw [← hm]; exact localLink_writeNext _ _ _ _
  have next : ∀ c, P.IsBucket c → c ≠ q :: b →
      nextLink m (bucketAddress c) = nextLink h.memory (bucketAddress c) := by
    intro c hc ne
    rw [← hm]
    exact ok.next_same hc fun mem =>
      ne (BucketPool.bucket_eq ok.wellFormed hc (.inl ⟨t, hb⟩) mem List.mem_cons_self)
  have front : ∀ c, c ∈ bs → c ≠ q :: b := by
    rintro c hc rfl
    rw [split, List.nodup_append] at nodup
    exact nodup.2.2 _ hc _ (List.mem_singleton_self _) rfl
  refine ⟨⟨.of_locals (BucketPool.forall_clients t ?_ fun s hs => ?_) ?_ fun c hc => ?_,
    BucketPool.wellFormed_share ok.wellFormed, fun r => ?_, ok.inHeap⟩, fun a used => ?_⟩
  · have mine := rep.locals t
    simp only [BucketPool.share, BucketPool.setLocal_same, memory]
    refine ⟨?_, ?_, by simp [sharePages, Heap.modifyThread],
      by simp [sharePages, Heap.modifyThread], by simp⟩
    · simpa [sharePages, pagePut, Heap.modifyThread, Heap.writeMemory] using mine.pagesCount
    · refine chain_congr (fun x hx => ?_) (by
        simpa [sharePages, pagePut, Heap.modifyThread, Heap.writeMemory] using mine.pages)
      obtain ⟨p, _, rfl⟩ := List.mem_map.mp hx
      exact pagesSame p
  · have other := (rep.locals s).congr (fun p _ => pagesSame p) fun c hc =>
      next c (.inl ⟨s, hc⟩) (elsewhere _ hb c (.inr ⟨s, hs, hc⟩))
    rw [memory]
    simpa [sharePages, pagePut, Heap.modifyThread, Heap.writeMemory, BucketPool.share, hs] using
      other
  · -- the last bucket of the thread is redirected to the old top of the stack
    rw [memory]
    have chain := rep.pbuckets t
    rw [split, List.map_append, List.map_cons, List.map_nil] at chain
    have redirected := chain_redirect (nextLink m) (fun x hx => by
      obtain ⟨c, hc, rfl⟩ := List.mem_map.mp hx
      exact next c (.inl ⟨t, by rw [split]; simp [hc]⟩) (front c hc)) chain
    have link : nextLink m (bucketAddress (q :: b)) = h.freePageHead := by
      rw [← hm]
      exact nextLink_writeNext_self _ _ (ok.chainStart_lt (fun b hb => .inl hb) rep.shared)
    rw [link] at redirected
    simp only [BucketPool.share, split, List.map_append, List.map_cons, List.map_nil]
    refine chain_append.mpr ⟨_, redirected, chain_congr (fun x hx => ?_) rep.shared⟩
    obtain ⟨c, hc, rfl⟩ := List.mem_map.mp hx
    exact next c (.inr hc) (elsewhere _ hb c (.inl hc))
  · rw [memory]
    refine chain_congr (fun x hx => ?_)
      (rep.bucket c ((BucketPool.isBucket_share t P c).mp hc).symm)
    obtain ⟨p, _, rfl⟩ := List.mem_map.mp hx
    exact pagesSame p
  · rw [show (BucketPool.share t P).Holds r ↔ P.Holds r from BucketPool.holds_share t P r]
    exact ok.holds r
  · rw [memory, ← hm]
    exact writeLink_frame (ok.free_of_local (mem_elems_bucket hb)) (.inl rfl) used

/-- What the spilling steps share: page flags, classes and addresses stay, and so
does the memory of every page that is not free. -/
private theorem spillPages_spec {cfg : Config} {t : Nat} {h : Heap π}
    {P : BucketPool.Pool Nat Nat} (ok : PoolOk cfg h P) :
    PoolOk cfg (spillPages cfg t h)
        (BucketPool.spill cfg.nrLocalPages cfg.nrLocalPbuckets t P) ∧
      ∀ a, (h.pages (a / pageSize)).listFlags ≠ .free →
        (spillPages cfg t h).memory a = h.memory a := by
  have count := ok.rep.pagesCount t
  by_cases full : (P.locals t).items.length = cfg.nrLocalPages
  · obtain ⟨closed, frame⟩ := closePages_spec ok full
    have bcount := closed.rep.pbucketsCount t
    have buckets : ((BucketPool.closeBucket t P).locals t).buckets.length =
        (P.locals t).buckets.length + 1 := by simp [BucketPool.closeBucket]
    by_cases many : cfg.nrLocalPbuckets ≤ (P.locals t).buckets.length + 1
    · have some : ((BucketPool.closeBucket t P).locals t).buckets ≠ [] := by
        simp [BucketPool.closeBucket]
      obtain ⟨shared, frame'⟩ := sharePages_spec closed some
      have spilled : spillPages cfg t h = sharePages t (closePages t h) := by
        simp [spillPages, count, full, bcount, buckets, many]
      have abstractly : BucketPool.spill cfg.nrLocalPages cfg.nrLocalPbuckets t P =
          BucketPool.share t (BucketPool.closeBucket t P) := by
        simp [BucketPool.spill, full, many]
      rw [spilled, abstractly]
      exact ⟨shared, fun a used => (frame' a used).trans (frame a used)⟩
    · have spilled : spillPages cfg t h = closePages t h := by
        simp [spillPages, count, full, bcount, buckets, many]
      have abstractly : BucketPool.spill cfg.nrLocalPages cfg.nrLocalPbuckets t P =
          BucketPool.closeBucket t P := by
        simp [BucketPool.spill, full, many]
      rw [spilled, abstractly]
      exact ⟨closed, frame⟩
  · have spilled : spillPages cfg t h = h := by simp [spillPages, count, full]
    have abstractly : BucketPool.spill cfg.nrLocalPages cfg.nrLocalPbuckets t P = P := by
      simp [BucketPool.spill, full]
    rw [spilled, abstractly]
    exact ⟨ok, fun _ _ => rfl⟩

theorem spillPages_same (cfg : Config) (t : Nat) (h : Heap π) :
    (spillPages cfg t h).pages = h.pages ∧ (spillPages cfg t h).classes = h.classes ∧
      (spillPages cfg t h).addresses = h.addresses := by
  simp only [spillPages]
  split
  · split <;> exact ⟨rfl, rfl, rfl⟩
  · exact ⟨rfl, rfl, rfl⟩

/-- `add_free_page` puts one unlisted heap page into the pool and writes only
into free pages. -/
theorem addFreePage_spec {cfg : Config} (t : Nat) {p : Nat} {h : Heap π}
    {P : BucketPool.Pool Nat Nat} (ok : PoolOk cfg h P) (off : (h.pages p).listFlags = .none)
    (heap : cfg.firstPage ≤ p ∧ p < cfg.firstPage + cfg.nrPages) :
    ∃ h', addFreePage cfg t p h = .ok h' ∧
      PoolOk cfg h' (BucketPool.put cfg.nrLocalPages cfg.nrLocalPbuckets t p P) ∧
      h'.pages = update h.pages p { h.pages p with listFlags := .free } ∧
      h'.classes = h.classes ∧ h'.addresses = h.addresses ∧
      ∀ a, (h'.pages (a / pageSize)).listFlags ≠ .free → h'.memory a = h.memory a := by
  obtain ⟨spilled, frame⟩ := spillPages_spec (t := t) ok
  obtain ⟨samePages, sameClasses, sameAddresses⟩ := spillPages_same cfg t h
  have pos := cfg.firstPage_pos
  have nonzero : p ≠ 0 := by omega
  have room : ((BucketPool.spill cfg.nrLocalPages cfg.nrLocalPbuckets t P).locals t).items.length <
      cfg.nrLocalPages := BucketPool.spill_room _ cfg.nrLocalPages_pos ok.wellFormed
  have notHeld : ¬ (BucketPool.spill cfg.nrLocalPages cfg.nrLocalPbuckets t P).Holds p := by
    rw [spilled.holds p, samePages, off]
    exact fun eq => by cases eq
  obtain ⟨wf, holds⟩ := BucketPool.push_spec spilled.wellFormed room notHeld
  generalize hs : spillPages cfg t h = s at spilled frame samePages sameClasses sameAddresses
  generalize hQ : BucketPool.spill cfg.nrLocalPages cfg.nrLocalPbuckets t P = Q
    at spilled room notHeld wf holds
  rw [BucketPool.put, hQ]
  have rep := spilled.rep
  have startLt : (s.threads t).pages < 4294967296 := by
    have chain := rep.pages t
    cases items : (Q.locals t).items with
    | nil =>
        simp only [items, List.map_nil, chain_nil] at chain
        omega
    | cons q rest =>
        simp only [items, List.map_cons, chain_cons] at chain
        have held : Q.Holds q := .inl ⟨t, List.mem_append_left _ (by simp [items])⟩
        have bounds := pageAddress_bounds (spilled.inHeap q ((spilled.holds q).mp held))
        have start := chain.1
        simp only [pageSize] at bounds
        omega
  generalize hm : writeWord s.memory (pageAddress p + 4) (s.threads t).pages = m
  have kept : PoolRep { s with
      pages := update s.pages p { s.pages p with listFlags := .free }, memory := m } Q := by
    refine rep.congr (fun q held => ?_) (fun b hb => ?_) rfl rfl <;> rw [← hm]
    · exact localLink_writeLocal _ _ fun eq => notHeld (eq ▸ held)
    · obtain ⟨q, b, rfl⟩ := List.exists_cons_of_ne_nil (spilled.bucket_ne_nil hb.symm)
      exact nextLink_writeLocal _ _ _ _
  have link : localLink m (pageAddress p) = (s.threads t).pages := by
    rw [← hm]
    exact readWord_writeWord _ _ startLt
  refine ⟨_, ?_, ⟨kept.push (t := t) link, wf, fun q => ?_, fun q => ?_⟩, ?_, sameClasses,
    sameAddresses, fun a used => ?_⟩
  · simp [addFreePage, ensure, nonzero, off, hs, bind, Except.bind, pure, Except.pure, ← hm,
      Heap.modifyPage, Heap.modifyThread, Heap.writeMemory]
  · rw [holds q, spilled.holds q]
    by_cases hq : q = p
    · subst hq; simp [Heap.modifyThread]
    · simp [Heap.modifyThread, hq]
  · by_cases hq : q = p
    · subst hq; exact fun _ => heap
    · simpa [Heap.modifyThread, hq] using spilled.inHeap q
  · simp only [Heap.modifyThread, samePages]
  · by_cases ha : a / pageSize = p
    · simp [Heap.modifyThread, ha] at used
    · have outside : m a = s.memory a := by
        rw [← hm]
        refine writeWord_of_outside _ ?_
        simp only [pageAddress, pageSize] at ha ⊢
        omega
      simp only [Heap.modifyThread, update_of_ne ha] at used
      exact outside.trans (frame a (by rwa [samePages] at used))

end PagePool
end CompactFit
