import CompactFit.PagePoolLaws

/-!
The pool `init_free_pages_list` builds: all pages, in full buckets on the global stack,
the last page on top.
-/

namespace CompactFit
open Function ByteMemory LinkedChain

section PagePool
variable {π : Type}

/-- The loop of `init_free_pages_list` at page number `p`: `bs` are the buckets on
the stack and `cur` the pages linked so far for the next one. -/
private structure Filling (cfg : Config) (h : Heap π) (bs : List (List Nat)) (cur : List Nat)
    (p mp : Nat) : Prop where
  shared : Chain (nextLink h.memory) h.freePageHead (bs.map bucketAddress) 0
  bucket : ∀ b, b ∈ bs →
    b.length = cfg.nrLocalPages ∧ Chain (localLink h.memory) (bucketAddress b) (b.map pageAddress) 0
  current : Chain (localLink h.memory) mp (cur.map pageAddress) 0
  order : cur ++ bs.flatten = (List.range' cfg.firstPage (p - cfg.firstPage)).reverse
  flags : ∀ q, (h.pages q).listFlags = .free ↔ cfg.firstPage ≤ q ∧ q < p
  threads : ∀ t, h.threads t =
    { pagesCount := 0, pages := 0, pbucketsCount := 0, pbuckets := 0, lastPbucket := 0 }

private theorem Filling.nodup {cfg : Config} {h : Heap π} {bs : List (List Nat)} {cur : List Nat}
    {p mp : Nat} (ok : Filling cfg h bs cur p mp) : (cur ++ bs.flatten).Nodup := by
  rw [ok.order]
  exact List.nodup_reverse.mpr List.nodup_range'

private theorem Filling.done {cfg : Config} {h : Heap π} {bs : List (List Nat)} {cur : List Nat}
    {p mp : Nat} (ok : Filling cfg h bs cur p mp) (q : Nat) :
    q ∈ cur ++ bs.flatten ↔ cfg.firstPage ≤ q ∧ q < p := by
  rw [ok.order, List.mem_reverse, List.mem_range'_1]
  omega

private theorem chainStart_bound (cfg : Config) {link : Nat → Nat} {a : Nat} {l : List Nat}
    (chain : Chain link a (l.map pageAddress) 0)
    (heap : ∀ q, q ∈ l → cfg.firstPage ≤ q ∧ q < cfg.firstPage + cfg.nrPages) :
    a < 4294967296 := by
  cases l with
  | nil => simp only [List.map_nil, chain_nil] at chain; omega
  | cons q l =>
      have bounds := pageAddress_bounds (heap q List.mem_cons_self)
      simp only [List.map_cons, chain_cons, pageSize] at chain bounds
      omega

/-- One round links page `p` in front of the open bucket. -/
private theorem Filling.link {cfg : Config} {h : Heap π} {bs : List (List Nat)} {cur : List Nat}
    {p mp : Nat} (ok : Filling cfg h bs cur p mp) (lo : cfg.firstPage ≤ p)
    (hi : p ≤ cfg.firstPage + cfg.nrPages) :
    Filling cfg
      ((h.modifyPage p fun pg => { pg with listFlags := .free }).writeMemory (pageAddress p + 4) mp)
      bs (p :: cur) (p + 1) (pageAddress p) := by
  have fresh : ∀ q, q ∈ cur ++ bs.flatten → q ≠ p := by
    intro q mem eq
    have := (ok.done q).mp mem
    omega
  have startLt : mp < 4294967296 := chainStart_bound cfg ok.current fun q mem => by
    have := (ok.done q).mp (List.mem_append_left _ mem)
    omega
  constructor
  · refine chain_congr ?_ ok.shared
    intro y hy
    obtain ⟨b, hb, rfl⟩ := List.mem_map.mp hy
    have ne : b ≠ [] := by
      rintro rfl
      exact absurd (ok.bucket [] hb).1 (Nat.ne_of_lt cfg.nrLocalPages_pos)
    obtain ⟨q, b, rfl⟩ := List.exists_cons_of_ne_nil ne
    exact nextLink_writeLocal _ _ _ _
  · intro b hb
    refine ⟨(ok.bucket b hb).1, chain_congr ?_ (ok.bucket b hb).2⟩
    intro y hy
    obtain ⟨q, hq, rfl⟩ := List.mem_map.mp hy
    refine localLink_writeLocal _ _ (fresh q (List.mem_append_right _ ?_))
    exact List.mem_flatten.mpr ⟨b, hb, hq⟩
  · have own : localLink (writeWord h.memory (pageAddress p + 4) mp) (pageAddress p) = mp :=
      readWord_writeWord _ _ startLt
    simp only [List.map_cons, chain_cons, Heap.writeMemory, Heap.modifyPage_memory, own,
      true_and]
    refine chain_congr ?_ ok.current
    intro y hy
    obtain ⟨q, hq, rfl⟩ := List.mem_map.mp hy
    exact localLink_writeLocal _ _ (fresh q (List.mem_append_left _ hq))
  · rw [List.cons_append, ok.order, show p + 1 - cfg.firstPage = p - cfg.firstPage + 1 by omega,
      List.range'_concat, List.reverse_append, show cfg.firstPage + 1 * (p - cfg.firstPage) = p by
        omega]
    rfl
  · intro q
    by_cases hq : q = p
    · subst hq; simpa [Heap.writeMemory] using lo
    · simp only [Heap.writeMemory, Heap.modifyPage_other _ _ hq, ok.flags q]
      omega
  · exact ok.threads

/-- A complete bucket goes onto the stack. -/
private theorem Filling.push {cfg : Config} {h : Heap π} {bs : List (List Nat)} {cur : List Nat}
    {p q : Nat} (ok : Filling cfg h bs (q :: cur) p (pageAddress q))
    (full : (q :: cur).length = cfg.nrLocalPages) (hi : p ≤ cfg.firstPage + cfg.nrPages) :
    Filling cfg (pagePut (pageAddress q) (pageAddress q) h) ((q :: cur) :: bs) [] p 0 := by
  have fresh : ∀ r, r ∈ bs.flatten → r ≠ q := by
    intro r mem eq
    subst eq
    exact (List.nodup_append.mp ok.nodup).2.2 r List.mem_cons_self r mem rfl
  have ne : ∀ b, b ∈ bs → b ≠ [] := by
    rintro b hb rfl
    exact absurd (ok.bucket [] hb).1 (Nat.ne_of_lt cfg.nrLocalPages_pos)
  have headLt : h.freePageHead < 4294967296 := by
    cases hbs : bs with
    | nil =>
        have chain := ok.shared
        simp only [hbs, List.map_nil, chain_nil] at chain
        omega
    | cons b bs' =>
        obtain ⟨r, b', rfl⟩ := List.exists_cons_of_ne_nil (ne b (by simp [hbs]))
        have chain := ok.shared
        simp only [hbs, List.map_cons, chain_cons, bucketAddress] at chain
        have mem := (ok.done r).mp (List.mem_append_right _ (by simp [hbs]))
        have bounds := pageAddress_bounds (show cfg.firstPage ≤ r ∧ _ from ⟨mem.1, by omega⟩)
        simp only [pageSize] at bounds
        omega
  constructor
  · have own : nextLink (writeWord h.memory (pageAddress q) h.freePageHead) (pageAddress q) =
        h.freePageHead := nextLink_writeNext_self _ _ headLt
    simp only [pagePut, Heap.writeMemory, List.map_cons, chain_cons, bucketAddress, own, true_and]
    refine chain_next_writeNext (fun b hb => ⟨ne b hb, fun eq => ?_⟩) ok.shared
    obtain ⟨r, b', rfl⟩ := List.exists_cons_of_ne_nil (ne b hb)
    exact fresh r (List.mem_flatten.mpr ⟨_, hb, List.mem_cons_self⟩) (pageAddress_inj eq)
  · intro b hb
    rcases List.mem_cons.mp hb with rfl | hb
    · exact ⟨full, chain_local_writeNext ok.current⟩
    · exact ⟨(ok.bucket b hb).1, chain_local_writeNext (ok.bucket b hb).2⟩
  · rfl
  · simpa using ok.order
  · exact ok.flags
  · exact ok.threads

private theorem initFreePagesLoop_filling {cfg : Config} (n : Nat) {h : Heap π}
    {bs : List (List Nat)} {cur : List Nat} {p mp : Nat} (ok : Filling cfg h bs cur p mp)
    (lo : cfg.firstPage ≤ p) (last : p + n = cfg.firstPage + cfg.nrPages)
    (open_lt : cur.length < cfg.nrLocalPages) (whole : cfg.nrLocalPages ∣ cur.length + n) :
    ∃ bs', Filling cfg (initFreePagesLoop cfg n p cur.length mp h) bs' [] (p + n) 0 := by
  induction n generalizing h bs cur p mp with
  | zero =>
      have none : cur = [] := by
        rw [← List.length_eq_zero_iff]
        exact Nat.eq_zero_of_dvd_of_lt whole open_lt
      subst none
      have start : mp = 0 := ok.current
      subst start
      exact ⟨bs, ok⟩
  | succ n ih =>
      have linked := ok.link lo (by omega)
      simp only [initFreePagesLoop, open_lt, if_true]
      rw [show p + (n + 1) = p + 1 + n by omega]
      split
      next full =>
        have pushed := linked.push (by simpa using full) (by omega)
        refine ih pushed (by omega) (by omega) cfg.nrLocalPages_pos ?_
        rw [show cur.length + (n + 1) = n + cfg.nrLocalPages by omega] at whole
        simpa using (Nat.dvd_add_left (Nat.dvd_refl _)).mp whole
      next notFull =>
        refine ih linked (by omega) (by omega) ?_ ?_
        · simp only [List.length_cons]; omega
        · simpa [Nat.add_assoc, Nat.add_comm 1] using whole

private theorem initFreePagesLoop_same (cfg : Config) (n p j mp : Nat) (h : Heap π) :
    (initFreePagesLoop cfg n p j mp h).classes = h.classes ∧
      (initFreePagesLoop cfg n p j mp h).addresses = h.addresses ∧
      ∀ q, ∃ f, (f = (h.pages q).listFlags ∨ f = .free) ∧
        (initFreePagesLoop cfg n p j mp h).pages q = { h.pages q with listFlags := f } := by
  induction n generalizing p j mp h with
  | zero => exact ⟨rfl, rfl, fun q => ⟨_, .inl rfl, rfl⟩⟩
  | succ n ih =>
      have step : ∀ (g : Heap π), g.classes = h.classes → g.addresses = h.addresses →
          (∀ q, ∃ f, (f = (h.pages q).listFlags ∨ f = .free) ∧
            g.pages q = { h.pages q with listFlags := f }) → ∀ j mp,
          (initFreePagesLoop cfg n (p + 1) j mp g).classes = h.classes ∧
            (initFreePagesLoop cfg n (p + 1) j mp g).addresses = h.addresses ∧
            ∀ q, ∃ f, (f = (h.pages q).listFlags ∨ f = .free) ∧
              (initFreePagesLoop cfg n (p + 1) j mp g).pages q =
                { h.pages q with listFlags := f } := by
        intro g classes addresses pages j mp
        obtain ⟨c, a, pgs⟩ := ih (p + 1) j mp g
        refine ⟨c.trans classes, a.trans addresses, fun q => ?_⟩
        obtain ⟨f, kind, hf⟩ := pgs q
        obtain ⟨f', kind', hf'⟩ := pages q
        refine ⟨f, ?_, by rw [hf, hf']⟩
        rcases kind with rfl | rfl
        · rw [hf']
          exact kind'
        · exact .inr rfl
      have flagged : ∀ q, ∃ f, (f = (h.pages q).listFlags ∨ f = .free) ∧
          (h.modifyPage p fun pg => { pg with listFlags := .free }).pages q =
            { h.pages q with listFlags := f } := by
        intro q
        by_cases hq : q = p
        · subst hq; exact ⟨.free, .inr rfl, by simp⟩
        · exact ⟨(h.pages q).listFlags, .inl rfl, by simp [hq]⟩
      simp only [initFreePagesLoop]
      split <;> split <;> refine step _ ?_ ?_ ?_ _ _ <;> first | rfl | exact flagged

/-- The pool in which all free pages are in the buckets `bs` of the global stack. -/
def stackedPages (bs : List (List Nat)) : BucketPool.Pool Nat Nat :=
  { locals := fun _ => { items := [], buckets := [] }, shared := bs }

/-- After `cf_init` every page is in the pool, the last page on top, and nothing else is
set up. -/
theorem initHeap_pool (cfg : Config) (addresses : π) :
    ∃ bs, PoolOk cfg (initHeap cfg addresses) (stackedPages bs) ∧
      bs.flatten = (List.range' cfg.firstPage cfg.nrPages).reverse := by
  let h : Heap π :=
    { pages := fun _ =>
        { nrUsedPageBlocks := 0, listFlags := .none, sourceentries := 0, sc := 0,
          usedPageBlockBitmap := .empty }
      memory := fun _ => 0
      classes := fun _ =>
        { lists := fun _ => [], nfullentries := 0, maxNfullentries := 0, sourceentries := 0,
          maxSourceentries := 0, nrPages := 0, maxNrPages := 0 }
      freePageHead := 0
      threads := fun _ =>
        { pagesCount := 0, pages := 0, pbucketsCount := 0, pbuckets := 0, lastPbucket := 0 }
      addresses := addresses }
  have start : Filling cfg h [] [] cfg.firstPage 0 := by
    refine ⟨rfl, by simp, rfl, by simp, ?_, fun _ => rfl⟩
    intro q
    simp [h]
  obtain ⟨bs, ok⟩ := initFreePagesLoop_filling cfg.nrPages start le_rfl rfl cfg.nrLocalPages_pos
    (by simpa using cfg.nrPages_buckets)
  have eq : initHeap cfg addresses = initFreePagesLoop cfg cfg.nrPages cfg.firstPage 0 0 h := rfl
  simp only [List.length_nil] at ok
  rw [eq]
  have order := ok.order
  rw [List.nil_append, Nat.add_sub_cancel_left] at order
  refine ⟨bs, ⟨⟨?_, ?_, ?_, ?_, ?_, ok.shared, ?_⟩, ?_, ?_, fun p => (ok.flags p).mp⟩, order⟩
  · intro t; rw [ok.threads t]; rfl
  · intro t; rw [ok.threads t]; rfl
  · intro t; rw [ok.threads t]; rfl
  · intro t; rw [ok.threads t]; rfl
  · intro t bs' b none
    simp [stackedPages] at none
  · rintro b (mem | ⟨t, mem⟩)
    · exact (ok.bucket b mem).2
    · simp [stackedPages] at mem
  · exact BucketPool.wellFormed_of_shared (fun _ => ⟨rfl, rfl⟩) (fun b mem => (ok.bucket b mem).1)
      (by simpa [stackedPages] using ok.nodup)
  · intro p
    rw [ok.flags p, ← ok.done p]
    simp [BucketPool.Pool.Holds, stackedPages, BucketPool.Local.elems]

theorem initHeap_spec (cfg : Config) (addresses : π) :
    (∃ P, PoolOk cfg (initHeap cfg addresses) P) ∧
      (∀ p, ((initHeap cfg addresses).pages p).listFlags = .free ↔
        cfg.firstPage ≤ p ∧ p < cfg.firstPage + cfg.nrPages) ∧
      (∀ p, ∃ f, (f = .none ∨ f = .free) ∧ (initHeap cfg addresses).pages p =
        { nrUsedPageBlocks := 0, listFlags := f, sourceentries := 0, sc := 0,
          usedPageBlockBitmap := .empty }) ∧
      (∀ c, (initHeap cfg addresses).classes c =
        { lists := fun _ => [], nfullentries := 0, maxNfullentries := 0, sourceentries := 0,
          maxSourceentries := 0, nrPages := 0, maxNrPages := 0 }) ∧
      (initHeap cfg addresses).addresses = addresses := by
  obtain ⟨bs, ok, order⟩ := initHeap_pool cfg addresses
  obtain ⟨classes, addrs, pages⟩ := initFreePagesLoop_same cfg cfg.nrPages cfg.firstPage 0 0 _
  refine ⟨⟨_, ok⟩, fun p => ?_, pages, congrFun classes, addrs⟩
  rw [← ok.holds p, ← List.mem_range'_1, ← List.mem_reverse, ← order]
  simp [BucketPool.Pool.Holds, stackedPages, BucketPool.Local.elems]

end PagePool
end CompactFit
