import CompactFit.AddressBuckets

/-!
The pool of free abstract addresses is a bucketed pool of identifiers, and the empty
buckets are a bucketed pool of their own: a thread keeps one chain and exchanges whole
chains. An empty bucket is missing only when the other threads hold at least two.
-/

namespace CompactFit
open Function LinkedChain

namespace AddressBuckets

abbrev Ids := BucketPool.Pool Nat Nat

def nextOf (σ : AddressBuckets) (b : Nat) : Nat := (σ.aaBuckets b).next
def localOf (σ : AddressBuckets) (b : Nat) : Nat := (σ.aaBuckets b).localWord

@[simp] theorem modifyThread_nextOf (σ : AddressBuckets) (t : Nat)
    (f : ThreadAddresses → ThreadAddresses) : (σ.modifyThread t f).nextOf = σ.nextOf := rfl

@[simp] theorem modifyThread_localOf (σ : AddressBuckets) (t : Nat)
    (f : ThreadAddresses → ThreadAddresses) : (σ.modifyThread t f).localOf = σ.localOf := rfl

def firstOf (chain : List Nat) : Nat := chain.headD 0

/-- The identifiers and full buckets of a thread; `cell` names the bucket that holds a list
of identifiers. -/
structure FullLocal (space next : Nat → Nat) (cell : List Nat → Nat) (d : ThreadAddresses)
    (l : BucketPool.Local Nat) : Prop where
  aasCount : d.aasCount = l.items.length
  aas : ∃ e, Chain space d.aas l.items e
  abucketsCount : d.abucketsCount = l.buckets.length
  abuckets : ∃ e, Chain next d.abuckets (l.buckets.map cell) e
  lastAbucket : ∀ bs b, l.buckets = bs ++ [b] → d.lastAbucket = cell b

/-- The links represent the pool `P` of free identifiers. -/
structure FullRep (σ : AddressBuckets) (P : Ids) (cell : List Nat → Nat) : Prop where
  locals : ∀ t, FullLocal σ.aaSpace σ.nextOf cell (σ.threads t) (P.locals t)
  shared : Chain σ.nextOf σ.freeAaHead (P.shared.map cell) 0
  bucket : ∀ b, P.IsBucket b → ∃ e, Chain σ.aaSpace (σ.localOf (cell b)) b e

structure EmptyLocal (link : Nat → Nat) (d : ThreadAddresses) (l : BucketPool.Local Nat) :
    Prop where
  count : d.freeAbucketsCount = l.items.length
  chain : ∃ e, Chain link d.freeAbuckets l.items e
  noBuckets : l.buckets = []

/-- The links represent the pool `Q` of empty buckets. -/
structure EmptyRep (σ : AddressBuckets) (Q : Ids) : Prop where
  locals : ∀ t, EmptyLocal σ.localOf (σ.threads t) (Q.locals t)
  shared : Chain σ.nextOf σ.freeAaBucketsHead (Q.shared.map firstOf) 0
  bucket : ∀ b, b ∈ Q.shared → ∃ e, Chain σ.localOf (firstOf b) b e

/-- Every bucket is either empty or filled with one list of free identifiers. -/
structure Ledger (cfg : AddressConfig) (T : Nat) (P Q : Ids) (cell : List Nat → Nat) : Prop where
  full : BucketPool.WellFormed cfg.nrLocalAas P
  empty : BucketPool.WellFormed cfg.nrLocalFreeAbuckets Q
  idle : ∀ t, T ≤ t → (P.locals t).elems = [] ∧ (Q.locals t).elems = []
  held : ∀ id, P.Holds id → id < cfg.nrAas
  cell_range : ∀ b, P.IsBucket b → 1 ≤ cell b ∧ cell b ≤ cfg.nrAaBuckets
  empty_range : ∀ m, Q.Holds m → 1 ≤ m ∧ m ≤ cfg.nrAaBuckets
  apart : ∀ b, P.IsBucket b → ¬ Q.Holds (cell b)
  inj : ∀ b b', P.IsBucket b → P.IsBucket b' → cell b = cell b' → b = b'
  complete : ∀ m, 1 ≤ m → m ≤ cfg.nrAaBuckets → Q.Holds m ∨ ∃ b, P.IsBucket b ∧ cell b = m

section Frames
variable {σ σ' : AddressBuckets} {P Q : Ids} {cell : List Nat → Nat} {t : Nat}

theorem FullLocal.congr {space space' next next' : Nat → Nat} {d d' : ThreadAddresses}
    {l : BucketPool.Local Nat} (ok : FullLocal space next cell d l)
    (items : ∀ id, id ∈ l.items → space' id = space id)
    (cells : ∀ b, b ∈ l.buckets → next' (cell b) = next (cell b))
    (fields : d'.aasCount = d.aasCount ∧ d'.aas = d.aas ∧ d'.abucketsCount = d.abucketsCount ∧
      d'.abuckets = d.abuckets ∧ d'.lastAbucket = d.lastAbucket) :
    FullLocal space' next' cell d' l := by
  obtain ⟨count, aas, bcount, abuckets, last⟩ := fields
  obtain ⟨e, chain⟩ := ok.aas
  obtain ⟨e', chain'⟩ := ok.abuckets
  refine ⟨count ▸ ok.aasCount, ⟨e, ?_⟩, bcount ▸ ok.abucketsCount, ⟨e', ?_⟩, ?_⟩
  · rw [aas]
    exact chain_congr items chain
  · rw [abuckets]
    refine chain_congr (fun x hx => ?_) chain'
    obtain ⟨b, hb, rfl⟩ := List.mem_map.mp hx
    exact cells b hb
  · rw [last]
    exact ok.lastAbucket

/-- Only the links of the held identifiers and of the full buckets matter. -/
theorem FullRep.congr (rep : FullRep σ P cell)
    (space : ∀ id, P.Holds id → σ'.aaSpace id = σ.aaSpace id)
    (cells : ∀ b, P.IsBucket b → σ'.aaBuckets (cell b) = σ.aaBuckets (cell b))
    (head : σ'.freeAaHead = σ.freeAaHead)
    (fields : ∀ s, (σ'.threads s).aasCount = (σ.threads s).aasCount ∧
      (σ'.threads s).aas = (σ.threads s).aas ∧
      (σ'.threads s).abucketsCount = (σ.threads s).abucketsCount ∧
      (σ'.threads s).abuckets = (σ.threads s).abuckets ∧
      (σ'.threads s).lastAbucket = (σ.threads s).lastAbucket) : FullRep σ' P cell := by
  have next : ∀ b, P.IsBucket b → σ'.nextOf (cell b) = σ.nextOf (cell b) :=
    fun b hb => congrArg BucketCell.next (cells b hb)
  refine ⟨fun s => (rep.locals s).congr ?_ (fun b hb => next b (.inl ⟨s, hb⟩)) (fields s),
    ?_, fun b hb => ?_⟩
  · exact fun id mem => space id (.inl ⟨s, List.mem_append_left _ mem⟩)
  · rw [head]
    refine chain_congr (fun x hx => ?_) rep.shared
    obtain ⟨b, hb, rfl⟩ := List.mem_map.mp hx
    exact next b (.inr hb)
  · obtain ⟨e, chain⟩ := rep.bucket b hb
    refine ⟨e, ?_⟩
    rw [show σ'.localOf (cell b) = σ.localOf (cell b) from
      congrArg BucketCell.localWord (cells b hb)]
    exact chain_congr (fun id mem => space id (BucketPool.isBucket_holds hb mem)) chain

theorem EmptyLocal.congr {link link' : Nat → Nat} {d d' : ThreadAddresses}
    {l : BucketPool.Local Nat} (ok : EmptyLocal link d l)
    (items : ∀ m, m ∈ l.items → link' m = link m)
    (fields : d'.freeAbucketsCount = d.freeAbucketsCount ∧ d'.freeAbuckets = d.freeAbuckets) :
    EmptyLocal link' d' l := by
  obtain ⟨e, chain⟩ := ok.chain
  refine ⟨fields.1 ▸ ok.count, ⟨e, ?_⟩, ok.noBuckets⟩
  rw [fields.2]
  exact chain_congr items chain

theorem firstOf_mem {size : Nat} (pos : 0 < size) {b : List Nat} (len : b.length = size) :
    firstOf b ∈ b := by
  cases b with
  | nil => exact absurd len (Nat.ne_of_lt pos)
  | cons m b => exact List.mem_cons_self

/-- Only the links of the empty buckets matter. -/
theorem EmptyRep.congr {size : Nat} (pos : 0 < size) (wf : BucketPool.WellFormed size Q)
    (rep : EmptyRep σ Q) (cells : ∀ m, Q.Holds m → σ'.aaBuckets m = σ.aaBuckets m)
    (head : σ'.freeAaBucketsHead = σ.freeAaBucketsHead)
    (fields : ∀ s, (σ'.threads s).freeAbucketsCount = (σ.threads s).freeAbucketsCount ∧
      (σ'.threads s).freeAbuckets = (σ.threads s).freeAbuckets) : EmptyRep σ' Q := by
  have link : ∀ m, Q.Holds m → σ'.localOf m = σ.localOf m :=
    fun m held => congrArg BucketCell.localWord (cells m held)
  refine ⟨fun s => (rep.locals s).congr ?_ (fields s), ?_, fun b hb => ?_⟩
  · exact fun m mem => link m (.inl ⟨s, List.mem_append_left _ mem⟩)
  · rw [head]
    refine chain_congr (fun x hx => ?_) rep.shared
    obtain ⟨b, hb, rfl⟩ := List.mem_map.mp hx
    exact congrArg BucketCell.next (cells _ (BucketPool.isBucket_holds (.inr hb)
      (firstOf_mem pos (wf.shared_length b hb))))
  · obtain ⟨e, chain⟩ := rep.bucket b hb
    exact ⟨e, chain_congr (fun m mem => link m (BucketPool.isBucket_holds (.inr hb) mem)) chain⟩

end Frames

/-! ### The steps of `get_free_aa` -/

section Get
variable {cfg : AddressConfig} {T t : Nat} {σ : AddressBuckets} {P P' Q : Ids}
  {cell : List Nat → Nat}

theorem FullRep.openLocal (rep : FullRep σ P cell) {b : List Nat} {buckets : List (List Nat)}
    (hb : (P.locals t).buckets = b :: buckets) (len : b.length = cfg.nrLocalAas) :
    (σ.threads t).abuckets = cell b ∧
    FullRep (installAas cfg t (cell b) (σ.modifyThread t fun d =>
        { d with abuckets := (σ.aaBuckets (cell b)).next, abucketsCount := d.abucketsCount - 1 }))
      (P.setLocal t { items := b, buckets := buckets }) cell := by
  have mine := rep.locals t
  obtain ⟨e, chain⟩ := mine.abuckets
  rw [hb, List.map_cons, chain_cons] at chain
  obtain ⟨e', ids⟩ := rep.bucket b (.inl ⟨t, by simp [hb]⟩)
  have count := mine.abucketsCount
  rw [hb, List.length_cons] at count
  refine ⟨chain.1, BucketPool.forall_clients t ?_ fun s hs => ?_, rep.shared, fun c hc => ?_⟩
  · rw [BucketPool.setLocal_same]
    refine ⟨?_, ⟨e', ?_⟩, ?_, ⟨e, ?_⟩, fun bs c eq => ?_⟩
    · simpa [installAas] using len.symm
    · simpa [installAas, localOf] using ids
    · simp [installAas, count]
    · simpa [installAas, nextOf] using chain.2
    · have last := mine.lastAbucket (b :: bs) c (by rw [hb, show buckets = bs ++ [c] from eq]; rfl)
      simpa [installAas] using last
  · simpa [installAas, hs] using rep.locals s
  · refine rep.bucket c (BucketPool.isBucket_of_setLocal (fun b mem => ?_) (fun b => .inr) hc)
    exact .inl ⟨t, by rw [hb]; exact List.mem_cons_of_mem _ mem⟩

/-- A thread without identifiers and full buckets opens the top of the global stack. -/
theorem FullRep.openShared (rep : FullRep σ P cell) (hb : (P.locals t).buckets = [])
    {b : List Nat} {shared : List (List Nat)}
    (hs : P.shared = b :: shared) (len : b.length = cfg.nrLocalAas) :
    σ.freeAaHead = cell b ∧
    FullRep (installAas cfg t (cell b) { σ with freeAaHead := (σ.aaBuckets (cell b)).next })
      { P.setLocal t { items := b, buckets := [] } with shared := shared } cell := by
  have mine := rep.locals t
  have chain := rep.shared
  rw [hs, List.map_cons, chain_cons] at chain
  obtain ⟨e, ids⟩ := rep.bucket b (.inr (by simp [hs]))
  have count := mine.abucketsCount
  rw [hb] at count
  refine ⟨chain.1, BucketPool.forall_clients t ?_ fun s hs => ?_, chain.2, fun c hc => ?_⟩
  · simp only [BucketPool.setLocal_same]
    refine ⟨?_, ⟨e, ?_⟩, ?_, ⟨_, rfl⟩, fun bs c eq => ?_⟩
    · simpa [installAas] using len.symm
    · simpa [installAas, localOf] using ids
    · simpa [installAas] using count
    · simp at eq
  · change FullLocal σ.aaSpace σ.nextOf cell _ _
    simpa [installAas, hs] using rep.locals s
  · refine rep.bucket c (BucketPool.isBucket_of_setLocal (fun b mem => ?_) (fun b mem => ?_) hc)
    · cases mem
    · exact .inr (by rw [hs]; exact List.mem_cons_of_mem _ mem)

theorem FullRep.pop (rep : FullRep σ P cell) {id : Nat} {items : List Nat}
    (hi : (P.locals t).items = id :: items) :
    (σ.threads t).aas = id ∧
    FullRep (σ.modifyThread t fun d =>
        { d with aas := σ.aaSpace (σ.threads t).aas, aasCount := d.aasCount - 1 })
      (P.setLocal t { P.locals t with items := items }) cell := by
  have mine := rep.locals t
  obtain ⟨e, chain⟩ := mine.aas
  rw [hi, chain_cons] at chain
  have count := mine.aasCount
  rw [hi, List.length_cons] at count
  refine ⟨chain.1, BucketPool.forall_clients t ?_ fun s hs => ?_, rep.shared, fun c hc => ?_⟩
  · rw [BucketPool.setLocal_same]
    refine ⟨by simp [count], ⟨e, ?_⟩, by simpa using mine.abucketsCount, ?_, ?_⟩
    · simpa [chain.1] using chain.2
    · simpa using mine.abuckets
    · simpa using mine.lastAbucket
  · simpa [hs] using rep.locals s
  · exact rep.bucket c (BucketPool.isBucket_items.mp hc)

theorem spill_chain {f : Nat} (noBuckets : (Q.locals t).buckets = []) :
    BucketPool.spill f 1 t Q = if (Q.locals t).items.length = f then
      { Q.setLocal t { items := [], buckets := [] } with
        shared := (Q.locals t).items :: Q.shared } else Q := by
  simp [BucketPool.spill, BucketPool.share, BucketPool.closeBucket, noBuckets,
    BucketPool.Pool.setLocal]

theorem EmptyRep.share (rep : EmptyRep σ Q)
    (wf : BucketPool.WellFormed cfg.nrLocalFreeAbuckets Q) :
    EmptyRep (shareFreeAbuckets cfg t σ) (BucketPool.spill cfg.nrLocalFreeAbuckets 1 t Q) := by
  have mine := rep.locals t
  have le := wf.items_le t
  rw [spill_chain mine.noBuckets, shareFreeAbuckets]
  by_cases full : (Q.locals t).items.length = cfg.nrLocalFreeAbuckets
  · rw [if_pos full, if_pos (by rw [mine.count]; omega)]
    cases hm : (Q.locals t).items with
    | nil =>
        rw [hm] at full
        exact absurd full (Nat.ne_of_lt cfg.nrLocalFreeAbuckets_pos)
    | cons m items =>
        obtain ⟨e, chain⟩ := mine.chain
        have first : (σ.threads t).freeAbuckets = m := by
          rw [hm, chain_cons] at chain
          exact chain.1
        rw [first]
        -- only the `next` word of the first bucket changes
        have link : ∀ x, localOf ((aaBucketPut m m σ).modifyThread t fun d =>
            { d with freeAbuckets := 0, freeAbucketsCount := 0 }) x = σ.localOf x := by
          intro x
          simp only [localOf, modifyThread_aaBuckets, aaBucketPut, modifyBucket]
          by_cases hx : x = m
          · subst hx
            simp
          · simp [hx]
        have fresh : ∀ b, b ∈ Q.shared → firstOf b ≠ m := by
          rintro b hb rfl
          exact wf.apart_shared t (firstOf b)
            (List.mem_append_left _ (by rw [hm]; exact List.mem_cons_self))
            (List.mem_flatten.mpr ⟨b, hb,
              firstOf_mem cfg.nrLocalFreeAbuckets_pos (wf.shared_length b hb)⟩)
        refine ⟨BucketPool.forall_clients t ?_ fun s hs => ?_, ?_, ?_⟩
        · simp only [BucketPool.setLocal_same]
          exact ⟨by simp, ⟨_, rfl⟩, rfl⟩
        · simp only [BucketPool.setLocal_other _ _ hs]
          exact (rep.locals s).congr (fun x _ => link x) (by simp [aaBucketPut, hs])
        · refine ⟨rfl, ?_⟩
          have head : nextOf ((aaBucketPut m m σ).modifyThread t fun d =>
              { d with freeAbuckets := 0, freeAbucketsCount := 0 }) (firstOf (m :: items)) =
              σ.freeAaBucketsHead := by
            simp [nextOf, aaBucketPut, firstOf]
          rw [head]
          refine chain_congr (fun x hx => ?_) rep.shared
          obtain ⟨b, hb, rfl⟩ := List.mem_map.mp hx
          simp [nextOf, aaBucketPut, fresh b hb]
        · intro b hb
          rcases List.mem_cons.mp hb with rfl | hb
          · refine ⟨e, chain_congr (fun x _ => link x) ?_⟩
            rw [hm, first] at chain
            exact chain
          · obtain ⟨e', chain'⟩ := rep.bucket b hb
            exact ⟨e', chain_congr (fun x _ => link x) chain'⟩
  · rw [if_neg full, if_neg (by rw [mine.count]; omega)]
    exact rep

/-- The thread keeps an emptied bucket in front of its chain. -/
theorem EmptyRep.push {maa f : Nat} (wf : BucketPool.WellFormed f Q) (pos : 0 < f)
    (rep : EmptyRep σ Q) (fresh : ¬ Q.Holds maa) :
    EmptyRep ((σ.modifyBucket maa fun m =>
        { m with localWord := (σ.threads t).freeAbuckets }).modifyThread t fun d =>
          { d with freeAbuckets := maa, freeAbucketsCount := d.freeAbucketsCount + 1 })
      (BucketPool.push t maa Q) := by
  have mine := rep.locals t
  obtain ⟨e, chain⟩ := mine.chain
  have link : ∀ x, Q.Holds x → localOf ((σ.modifyBucket maa fun m =>
      { m with localWord := (σ.threads t).freeAbuckets }).modifyThread t fun d =>
        { d with freeAbuckets := maa, freeAbucketsCount := d.freeAbucketsCount + 1 }) x =
      σ.localOf x := by
    intro x held
    have ne : x ≠ maa := fun eq => fresh (eq ▸ held)
    simp [localOf, ne]
  have inShared : ∀ b, b ∈ Q.shared → ∀ x, x ∈ b → Q.Holds x :=
    fun b hb x hx => BucketPool.isBucket_holds (.inr hb) hx
  refine ⟨BucketPool.forall_clients t ?_ fun s hs => ?_, ?_, ?_⟩
  · simp only [BucketPool.push, BucketPool.setLocal_same]
    refine ⟨by simp [mine.count], ⟨e, by simp, ?_⟩, mine.noBuckets⟩
    refine chain_congr (fun x hx => link x (.inl ⟨t, List.mem_append_left _ hx⟩)) ?_
    simpa [localOf] using chain
  · simp only [BucketPool.push, BucketPool.setLocal_other _ _ hs]
    exact (rep.locals s).congr (fun x hx => link x (.inl ⟨s, List.mem_append_left _ hx⟩))
      (by simp [hs])
  · refine chain_congr (fun x hx => ?_) rep.shared
    obtain ⟨b, hb, rfl⟩ := List.mem_map.mp hx
    have ne : firstOf b ≠ maa := by
      rintro rfl
      exact fresh (inShared b hb _ (firstOf_mem pos (wf.shared_length b hb)))
    simp [nextOf, ne]
  · intro b hb
    obtain ⟨e', chain'⟩ := rep.bucket b hb
    exact ⟨e', chain_congr (fun x hx => link x (inShared b hb x hx)) chain'⟩

theorem keepBucket_spec {maa : Nat} (full : FullRep σ P cell) (rep : EmptyRep σ Q)
    (wf : BucketPool.WellFormed cfg.nrLocalFreeAbuckets Q) (fresh : ¬ Q.Holds maa)
    (apart : ∀ b, P.IsBucket b → cell b ≠ maa ∧ ¬ Q.Holds (cell b)) :
    FullRep (keepBucket cfg t maa σ) P cell ∧
    EmptyRep (keepBucket cfg t maa σ) (BucketPool.put cfg.nrLocalFreeAbuckets 1 t maa Q) := by
  have shared := rep.share (t := t) wf
  have wf' := BucketPool.wellFormed_spill 1 t wf
  have fresh' : ¬ (BucketPool.spill cfg.nrLocalFreeAbuckets 1 t Q).Holds maa :=
    fun held => fresh ((BucketPool.holds_spill _ _ t Q maa).mp held)
  refine ⟨?_, shared.push wf' cfg.nrLocalFreeAbuckets_pos fresh'⟩
  have given : FullRep (shareFreeAbuckets cfg t σ) P cell := by
    rw [shareFreeAbuckets]
    split
    next filled =>
      have mine := rep.locals t
      obtain ⟨e, chain⟩ := mine.chain
      have held : Q.Holds (σ.threads t).freeAbuckets := by
        have pos := cfg.nrLocalFreeAbuckets_pos
        have count := mine.count
        cases hm : (Q.locals t).items with
        | nil => simp [hm] at count; omega
        | cons m items =>
            rw [hm, chain_cons] at chain
            exact .inl ⟨t, List.mem_append_left _ (by rw [hm, chain.1]; exact List.mem_cons_self)⟩
      refine full.congr (fun _ _ => rfl) (fun b hb => ?_) rfl
        (BucketPool.forall_clients t ?_ fun s hs => ?_)
      · have ne : cell b ≠ (σ.threads t).freeAbuckets := fun eq => (apart b hb).2 (eq ▸ held)
        simp [aaBucketPut, ne]
      · simp [aaBucketPut]
      · simp [aaBucketPut, hs]
    next => exact full
  refine given.congr (fun _ _ => rfl) (fun b hb => ?_) rfl
    (BucketPool.forall_clients t ?_ fun s hs => ?_)
  · simp [keepBucket, (apart b hb).1]
  · simp [keepBucket]
  · simp [keepBucket, hs]

/-- Opening a bucket empties it, for the thread itself or another client to keep. -/
theorem Ledger.openBucket (ledger : Ledger cfg T P Q cell) (ht : t < T) {u : Nat} (hu : u < T)
    (hi : (P.locals t).items = []) (refill : BucketPool.refill t P = some P') :
    P.IsBucket (P'.locals t).items ∧ ¬ Q.Holds (cell (P'.locals t).items) ∧
    Ledger cfg T P' (BucketPool.put cfg.nrLocalFreeAbuckets 1 u (cell (P'.locals t).items) Q)
      cell := by
  obtain ⟨full, holds⟩ := BucketPool.refill_spec ledger.full refill
  have buckets := BucketPool.refill_isBucket cfg.nrLocalAas_pos ledger.full refill hi
  have opened := BucketPool.refill_opened refill hi
  have fresh := ledger.apart _ opened
  obtain ⟨empty, holdsQ⟩ := BucketPool.put_spec 1 cfg.nrLocalFreeAbuckets_pos (t := u)
    ledger.empty fresh
  refine ⟨opened, fresh, full, empty, fun s hs => ?_, fun id held => ledger.held id
    ((holds id).mp held), fun b hb => ledger.cell_range b ((buckets b).mp hb).1, fun m held => ?_,
    fun b hb held => ?_, fun b c hb hc => ledger.inj b c ((buckets b).mp hb).1
    ((buckets c).mp hc).1, fun m pos le => ?_⟩
  · have ne : s ≠ t := by omega
    rw [BucketPool.refill_other refill ne, BucketPool.put_other _ _ _ _ (by omega)]
    exact ledger.idle s hs
  · rcases (holdsQ m).mp held with held | rfl
    · exact ledger.empty_range m held
    · exact ledger.cell_range _ opened
  · obtain ⟨old, ne⟩ := (buckets b).mp hb
    rcases (holdsQ _).mp held with held | eq
    · exact ledger.apart b old held
    · exact ne (ledger.inj _ _ old opened eq)
  · rcases ledger.complete m pos le with held | ⟨b, hb, rfl⟩
    · exact .inl ((holdsQ m).mpr (.inl held))
    · by_cases eq : b = (P'.locals t).items
      · exact .inl ((holdsQ _).mpr (.inr (by rw [eq])))
      · exact .inr ⟨b, (buckets b).mpr ⟨hb, eq⟩, rfl⟩

theorem Ledger.pop (ledger : Ledger cfg T P Q cell) (ht : t < T) {id : Nat} {items : List Nat}
    (hi : (P.locals t).items = id :: items) :
    Ledger cfg T (P.setLocal t { P.locals t with items := items }) Q cell ∧ P.Holds id ∧
    ∀ a, (P.setLocal t { P.locals t with items := items }).Holds a ↔ P.Holds a ∧ a ≠ id := by
  obtain ⟨full, held, holds⟩ := BucketPool.get_spec ledger.full (BucketPool.get_of_items hi)
  have buckets : ∀ b, (P.setLocal t { P.locals t with items := items }).IsBucket b ↔
      P.IsBucket b := fun b => BucketPool.isBucket_items
  refine ⟨⟨full, ledger.empty, fun s hs => ?_, fun a ha => ledger.held a ((holds a).mp ha).1,
    fun b hb => ledger.cell_range b ((buckets b).mp hb), ledger.empty_range,
    fun b hb => ledger.apart b ((buckets b).mp hb),
    fun b c hb hc => ledger.inj b c ((buckets b).mp hb) ((buckets c).mp hc), fun m pos le => ?_⟩,
    held, holds⟩
  · have ne : s ≠ t := by omega
    rw [BucketPool.setLocal_other _ _ ne]
    exact ledger.idle s hs
  · simpa only [buckets] using ledger.complete m pos le

end Get

structure Rep (cfg : AddressConfig) (T : Nat) (σ : AddressBuckets) (P Q : Ids)
    (cell : List Nat → Nat) : Prop where
  ledger : Ledger cfg T P Q cell
  full : FullRep σ P cell
  empty : EmptyRep σ Q

/-- The pools after the first block of `get_free_aa`. -/
inductive Opened (cfg : AddressConfig) (t : Nat) (cell : List Nat → Nat) (P Q : Ids) :
    Ids → Ids → Prop where
  | has (hi : (P.locals t).items ≠ []) : Opened cfg t cell P Q P Q
  | opens {P' : Ids} (hi : (P.locals t).items = []) (refill : BucketPool.refill t P = some P') :
      Opened cfg t cell P Q P'
        (BucketPool.put cfg.nrLocalFreeAbuckets 1 t (cell (P'.locals t).items) Q)

section GetSpec
variable {cfg : AddressConfig} {T t : Nat} {σ : AddressBuckets} {P Q : Ids}
  {cell : List Nat → Nat}

theorem refillAas_spec (rep : Rep cfg T σ P Q cell) (ht : t < T) :
    (refillAas cfg t σ = none ∧ (P.locals t).items = [] ∧ BucketPool.refill t P = none) ∨
    ∃ σ' P' Q', refillAas cfg t σ = some σ' ∧ Opened cfg t cell P Q P' Q' ∧
      (P'.locals t).items ≠ [] ∧ (∀ id, P'.Holds id ↔ P.Holds id) ∧ Rep cfg T σ' P' Q' cell ∧
      σ'.aaSpace = σ.aaSpace := by
  obtain ⟨ledger, full, empty⟩ := rep
  have count := (full.locals t).aasCount
  have bcount := (full.locals t).abucketsCount
  by_cases hi : (P.locals t).items = []
  · have zero : (σ.threads t).aasCount = 0 := by rw [count, hi]; rfl
    have none : ∀ {P'}, BucketPool.refill t P = some P' →
        ∀ {b}, (P'.locals t).items = b → P.IsBucket b → b ≠ [] := by
      rintro P' _ b _ hb rfl
      exact absurd (BucketPool.isBucket_length ledger.full hb) (Nat.ne_of_lt cfg.nrLocalAas_pos)
    cases hr : BucketPool.refill t P with
    | none =>
        obtain ⟨_, hb, hs⟩ := BucketPool.refill_none hr
        have head := full.shared
        rw [hs] at head
        have bzero : (σ.threads t).abucketsCount = 0 := by rw [bcount, hb]; rfl
        have empty_ : σ.freeAaHead = 0 := head
        exact .inl ⟨by simp [refillAas, zero, bzero, aaGet, empty_], hi, rfl⟩
    | some P' =>
        obtain ⟨holdsLedger, fresh, ledger'⟩ := ledger.openBucket ht ht hi hr
        have apart : ∀ b, P'.IsBucket b → cell b ≠ cell (P'.locals t).items ∧
            ¬ Q.Holds (cell b) := by
          intro b hb
          obtain ⟨old, ne⟩ :=
            (BucketPool.refill_isBucket cfg.nrLocalAas_pos ledger.full hr hi b).mp hb
          exact ⟨fun eq => ne (ledger.inj _ _ old holdsLedger eq), ledger.apart b old⟩
        have len := BucketPool.isBucket_length ledger.full holdsLedger
        have done : ∀ {σ1 : AddressBuckets}, FullRep σ1 P' cell → EmptyRep σ1 Q →
            σ1.aaSpace = σ.aaSpace →
            refillAas cfg t σ = some (keepBucket cfg t (cell (P'.locals t).items) σ1) →
            ∃ σ' P' Q', refillAas cfg t σ = some σ' ∧ Opened cfg t cell P Q P' Q' ∧
              (P'.locals t).items ≠ [] ∧ (∀ id, P'.Holds id ↔ P.Holds id) ∧
              Rep cfg T σ' P' Q' cell ∧ σ'.aaSpace = σ.aaSpace := by
          intro σ1 full1 empty1 space run
          obtain ⟨full2, empty2⟩ := keepBucket_spec (t := t) full1 empty1 ledger.empty fresh apart
          refine ⟨_, P', _, run, .opens hi hr, none hr rfl holdsLedger,
            (BucketPool.refill_spec ledger.full hr).2, ⟨ledger', full2, empty2⟩, ?_⟩
          rw [← space]
          simp only [keepBucket, shareFreeAbuckets]
          split <;> rfl
        refine .inr ?_
        rcases BucketPool.refill_cases hr with ⟨_, ne⟩ |
          ⟨_, b, ⟨buckets, hb, rfl⟩ | ⟨shared, hb, hs, rfl⟩⟩
        · exact absurd hi ne
        · simp only [BucketPool.setLocal_same] at done len
          obtain ⟨first, full1⟩ := full.openLocal hb len
          refine done full1 (empty.congr cfg.nrLocalFreeAbuckets_pos ledger.empty (fun _ _ => rfl)
            rfl (BucketPool.forall_clients t (by simp [installAas]) fun s hs => by
              simp [installAas, hs]))
            rfl ?_
          have some_ : (σ.threads t).abucketsCount ≠ 0 := by simp [bcount, hb]
          simp only [refillAas, zero, some_, if_true, if_false, first]
        · simp only [BucketPool.setLocal_same] at done len
          obtain ⟨first, full1⟩ := full.openShared hb hs len
          refine done full1 (empty.congr cfg.nrLocalFreeAbuckets_pos ledger.empty (fun _ _ => rfl)
            rfl (BucketPool.forall_clients t (by simp [installAas]) fun s hs => by
              simp [installAas, hs]))
            rfl ?_
          have none_ : (σ.threads t).abucketsCount = 0 := by simp [bcount, hb]
          have pos : cell b ≠ 0 := by
            have := (ledger.cell_range b (.inr (by simp [hs]))).1
            omega
          simp only [refillAas, zero, none_, if_true, aaGet, first, pos, if_false]
  · have pos : (σ.threads t).aasCount ≠ 0 := by simpa [count] using hi
    refine .inr ⟨σ, P, Q, ?_, .has hi, hi, fun _ => Iff.rfl, ⟨ledger, full, empty⟩, rfl⟩
    simp only [refillAas, pos, if_false]

theorem Rep.pop (rep : Rep cfg T σ P Q cell) (ht : t < T) {id : Nat} {items : List Nat}
    (hi : (P.locals t).items = id :: items) :
    (σ.threads t).aas = id ∧ P.Holds id ∧
    (∀ a, (P.setLocal t { P.locals t with items := items }).Holds a ↔ P.Holds a ∧ a ≠ id) ∧
    Rep cfg T (σ.modifyThread t fun d =>
        { d with aas := σ.aaSpace (σ.threads t).aas, aasCount := d.aasCount - 1 })
      (P.setLocal t { P.locals t with items := items }) Q cell := by
  obtain ⟨ledger, held, holds⟩ := rep.ledger.pop ht hi
  obtain ⟨first, full⟩ := rep.full.pop hi
  refine ⟨first, held, holds, ledger, full, ?_⟩
  exact rep.empty.congr cfg.nrLocalFreeAbuckets_pos rep.ledger.empty (fun _ _ => rfl) rfl
    (BucketPool.forall_clients t (by simp) fun s hs => by simp [hs])

/-- `get_free_aa` takes one free identifier, or there is none for the thread. -/
theorem getFreeAa_rep (rep : Rep cfg T σ P Q cell) (ht : t < T) :
    (getFreeAa cfg t σ = (none, σ) ∧ (P.locals t).items = [] ∧ BucketPool.refill t P = none) ∨
    ∃ id items σ' P1 Q', getFreeAa cfg t σ = (some id, σ') ∧ Opened cfg t cell P Q P1 Q' ∧
      (P1.locals t).items = id :: items ∧ P.Holds id ∧
      (∀ a, (P1.setLocal t { P1.locals t with items := items }).Holds a ↔ P.Holds a ∧ a ≠ id) ∧
      Rep cfg T σ' (P1.setLocal t { P1.locals t with items := items }) Q' cell ∧
      σ'.aaSpace = σ.aaSpace := by
  rcases refillAas_spec rep ht with ⟨run, none⟩ | ⟨σ1, P1, Q', run, opened, ne, holds, rep1, space⟩
  · exact .inl ⟨by simp only [getFreeAa, run], none⟩
  · obtain ⟨id, items, hi⟩ := List.exists_cons_of_ne_nil ne
    obtain ⟨first, held, holds', rep2⟩ := rep1.pop ht hi
    exact .inr ⟨id, items, _, P1, Q', by simp only [getFreeAa, run, first], opened, hi,
      (holds id).mp held, fun a => by rw [holds', holds], rep2, space⟩

end GetSpec

/-! ### The steps of `put_free_aa` -/

section Put
variable {cfg : AddressConfig} {T t : Nat} {σ : AddressBuckets} {P P' Q Q' : Ids}
  {cell : List Nat → Nat}

/-- A thread without empty buckets fetches a chain. -/
theorem EmptyRep.fetch (rep : EmptyRep σ Q) {b : List Nat} {shared : List (List Nat)}
    (hs : Q.shared = b :: shared) (len : b.length = cfg.nrLocalFreeAbuckets) :
    σ.freeAaBucketsHead = firstOf b ∧
    EmptyRep ({ σ with freeAaBucketsHead := (σ.aaBuckets σ.freeAaBucketsHead).next }.modifyThread t
        fun d => { d with
          freeAbuckets := σ.freeAaBucketsHead, freeAbucketsCount := cfg.nrLocalFreeAbuckets })
      { Q.setLocal t { items := b, buckets := [] } with shared := shared } := by
  have chain := rep.shared
  rw [hs, List.map_cons, chain_cons] at chain
  refine ⟨chain.1, BucketPool.forall_clients t ?_ fun s ne => ?_, ?_, fun c hc => ?_⟩
  · simp only [BucketPool.setLocal_same]
    obtain ⟨e, items⟩ := rep.bucket b (by rw [hs]; exact List.mem_cons_self)
    change EmptyLocal σ.localOf _ _
    exact ⟨by simp [len], ⟨e, by simpa [chain.1] using items⟩, rfl⟩
  · simp only [BucketPool.setLocal_other _ _ ne]
    exact (rep.locals s).congr (fun _ _ => rfl) (by simp [ne])
  · rw [chain.1]
    exact chain.2
  · exact rep.bucket c (by rw [hs]; exact List.mem_cons_of_mem _ hc)

theorem EmptyRep.pop (rep : EmptyRep σ Q) {m : Nat} {items : List Nat}
    (hm : (Q.locals t).items = m :: items) :
    (σ.threads t).freeAbuckets = m ∧
    EmptyRep (σ.modifyThread t fun d => { d with
        freeAbuckets := (σ.aaBuckets (σ.threads t).freeAbuckets).localWord
        freeAbucketsCount := d.freeAbucketsCount - 1 })
      (Q.setLocal t { Q.locals t with items := items }) := by
  have mine := rep.locals t
  obtain ⟨e, chain⟩ := mine.chain
  rw [hm, chain_cons] at chain
  refine ⟨chain.1, BucketPool.forall_clients t ?_ fun s ne => ?_, rep.shared, rep.bucket⟩
  · rw [BucketPool.setLocal_same]
    exact ⟨by simp [mine.count, hm], ⟨e, by simpa [chain.1, localOf] using chain.2⟩,
      mine.noBuckets⟩
  · rw [BucketPool.setLocal_other _ _ ne]
    exact (rep.locals s).congr (fun _ _ => rfl) (by simp [ne])

/-- The parts of the pool that taking an empty bucket leaves alone. -/
def SameFull (σ σ' : AddressBuckets) : Prop :=
  σ'.aaSpace = σ.aaSpace ∧ σ'.aaBuckets = σ.aaBuckets ∧ σ'.freeAaHead = σ.freeAaHead ∧
    ∀ s, (σ'.threads s).aasCount = (σ.threads s).aasCount ∧
      (σ'.threads s).aas = (σ.threads s).aas ∧
      (σ'.threads s).abucketsCount = (σ.threads s).abucketsCount ∧
      (σ'.threads s).abuckets = (σ.threads s).abuckets ∧
      (σ'.threads s).lastAbucket = (σ.threads s).lastAbucket

/-- `put_free_aa` finds an empty bucket unless the thread and the global stack have none. -/
theorem takeFreeAbucket_spec (rep : EmptyRep σ Q)
    (wf : BucketPool.WellFormed cfg.nrLocalFreeAbuckets Q) (pos : ∀ m, Q.Holds m → m ≠ 0) :
    (takeFreeAbucket cfg t σ = .error .emptyBucket ∧ (Q.locals t).items = [] ∧ Q.shared = []) ∨
    ∃ m Q' σ', takeFreeAbucket cfg t σ = .ok (m, σ') ∧ BucketPool.get t Q = some (m, Q') ∧
      EmptyRep σ' Q' ∧ SameFull σ σ' := by
  have mine := rep.locals t
  cases hm : (Q.locals t).items with
  | cons m items =>
      obtain ⟨first, rep'⟩ := rep.pop hm
      have some_ : (σ.threads t).freeAbucketsCount ≠ 0 := by simp [mine.count, hm]
      refine .inr ⟨m, _, _, ?_, BucketPool.get_of_items hm, rep', rfl, rfl, rfl,
        BucketPool.forall_clients t (by simp) fun s ne => by simp [ne]⟩
      simp only [takeFreeAbucket, some_, if_false, ok_bind, first]
      rfl
  | nil =>
      have none_ : (σ.threads t).freeAbucketsCount = 0 := by simp [mine.count, hm]
      cases hs : Q.shared with
      | nil =>
          have head := rep.shared
          rw [hs] at head
          have zero : σ.freeAaBucketsHead = 0 := head
          refine .inl ⟨?_, rfl, rfl⟩
          simp only [takeFreeAbucket, none_, if_true, aaBucketGet, zero]
          rfl
      | cons b shared =>
          have len := wf.shared_length b (by rw [hs]; exact List.mem_cons_self)
          obtain ⟨first, rep1⟩ := rep.fetch (t := t) hs len
          cases b with
          | nil => exact absurd len (Nat.ne_of_lt cfg.nrLocalFreeAbuckets_pos)
          | cons m items =>
              have head : σ.freeAaBucketsHead ≠ 0 := first ▸ pos m (.inr (by simp [hs]))
              obtain ⟨first2, rep2⟩ := rep1.pop (t := t) (show _ = m :: items by simp)
              refine .inr ⟨m, _, _, ?_, ?_, rep2, rfl, rfl, rfl,
                BucketPool.forall_clients t (by simp) fun s ne => by simp [ne]⟩
              · simp only [takeFreeAbucket, none_, if_true, aaBucketGet, head, if_false,
                  ensure_true (show σ.freeAaBucketsHead ≠ 0 from head), ok_bind, first2]
                rfl
              · simp [BucketPool.get, hm, mine.noBuckets, hs, BucketPool.Pool.setLocal]

theorem FullRep.close (rep : FullRep σ P cell) {m : Nat}
    (fresh : ∀ b, P.IsBucket b → cell b ≠ m) (new : ¬ P.IsBucket (P.locals t).items) :
    FullRep (closeAas t m σ) (BucketPool.closeBucket t P)
      (update cell (P.locals t).items m) := by
  have same : ∀ b, P.IsBucket b → update cell (P.locals t).items m b = cell b :=
    fun b hb => update_of_ne (by rintro rfl; exact new hb) _ _
  have next : ∀ b, P.IsBucket b →
      (closeAas t m σ).nextOf (update cell (P.locals t).items m b) = σ.nextOf (cell b) := by
    intro b hb
    simp [same b hb, nextOf, closeAas, fresh b hb]
  have cells : ∀ bs : List (List Nat), (∀ b, b ∈ bs → P.IsBucket b) →
      bs.map (update cell (P.locals t).items m) = bs.map cell :=
    fun bs hbs => List.map_congr_left fun b hb => same b (hbs b hb)
  have chain : ∀ {bs : List (List Nat)} {a e}, (∀ b, b ∈ bs → P.IsBucket b) →
      Chain σ.nextOf a (bs.map cell) e → Chain (closeAas t m σ).nextOf a (bs.map cell) e := by
    intro bs a e hbs h
    refine chain_congr (fun x hx => ?_) h
    obtain ⟨b, hb, rfl⟩ := List.mem_map.mp hx
    rw [← same b (hbs b hb), next b (hbs b hb), same b (hbs b hb)]
  refine ⟨BucketPool.forall_clients t ?_ fun s ne => ?_, ?_, fun b hb => ?_⟩
  · have mine := rep.locals t
    have buckets : ∀ b, b ∈ (P.locals t).buckets → P.IsBucket b := fun b hb => .inl ⟨t, hb⟩
    obtain ⟨e, old⟩ := mine.abuckets
    simp only [BucketPool.closeBucket, BucketPool.setLocal_same]
    refine ⟨by simp [closeAas], ⟨_, rfl⟩, by simp [closeAas, mine.abucketsCount], ⟨e, ?_⟩,
      fun bs b eq => ?_⟩
    · rw [List.map_cons, cells _ buckets, update_self, chain_cons]
      refine ⟨by simp [closeAas], ?_⟩
      have link : (closeAas t m σ).nextOf m = (σ.threads t).abuckets := by
        simp [nextOf, closeAas]
      rw [link]
      exact chain buckets old
    · cases bs with
      | nil =>
          obtain ⟨rfl, nil⟩ := List.cons.inj eq
          have zero : (σ.threads t).abucketsCount = 0 := by simp [mine.abucketsCount, nil]
          simp [closeAas, zero]
      | cons c bs =>
          obtain ⟨_, tail⟩ := List.cons.inj eq
          have some_ : (σ.threads t).abucketsCount ≠ 0 := by simp [mine.abucketsCount, tail]
          rw [same b (buckets b (by simp [tail]))]
          simpa [closeAas, some_] using mine.lastAbucket bs b tail
  · simp only [BucketPool.closeBucket, BucketPool.setLocal_other _ _ ne]
    have buckets : ∀ b, b ∈ (P.locals s).buckets → P.IsBucket b := fun b hb => .inl ⟨s, hb⟩
    have mine := rep.locals s
    obtain ⟨e, old⟩ := mine.abuckets
    refine ⟨by simpa [closeAas, ne] using mine.aasCount, by simpa [closeAas, ne] using mine.aas,
      by simpa [closeAas, ne] using mine.abucketsCount, ⟨e, ?_⟩, fun bs b eq => ?_⟩
    · rw [cells _ buckets, show (closeAas t m σ).threads s = σ.threads s by simp [closeAas, ne]]
      exact chain buckets old
    · rw [same b (buckets b (by simp [eq]))]
      simpa [closeAas, ne] using mine.lastAbucket bs b eq
  · have buckets : ∀ b, b ∈ P.shared → P.IsBucket b := fun b hb => .inr hb
    simp only [BucketPool.closeBucket, BucketPool.setLocal_shared]
    rw [cells _ buckets]
    exact chain buckets rep.shared
  · rcases (BucketPool.isBucket_closeBucket t P b).mp hb with rfl | old
    · obtain ⟨e, aas⟩ := (rep.locals t).aas
      refine ⟨e, ?_⟩
      simpa [localOf, closeAas] using aas
    · obtain ⟨e, ids⟩ := rep.bucket b old
      refine ⟨e, ?_⟩
      simpa [same b old, localOf, closeAas, fresh b old] using ids

theorem FullRep.share (rep : FullRep σ P cell)
    (wf : BucketPool.WellFormed cfg.nrLocalAas P) (some : (P.locals t).buckets ≠ [])
    (inj : ∀ b b', P.IsBucket b → P.IsBucket b' → cell b = cell b' → b = b') :
    FullRep (shareAas t σ) (BucketPool.share t P) cell := by
  have mine := rep.locals t
  obtain ⟨bs, b, split⟩ : ∃ bs b, (P.locals t).buckets = bs ++ [b] :=
    ⟨_, _, (List.dropLast_append_getLast some).symm⟩
  obtain ⟨nodup, elsewhere⟩ := BucketPool.buckets_apart cfg.nrLocalAas_pos wf t
  have hb : b ∈ (P.locals t).buckets := by simp [split]
  have last : (σ.threads t).lastAbucket = cell b := mine.lastAbucket bs b split
  have front : ∀ c, c ∈ bs → cell c ≠ cell b := by
    intro c hc eq
    have same := inj c b (.inl ⟨t, by simp [split, hc]⟩) (.inl ⟨t, hb⟩) eq
    rw [split, List.nodup_append] at nodup
    exact nodup.2.2 c hc b (by simp) same
  have other : ∀ c, c ∈ P.shared ∨ (∃ s, s ≠ t ∧ c ∈ (P.locals s).buckets) → cell c ≠ cell b := by
    intro c hc eq
    refine elsewhere b hb c hc (inj c b ?_ (.inl ⟨t, hb⟩) eq)
    exact hc.symm.imp_left fun ⟨s, _, mem⟩ => ⟨s, mem⟩
  have next : ∀ c, cell c ≠ cell b → (shareAas t σ).nextOf (cell c) = σ.nextOf (cell c) := by
    intro c ne
    simp [nextOf, shareAas, aaPut, last, ne]
  have kept : ∀ c, (shareAas t σ).localOf c = σ.localOf c := by
    intro c
    simp only [localOf, shareAas, aaPut, modifyThread_aaBuckets]
    by_cases hc : c = (σ.threads t).lastAbucket
    · subst hc
      simp
    · simp [hc]
  refine ⟨BucketPool.forall_clients t ?_ fun s ne => ?_, ?_, fun c hc => ?_⟩
  · simp only [BucketPool.share, BucketPool.setLocal_same]
    exact ⟨by simpa [shareAas, aaPut] using mine.aasCount,
      by simpa [shareAas, aaPut] using mine.aas, by simp [shareAas], ⟨_, rfl⟩, by simp⟩
  · simp only [BucketPool.share, BucketPool.setLocal_other _ _ ne]
    refine (rep.locals s).congr (fun _ _ => rfl) (fun c hc => next c (other c (.inr ⟨s, ne, hc⟩)))
      (by simp [shareAas, aaPut, ne])
  · obtain ⟨e, chain⟩ := mine.abuckets
    rw [split, List.map_append, List.map_cons, List.map_nil] at chain
    have link : (shareAas t σ).nextOf (cell b) = σ.freeAaHead := by
      simp [nextOf, shareAas, aaPut, last]
    have moved := chain_redirect (shareAas t σ).nextOf (fun x hx => by
      obtain ⟨c, hc, rfl⟩ := List.mem_map.mp hx
      exact next c (front c hc)) chain
    rw [link] at moved
    simp only [BucketPool.share, List.map_append, split]
    refine chain_append.mpr ⟨_, ?_, chain_congr (fun x hx => ?_) rep.shared⟩
    · rw [show (shareAas t σ).freeAaHead = (σ.threads t).abuckets from rfl]
      simpa using moved
    · obtain ⟨c, hc, rfl⟩ := List.mem_map.mp hx
      exact next c (other c (.inl hc))
  · rw [kept]
    exact rep.bucket c ((BucketPool.isBucket_share t P c).mp hc)

/-- The returned identifier becomes the first of the thread's identifiers. -/
theorem FullRep.push (rep : FullRep σ P cell) {id : Nat} (fresh : ¬ P.Holds id) :
    FullRep (pushAa t id σ) (BucketPool.push t id P) cell := by
  have space : ∀ a, a ≠ id → (pushAa t id σ).aaSpace a = σ.aaSpace a := by
    intro a ne
    simp only [pushAa, modifyThread_aaSpace]
    split
    · simp [setWord, ne]
    · rfl
  have cells : (pushAa t id σ).aaBuckets = σ.aaBuckets := by
    simp only [pushAa, modifyThread_aaBuckets]
    split <;> rfl
  have threads : ∀ s, s ≠ t → (pushAa t id σ).threads s = σ.threads s := by
    intro s ne
    simp only [pushAa, modifyThread_other _ _ _ ne]
    split <;> rfl
  have ne : ∀ {a}, P.Holds a → a ≠ id := fun held eq => fresh (eq ▸ held)
  refine ⟨BucketPool.forall_clients t ?_ fun s hs => ?_, ?_, fun b hb => ?_⟩
  · have mine := rep.locals t
    simp only [BucketPool.push, BucketPool.setLocal_same]
    have fields : (pushAa t id σ).threads t =
        { σ.threads t with aas := id, aasCount := (σ.threads t).aasCount + 1 } := by
      simp only [pushAa, modifyThread_same]
      split <;> rfl
    rw [fields]
    obtain ⟨e, chain⟩ := mine.aas
    refine ⟨by simp [mine.aasCount], ?_, mine.abucketsCount, ?_, mine.lastAbucket⟩
    · simp only [chain_cons, true_and]
      by_cases empty : (P.locals t).items = []
      · exact ⟨_, by rw [empty]; rfl⟩
      · have count : (σ.threads t).aasCount ≠ 0 := by simpa [mine.aasCount] using empty
        have link : (pushAa t id σ).aaSpace id = (σ.threads t).aas := by
          simp [pushAa, count, setWord]
        rw [link]
        exact ⟨e, chain_congr (fun a ha =>
          space a (ne (.inl ⟨t, List.mem_append_left _ ha⟩))) chain⟩
    · obtain ⟨e', chain'⟩ := mine.abuckets
      exact ⟨e', chain_congr (fun x _ => congrArg (fun f => (f x).next) cells) chain'⟩
  · simp only [BucketPool.push, BucketPool.setLocal_other _ _ hs]
    exact (rep.locals s).congr
      (fun a ha => space a (ne (.inl ⟨s, List.mem_append_left _ ha⟩)))
      (fun b _ => congrArg (fun f => (f (cell b)).next) cells) (by simp [threads s hs])
  · have head : (pushAa t id σ).freeAaHead = σ.freeAaHead := by
      simp only [pushAa, modifyThread_freeAaHead]
      split <;> rfl
    rw [head]
    exact chain_congr (fun x _ => congrArg (fun f => (f x).next) cells) rep.shared
  · have old : P.IsBucket b := BucketPool.isBucket_items.mp hb
    obtain ⟨e, chain⟩ := rep.bucket b old
    refine ⟨e, ?_⟩
    rw [show (pushAa t id σ).localOf (cell b) = σ.localOf (cell b) from
      congrArg (fun f => (f (cell b)).localWord) cells]
    exact chain_congr (fun a ha => space a (ne (BucketPool.isBucket_holds old ha))) chain

/-- The list of a thread fills an empty bucket. -/
theorem Ledger.close (ledger : Ledger cfg T P Q cell) (ht : t < T) {m : Nat}
    (full : (P.locals t).items.length = cfg.nrLocalAas)
    (get : BucketPool.get t Q = some (m, Q')) :
    (∀ b, P.IsBucket b → cell b ≠ m) ∧ ¬ P.IsBucket (P.locals t).items ∧
    Ledger cfg T (BucketPool.closeBucket t P) Q' (update cell (P.locals t).items m) := by
  obtain ⟨empty, held, holdsQ⟩ := BucketPool.get_spec ledger.empty get
  have some_ : (P.locals t).items ≠ [] := by
    intro nil
    rw [nil] at full
    exact absurd full (Nat.ne_of_lt cfg.nrLocalAas_pos)
  have new := BucketPool.items_not_bucket ledger.full some_
  have fresh : ∀ b, P.IsBucket b → cell b ≠ m :=
    fun b hb eq => ledger.apart b hb (eq ▸ held)
  have same : ∀ b, P.IsBucket b → update cell (P.locals t).items m b = cell b :=
    fun b hb => update_of_ne (by rintro rfl; exact new hb) _ _
  have buckets := BucketPool.isBucket_closeBucket t P
  refine ⟨fresh, new, BucketPool.wellFormed_closeBucket ledger.full full, empty,
    fun s hs => ?_, fun id ha => ?_, fun b hb => ?_, fun x hx => ?_, fun b hb => ?_,
    fun b c hb hc eq => ?_, fun x pos le => ?_⟩
  · have ne : s ≠ t := by omega
    rw [BucketPool.get_other get ne, BucketPool.closeBucket, BucketPool.setLocal_other _ _ ne]
    exact ledger.idle s hs
  · exact ledger.held id ((BucketPool.holds_closeBucket t P id).mp ha)
  · rcases (buckets b).mp hb with rfl | old
    · rw [update_self]
      exact ledger.empty_range m held
    · rw [same b old]
      exact ledger.cell_range b old
  · exact ledger.empty_range x ((holdsQ x).mp hx).1
  · rw [holdsQ]
    rcases (buckets b).mp hb with rfl | old
    · rw [update_self]
      exact fun h => h.2 rfl
    · rw [same b old]
      exact fun h => ledger.apart b old h.1
  · rcases (buckets b).mp hb with rfl | oldB <;> rcases (buckets c).mp hc with rfl | oldC
    · rfl
    · rw [update_self, same c oldC] at eq
      exact absurd eq.symm (fresh c oldC)
    · rw [update_self, same b oldB] at eq
      exact absurd eq (fresh b oldB)
    · rw [same b oldB, same c oldC] at eq
      exact ledger.inj b c oldB oldC eq
  · by_cases eq : x = m
    · exact .inr ⟨_, (buckets _).mpr (.inl rfl), by rw [update_self, eq]⟩
    · rcases ledger.complete x pos le with hx | ⟨b, hb, rfl⟩
      · exact .inl ((holdsQ x).mpr ⟨hx, eq⟩)
      · exact .inr ⟨b, (buckets b).mpr (.inr hb), same b hb⟩

theorem Ledger.share (ledger : Ledger cfg T P Q cell) (ht : t < T) :
    Ledger cfg T (BucketPool.share t P) Q cell := by
  have buckets := BucketPool.isBucket_share t P
  refine ⟨BucketPool.wellFormed_share ledger.full, ledger.empty, fun s hs => ?_,
    fun id ha => ledger.held id ((BucketPool.holds_share t P id).mp ha),
    fun b hb => ledger.cell_range b ((buckets b).mp hb), ledger.empty_range,
    fun b hb => ledger.apart b ((buckets b).mp hb),
    fun b c hb hc => ledger.inj b c ((buckets b).mp hb) ((buckets c).mp hc), fun x pos le => ?_⟩
  · have ne : s ≠ t := by omega
    simp only [BucketPool.share, BucketPool.setLocal_other _ _ ne]
    exact ledger.idle s hs
  · simpa only [buckets] using ledger.complete x pos le

theorem Ledger.push (ledger : Ledger cfg T P Q cell) (ht : t < T) {id : Nat}
    (room : (P.locals t).items.length < cfg.nrLocalAas) (fresh : ¬ P.Holds id)
    (lt : id < cfg.nrAas) : Ledger cfg T (BucketPool.push t id P) Q cell := by
  obtain ⟨full, holds⟩ := BucketPool.push_spec ledger.full room fresh
  have buckets : ∀ b, (BucketPool.push t id P).IsBucket b ↔ P.IsBucket b :=
    fun b => BucketPool.isBucket_items
  refine ⟨full, ledger.empty, fun s hs => ?_, fun a ha => ?_,
    fun b hb => ledger.cell_range b ((buckets b).mp hb), ledger.empty_range,
    fun b hb => ledger.apart b ((buckets b).mp hb),
    fun b c hb hc => ledger.inj b c ((buckets b).mp hb) ((buckets c).mp hc), fun x pos le => ?_⟩
  · have ne : s ≠ t := by omega
    simp only [BucketPool.push, BucketPool.setLocal_other _ _ ne]
    exact ledger.idle s hs
  · rcases (holds a).mp ha with old | rfl
    · exact ledger.held a old
    · exact lt
  · simpa only [buckets] using ledger.complete x pos le

/-- The identifiers of a thread fill an empty bucket, unless none is in reach. -/
theorem Rep.fill (rep : Rep cfg T σ P Q cell) (ht : t < T)
    (filled : (P.locals t).items.length = cfg.nrLocalAas) :
    (takeFreeAbucket cfg t σ = .error .emptyBucket ∧ (Q.locals t).items = [] ∧ Q.shared = []) ∨
    ∃ m Q' σ', takeFreeAbucket cfg t σ = .ok (m, σ') ∧ BucketPool.get t Q = some (m, Q') ∧
      Rep cfg T (closeAas t m σ') (BucketPool.closeBucket t P) Q'
        (update cell (P.locals t).items m) ∧ σ'.aaSpace = σ.aaSpace := by
  obtain ⟨ledger, full, empty⟩ := rep
  rcases takeFreeAbucket_spec (t := t) empty ledger.empty
      (fun m held => by have := (ledger.empty_range m held).1; omega) with
    none | ⟨m, Q', σ1, run, get, empty1, space, cells, head, fields⟩
  · exact .inl none
  · obtain ⟨fresh, new, ledger1⟩ := ledger.close ht filled get
    have full1 : FullRep σ1 P cell := full.congr (fun a _ => congrFun space a)
      (fun b _ => congrFun cells (cell b)) head fields
    have gone : ¬ Q'.Holds m := fun held =>
      ((BucketPool.get_spec ledger.empty get).2.2 m).mp held |>.2 rfl
    have empty2 : EmptyRep (closeAas t m σ1) Q' := empty1.congr cfg.nrLocalFreeAbuckets_pos
      ledger1.empty (fun x held => by
        have ne : x ≠ m := fun eq => gone (eq ▸ held)
        simp [closeAas, ne]) rfl
      (BucketPool.forall_clients t (by simp [closeAas]) fun s ne => by simp [closeAas, ne])
    exact .inr ⟨m, Q', σ1, run, get, ⟨ledger1, full1.close fresh new, empty2⟩, space⟩

theorem Rep.share (rep : Rep cfg T σ P Q cell) (ht : t < T)
    (some : (P.locals t).buckets ≠ []) :
    Rep cfg T (shareAas t σ) (BucketPool.share t P) Q cell := by
  obtain ⟨ledger, full, empty⟩ := rep
  refine ⟨ledger.share ht, full.share ledger.full some ledger.inj,
    empty.congr cfg.nrLocalFreeAbuckets_pos ledger.empty (fun x held => ?_) rfl
      (BucketPool.forall_clients t (by simp [shareAas, aaPut]) fun s ne => by
        simp [shareAas, aaPut, ne])⟩
  -- the word that is written belongs to a full bucket
  have last := (full.locals t).lastAbucket _ _ (List.dropLast_append_getLast some).symm
  have ne : x ≠ (σ.threads t).lastAbucket := by
    rw [last]
    rintro rfl
    exact ledger.apart _ (.inl ⟨t, List.getLast_mem some⟩) held
  simp [shareAas, aaPut, ne]

/-- The returned identifier becomes the first of the thread's. -/
theorem Rep.push (rep : Rep cfg T σ P Q cell) (ht : t < T) {id : Nat}
    (room : (P.locals t).items.length < cfg.nrLocalAas) (fresh : ¬ P.Holds id)
    (lt : id < cfg.nrAas) : Rep cfg T (pushAa t id σ) (BucketPool.push t id P) Q cell := by
  refine ⟨rep.ledger.push ht room fresh lt, rep.full.push fresh, ?_⟩
  refine rep.empty.congr cfg.nrLocalFreeAbuckets_pos rep.ledger.empty (fun x _ => ?_) ?_
    (BucketPool.forall_clients t ?_ fun s ne => ?_)
  · simp only [pushAa, modifyThread_aaBuckets]
    split <;> rfl
  · simp only [pushAa, modifyThread_freeAaBucketsHead]
    split <;> rfl
  · simp only [pushAa, modifyThread_same]
    split <;> exact ⟨rfl, rfl⟩
  · simp only [pushAa, modifyThread_other _ _ _ ne]
    split <;> exact ⟨rfl, rfl⟩

/-- The first block of `put_free_aa` makes room for an identifier, unless no empty bucket
is in reach. -/
theorem spillAas_rep (rep : Rep cfg T σ P Q cell) (ht : t < T) :
    (spillAas cfg t σ = .error .emptyBucket ∧ (P.locals t).items.length = cfg.nrLocalAas ∧
      (Q.locals t).items = [] ∧ Q.shared = []) ∨
    ∃ σ' Q' cell', spillAas cfg t σ = .ok σ' ∧
      Rep cfg T σ' (BucketPool.spill cfg.nrLocalAas cfg.nrLocalAbuckets t P) Q' cell' ∧
      σ'.aaSpace = σ.aaSpace ∧ ((P.locals t).items.length ≠ cfg.nrLocalAas → Q' = Q) := by
  have count := (rep.full.locals t).aasCount
  by_cases filled : (P.locals t).items.length = cfg.nrLocalAas
  · have filled' : (σ.threads t).aasCount = cfg.nrLocalAas := count.trans filled
    rcases rep.fill ht filled with ⟨run, none⟩ | ⟨m, Q', σ1, run, _, rep1, space⟩
    · exact .inl ⟨by simp only [spillAas, filled', if_true, run]; rfl, filled, none⟩
    · have bcount := (rep1.full.locals t).abucketsCount
      simp only [BucketPool.closeBucket, BucketPool.setLocal_same, List.length_cons] at bcount
      have run' : spillAas cfg t σ = .ok (if cfg.nrLocalAbuckets ≤ (P.locals t).buckets.length + 1
          then shareAas t (closeAas t m σ1) else closeAas t m σ1) := by
        rw [spillAas, if_pos filled', run, ← bcount]
        rfl
      rw [run', BucketPool.spill, if_pos filled]
      refine .inr ⟨_, Q', update cell (P.locals t).items m, rfl, ?_, ?_,
        fun ne => absurd filled ne⟩
      · by_cases many : cfg.nrLocalAbuckets ≤ (P.locals t).buckets.length + 1
        · rw [if_pos many, if_pos many]
          exact rep1.share ht (by simp [BucketPool.closeBucket])
        · rw [if_neg many, if_neg many]
          exact rep1
      · split <;> exact space
  · have notFilled : (σ.threads t).aasCount ≠ cfg.nrLocalAas := by rwa [count]
    refine .inr ⟨σ, Q, cell, by rw [spillAas, if_neg notFilled]; rfl, ?_, rfl, fun _ => rfl⟩
    rw [BucketPool.spill, if_neg filled]
    exact rep

/-- `put_free_aa` returns an identifier to the pool, unless no empty bucket is in reach. -/
theorem putFreeAa_rep (rep : Rep cfg T σ P Q cell) (ht : t < T) {id : Nat}
    (fresh : ¬ P.Holds id) (lt : id < cfg.nrAas) :
    (putFreeAa cfg t id σ = .error .emptyBucket ∧
      (P.locals t).items.length = cfg.nrLocalAas ∧ (Q.locals t).items = [] ∧ Q.shared = []) ∨
    ∃ σ' Q' cell', putFreeAa cfg t id σ = .ok σ' ∧
      Rep cfg T σ' (BucketPool.put cfg.nrLocalAas cfg.nrLocalAbuckets t id P) Q' cell' ∧
      (∀ a, a ≠ id → σ'.aaSpace a = σ.aaSpace a) ∧
      ((P.locals t).items.length ≠ cfg.nrLocalAas → Q' = Q) := by
  rcases spillAas_rep rep ht with ⟨run, none⟩ | ⟨σ1, Q', cell', run, rep1, space, same⟩
  · exact .inl ⟨by rw [putFreeAa, run]; rfl, none⟩
  · have room := BucketPool.spill_room cfg.nrLocalAbuckets cfg.nrLocalAas_pos
      (t := t) rep.ledger.full
    have fresh1 : ¬ (BucketPool.spill cfg.nrLocalAas cfg.nrLocalAbuckets t P).Holds id :=
      fun held => fresh ((BucketPool.holds_spill _ _ t P id).mp held)
    refine .inr ⟨_, Q', cell', by rw [putFreeAa, run]; rfl, rep1.push ht room fresh1 lt,
      fun a ne => ?_, same⟩
    rw [← space]
    simp only [pushAa, modifyThread_aaSpace]
    split
    · simp [setWord, ne]
    · rfl

end Put

end AddressBuckets
end CompactFit
