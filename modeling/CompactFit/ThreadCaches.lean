import CompactFit.AbortFinality
import CompactFit.AddressBucketPool
import CompactFit.Library.RunRelation

/-!
The free pages that threads keep for themselves. A call changes the cache of its own thread
only, and the cache never holds more than one list and `nr_local_pbuckets - 1` buckets. The
destructor of a thread gives nothing back, so this is also what a thread that has ended
withholds from the others for good.
-/

namespace CompactFit
open Function ByteMemory AddressPool RunRelation

section
variable {π : Type}

@[simp] theorem Heap.modifyThread_same (h : Heap π) (t : Nat) (f : ThreadPages → ThreadPages) :
    (h.modifyThread t f).threads t = f (h.threads t) := update_self ..

@[simp] theorem Heap.modifyThread_other (h : Heap π) {t u : Nat} (f : ThreadPages → ThreadPages)
    (ne : u ≠ t) : (h.modifyThread t f).threads u = h.threads u := update_of_ne ne ..

structure Cached (cfg : Config) (d : ThreadPages) : Prop where
  pages : d.pagesCount ≤ cfg.nrLocalPages
  pbuckets : d.pbucketsCount < cfg.nrLocalPbuckets

/-- What a call of thread `t` does to the caches; `A` relates the address pools. -/
structure CacheStep (cfg : Config) (t : Nat) (A : π → π → Prop) (h h' : Heap π) : Prop where
  others : ∀ u, u ≠ t → h'.threads u = h.threads u
  mine : Cached cfg (h.threads t) → Cached cfg (h'.threads t)
  addresses : A h.addresses h'.addresses

variable {A : π → π → Prop} [IsPreorder π A]

omit [IsPreorder π A] in
theorem CacheStep.of_addresses {cfg : Config} {t : Nat} {h h' : Heap π}
    (threads : h'.threads = h.threads) (addresses : A h.addresses h'.addresses) :
    CacheStep cfg t A h h' :=
  ⟨fun _ _ => by rw [threads], fun cached => by rwa [threads], addresses⟩

theorem CacheStep.of_same {cfg : Config} {t : Nat} {h h' : Heap π}
    (threads : h'.threads = h.threads) (addresses : h'.addresses = h.addresses) :
    CacheStep cfg t A h h' :=
  .of_addresses threads (by rw [addresses]; exact Std.Refl.refl _)

theorem CacheStep.modifyThread {cfg : Config} {t : Nat} (h : Heap π)
    (f : ThreadPages → ThreadPages)
    (cached : Cached cfg (h.threads t) → Cached cfg (f (h.threads t))) :
    CacheStep cfg t A h (h.modifyThread t f) :=
  ⟨fun _ hu => h.modifyThread_other f hu, fun ok => (h.modifyThread_same t f).symm ▸ cached ok,
    Std.Refl.refl _⟩

instance (cfg : Config) (t : Nat) : IsTrans (Heap π) (CacheStep cfg t A) where
  trans _ _ _ first second :=
    ⟨fun u hu => (second.others u hu).trans (first.others u hu), second.mine ∘ first.mine,
      IsTrans.trans _ _ _ first.addresses second.addresses⟩

/-! ### The pool of pages -/

section Pool
variable (cfg : Config) (t : Nat) (h : Heap π)

theorem refillPages_caches {h' : Heap π} (run : refillPages cfg t h = some h') :
    CacheStep cfg t A h h' := by
  rw [refillPages] at run
  split at run
  · split at run
    · dsimp only at run
      split at run
      · cases run
        refine IsTrans.trans _ _ _ (CacheStep.of_same ?_ ?_) (CacheStep.modifyThread _ _ ?_)
        · rw [pageGet]
          split <;> rfl
        · rw [pageGet]
          split <;> rfl
        · exact fun cached => ⟨le_rfl, cached.pbuckets⟩
      · cases run
    · cases run
      refine .modifyThread _ _ fun cached => ⟨le_rfl, ?_⟩
      have := cached.pbuckets
      simp only
      omega
  · cases run
    exact .of_same rfl rfl

theorem getFreePage_caches : Within (CacheStep cfg t A) h Prod.snd (getFreePage cfg t h) := by
  rw [getFreePage]
  split
  · exact .ok (.of_same rfl rfl)
  next g refilled =>
    refine .after (refillPages_caches cfg t h refilled) (.after (CacheStep.modifyThread g
      (fun d => { d with
        pages := readWord g.memory ((g.threads t).pages + 4), pagesCount := d.pagesCount - 1 })
      fun cached => ⟨(Nat.sub_le _ _).trans cached.pages, cached.pbuckets⟩) ?_)
    dsimp only
    split
    · exact .pass fun _ _ => .ok (.of_same rfl rfl)
    · exact .ok (.of_same rfl rfl)

theorem closePages_caches {cfg : Config} {t : Nat} {h : Heap π}
    (cached : Cached cfg (h.threads t)) :
    ((closePages t h).threads t).pagesCount = 0 ∧
      ((closePages t h).threads t).pbucketsCount ≤ cfg.nrLocalPbuckets := by
  rw [closePages, Heap.modifyThread_same]
  exact ⟨rfl, cached.pbuckets⟩

theorem spillPages_room (cached : Cached cfg (h.threads t)) :
    ((spillPages cfg t h).threads t).pagesCount < cfg.nrLocalPages := by
  have pos := cfg.nrLocalPages_pos
  have le := cached.pages
  rw [spillPages]
  split
  next =>
    dsimp only
    split
    · rw [sharePages, Heap.modifyThread_same]
      exact (closePages_caches cached).1.trans_lt pos
    · exact (closePages_caches cached).1.trans_lt pos
  next notFull => omega

theorem spillPages_caches : CacheStep cfg t A h (spillPages cfg t h) := by
  have pos := cfg.nrLocalPbuckets_pos
  rw [spillPages]
  split
  next =>
    dsimp only
    have others : ∀ u, u ≠ t → (closePages t h).threads u = h.threads u :=
      fun u hu => Heap.modifyThread_other _ _ hu
    split
    next =>
      refine ⟨fun u hu => ?_, fun cached => ?_, Std.Refl.refl _⟩
      · rw [sharePages, Heap.modifyThread_other _ _ hu]
        exact others u hu
      · rw [sharePages, Heap.modifyThread_same]
        exact ⟨(closePages_caches cached).1.le.trans (Nat.zero_le _), pos⟩
    next few =>
      refine ⟨others, fun cached => ?_, Std.Refl.refl _⟩
      have closed := closePages_caches cached
      exact ⟨by omega, by omega⟩
  next => exact .of_same rfl rfl

theorem addFreePage_caches (p : Nat) : Within (CacheStep cfg t A) h id (addFreePage cfg t p h) := by
  have spilled := spillPages_caches (A := A) cfg t h
  refine .pass fun _ _ => .pass fun _ _ => .ok ⟨fun u hu => ?_, fun cached => ?_,
    spilled.addresses⟩
  · exact (Heap.modifyThread_other _ _ hu).trans (spilled.others u hu)
  · rw [id, Heap.modifyThread_same]
    exact ⟨spillPages_room cfg t h cached, (spilled.mine cached).pbuckets⟩

end Pool

/-! ### The calls -/

section Pages
variable (cfg : Config) (t c p : Nat) (h : Heap π)

theorem addPage_caches (f : ListFlag) : Within (CacheStep cfg t A) h id (addPage f c p h) :=
  .pass fun _ _ => .ok (.of_same rfl rfl)

theorem removePage_caches (f : ListFlag) : Within (CacheStep cfg t A) h id (removePage f c p h) :=
  .pass fun _ _ => .ok (.of_same rfl rfl)

theorem freeUsedPageBlock_caches (index : Nat) :
    Within (CacheStep cfg t A) h id (freeUsedPageBlock p index h) :=
  .pass fun _ _ => .ok (.of_same rfl rfl)

theorem takePageBlock_caches : Within (CacheStep cfg t A) h Prod.snd (takePageBlock c p h) := by
  refine .bind (f := Prod.snd) ?_ fun r _ => ?_
  · rw [getFreePageBlock]
    split
    · exact .error
    · exact .ok (.of_same rfl rfl)
  · dsimp only
    split
    · exact .bind (removePage_caches cfg t c p _ _) fun _ _ =>
        .bind (addPage_caches cfg t c p _ _) fun _ _ => .ok (.of_same rfl rfl)
    · exact .ok (.of_same rfl rfl)

theorem getNfullPage_caches : Within (CacheStep cfg t A) h Prod.snd (getNfullPage cfg t c h) := by
  rw [getNfullPage]
  split
  · refine .bind (getFreePage_caches cfg t h) fun r _ => ?_
    obtain ⟨_ | p, g⟩ := r
    · exact .ok (.of_same rfl rfl)
    · exact .after (m := g.modifyPage p fun pg => { pg with nrUsedPageBlocks := 0, sc := c })
        (.of_same rfl rfl) (.bind (addPage_caches cfg t c p _ _) fun _ _ => .ok (.of_same rfl rfl))
  · exact .ok (.of_same rfl rfl)

theorem takeSourcePage_caches : Within (CacheStep cfg t A) h Prod.snd (takeSourcePage c h) := by
  rw [takeSourcePage]
  split
  next p _ _ =>
    refine .after (m := h.dropUsed p) (.of_same rfl rfl) ?_
    dsimp only
    split
    · exact .bind (removePage_caches cfg t c p _ _) fun _ _ =>
        .bind (addPage_caches cfg t c p _ _) fun _ _ => .ok (.of_same rfl rfl)
    · exact .ok (.of_same rfl rfl)
  next =>
    split
    · exact .error
    next p _ _ =>
      refine .bind (removePage_caches cfg t c p _ _) fun g _ => ?_
      refine .after (m := g.dropUsed p) (.of_same rfl rfl) ?_
      dsimp only
      split
      · exact .bind (addPage_caches cfg t c p _ _) fun _ _ => .ok (.of_same rfl rfl)
      · exact .bind (addPage_caches cfg t c p _ _) fun _ _ => .ok (.of_same rfl rfl)

theorem getSourcePage_caches : Within (CacheStep cfg t A) h Prod.snd (getSourcePage c h) :=
  .bind (takeSourcePage_caches cfg t c h) fun _ _ => .ok (.of_same rfl rfl)

theorem releaseSource_caches : Within (CacheStep cfg t A) h id (releaseSource cfg t c p h) := by
  refine .after
    (m := h.modifyPage p fun pg => { pg with sourceentries := decrement pg.sourceentries })
    (.of_same rfl rfl) ?_
  rw [releaseSource, doFreeSourceState]
  split
  · split
    · exact .bind (removePage_caches cfg t c p _ _) fun _ _ => addFreePage_caches cfg t _ p
    · exact .bind (removePage_caches cfg t c p _ _) fun _ _ => addPage_caches cfg t c p _ _
  · exact .ok (.of_same rfl rfl)

theorem doFreeFullState_caches (index : Nat) :
    Within (CacheStep cfg t A) h id (doFreeFullState cfg t c p index h) := by
  refine .bind (freeUsedPageBlock_caches cfg t p h index) fun _ _ =>
    .bind (removePage_caches cfg t c p _ _) fun g _ => ?_
  split
  · exact addFreePage_caches cfg t _ p
  · exact addPage_caches cfg t c p _ _

theorem doFreeNfullState_caches (index : Nat) :
    Within (CacheStep cfg t A) h id (doFreeNfullState cfg t c p index h) := by
  rw [doFreeNfullState]
  split
  · refine .bind (freeUsedPageBlock_caches cfg t p h index) fun g _ => ?_
    split
    · exact .bind (removePage_caches cfg t c p _ _) fun _ _ => addFreePage_caches cfg t _ p
    · exact .bind (removePage_caches cfg t c p _ _) fun _ _ => addPage_caches cfg t c p _ _
  · exact freeUsedPageBlock_caches cfg t p h index

theorem doFree_caches (size index : Nat) :
    Within (CacheStep cfg t A) h id (doFree cfg t c p size index h) := by
  rw [doFree]
  split
  · exact doFreeFullState_caches cfg t c p h index
  · exact doFreeNfullState_caches cfg t c p h index

end Pages

/-- What a call of thread `t` does to the abstract addresses is in `A`. -/
structure AddressSteps [AddressPool π] (cfg : AddressConfig) (t : Nat) (A : π → π → Prop) :
    Prop where
  setWord : ∀ id w σ, A σ (setWord id w σ)
  get : ∀ σ, A σ (getFreeAa cfg t σ).2
  put : ∀ a σ, Within A σ id (putFreeAa cfg t a σ)

section Calls
variable [AddressPool π] {cfg : Config} {t : Nat} (pool : AddressSteps cfg.toAddressConfig t A)
  (c : Nat) (h : Heap π)

include pool

omit [IsPreorder π A] in
theorem storeAa_caches (a w : Nat) : Within (CacheStep cfg t A) h id (h.storeAa cfg a w) := by
  rw [Heap.storeAa]
  split
  · exact .ok (.of_addresses rfl (pool.setWord _ _ _))
  · exact .error

omit [IsPreorder π A] in
theorem flagAa_caches (a flag : Nat) : Within (CacheStep cfg t A) h id (h.flagAa cfg a flag) :=
  .pass fun _ _ => storeAa_caches pool h a _

omit [IsPreorder π A] in
theorem clearAbstractAddress_caches (a : Nat) :
    Within (CacheStep cfg t A) h id (clearAbstractAddress cfg t a h) :=
  .pass fun σ run => .ok (.of_addresses rfl (pool.put _ _ σ run))

theorem selectSource_caches (srcPage size : Nat) :
    Within (CacheStep cfg t A) h (fun r => r.2.2) (selectSource cfg t c srcPage size h) := by
  rw [selectSource]
  split
  · exact .error
  next i _ =>
    refine .after (m := h.modifyPage srcPage fun pg =>
      { pg with usedPageBlockBitmap := pg.usedPageBlockBitmap.clear i }) (.of_same rfl rfl) ?_
    dsimp only
    split
    · exact .bind (flagAa_caches pool _ _ _) fun _ _ => .pass fun _ _ => .pass fun _ _ =>
        .bind (releaseSource_caches cfg t c srcPage _) fun _ _ => .pass fun _ _ => .pass fun _ _ =>
          .ok (.of_same rfl rfl)
    · exact .ok (.of_same rfl rfl)

theorem finishCompaction_caches (comp : Compaction) :
    Within (CacheStep cfg t A) h Prod.snd (finishCompaction cfg t comp h) := by
  refine .bind (storeAa_caches pool h _ _) fun g _ => .bind (f := id) ?_ fun _ _ =>
    .ok (.of_same rfl rfl)
  refine .after (m := if Incremental cfg comp.size then g.writeMemory comp.targetPartField 0 else g)
    (.of_same ?_ ?_) (releaseSource_caches cfg t _ _ _)
  · split <;> rfl
  · split <;> rfl

theorem copyIncrement_caches (comp : Compaction) :
    Within (CacheStep cfg t A) h Prod.snd (copyIncrement cfg t comp h) := by
  rw [copyIncrement]
  generalize (if cfg.incrementalMemcpy ≠ 0 then min comp.remSize cfg.incrementalMemcpy
    else comp.remSize) = n
  dsimp only
  split
  · exact .ok (.of_same rfl rfl)
  · exact .after (m := { h with memory := memcpy h.memory comp.dest comp.src n })
      (.of_same rfl rfl) (finishCompaction_caches pool _ _)

theorem doCompaction_caches (targetPage targetIndex srcPage size : Nat) :
    Within (CacheStep cfg t A) h Prod.snd
      (doCompaction cfg t c targetPage targetIndex srcPage size h) :=
  .bind (selectSource_caches pool c h srcPage size) fun _ _ => .pass fun _ _ =>
    .bind (flagAa_caches pool _ _ _) fun _ _ => .pass fun _ _ => .pass fun _ _ =>
      copyIncrement_caches pool _ _

theorem resumeCompaction_caches (comp : Compaction) :
    Within (CacheStep cfg t A) h Prod.snd (resumeCompaction cfg t comp h) := by
  refine .pass fun _ _ => ?_
  split
  · exact copyIncrement_caches pool h comp
  · split
    · exact copyIncrement_caches pool h _
    · refine .pass fun _ _ => ?_
      split
      · exact .bind (clearAbstractAddress_caches pool h _) fun _ _ => .ok (.of_same rfl rfl)
      · split
        · exact .bind (clearAbstractAddress_caches pool h _) fun _ _ => .ok (.of_same rfl rfl)
        · exact .error

theorem finishFree_caches (a : Nat) (held : Option Nat) (abort : Nat) :
    Within (CacheStep cfg t A) h id (finishFree cfg t c a held abort h) := by
  have settled : ∀ g : Heap π, Within (CacheStep cfg t A) g id
      (if 0 ≤ cfg.partialCompactionBound ∧ abort = 0 then clearAbstractAddress cfg t a g
        else pure g) := by
    intro g
    split
    · exact clearAbstractAddress_caches pool g a
    · exact .ok (.of_same rfl rfl)
  cases held with
  | none => exact settled h
  | some p => exact .bind (releaseSource_caches cfg t c p h) fun g _ => settled g

theorem settleFree_caches (a : Nat) (held : Option Nat) (r : Outcome × Heap π) :
    Within (CacheStep cfg t A) r.2 Prod.snd (settleFree cfg t a held c r) := by
  obtain ⟨abort | comp, g⟩ := r
  · rw [settleFree]
    exact .bind (finishFree_caches pool c g a held abort) fun _ _ => .ok (.of_same rfl rfl)
  · exact .ok (.of_same rfl rfl)

theorem freeInFullState_caches (a targetPage size index : Nat) :
    Within (CacheStep cfg t A) h Prod.snd (freeInFullState cfg t c a targetPage size index h) := by
  rw [freeInFullState]
  dsimp only
  split
  · refine .pass fun _ _ => .bind (flagAa_caches pool h _ _) fun _ _ =>
      .bind (doFreeFullState_caches cfg t c _ _ _) fun g _ => ?_
    refine .after (m := g.modifyPage targetPage fun pg =>
      { pg with sourceentries := decrement pg.sourceentries }) (.of_same rfl rfl) ?_
    split
    · exact .bind (removePage_caches cfg t c _ _ _) fun _ _ =>
        .bind (addFreePage_caches cfg t _ _) fun g _ =>
          .bind (finishFree_caches pool c g a none 0) fun _ _ => .ok (.of_same rfl rfl)
    · refine .pass fun g same => ?_
      cases same
      exact .bind (finishFree_caches pool c _ a none 0) fun _ _ => .ok (.of_same rfl rfl)
  · exact .bind (doFreeFullState_caches cfg t c _ h _) fun _ _ =>
      .bind (finishFree_caches pool c _ a none 0) fun _ _ => .ok (.of_same rfl rfl)

theorem freeMoving_caches (a srcPage targetBlock size : Nat) :
    Within (CacheStep cfg t A) h Prod.snd (freeMoving cfg t c a srcPage targetBlock size h) := by
  refine .bind (flagAa_caches pool h _ _) fun g _ => ?_
  dsimp only
  split
  · exact .bind (doFree_caches cfg t c _ g _ _) fun g _ =>
      settleFree_caches pool c a _ (.returned 0, g)
  · split
    · refine .bind (getSourcePage_caches cfg t c g) fun r _ => ?_
      refine .after (m := r.2.writeMemory (targetBlock + (size - 4)) a) (.of_same rfl rfl) ?_
      exact .bind (storeAa_caches pool _ _ _) fun _ _ =>
        .bind (doCompaction_caches pool c _ _ _ _ _) fun r _ => settleFree_caches pool c a _ r
    · exact .bind (doFreeNfullState_caches cfg t c _ g _) fun g _ =>
        settleFree_caches pool c a _ (.returned 0, g)

theorem freeStill_caches (a targetPage size index : Nat) :
    Within (CacheStep cfg t A) h Prod.snd (freeStill cfg t c a targetPage size index h) := by
  rw [freeStill]
  split
  · exact .bind (doFree_caches cfg t c _ h _ _) fun g _ =>
      settleFree_caches pool c a _ (.returned 0, g)
  · split
    · exact .bind (getSourcePage_caches cfg t c h) fun _ _ =>
        .bind (doCompaction_caches pool c _ _ _ _ _) fun r _ => settleFree_caches pool c a _ r
    · exact .bind (doFreeNfullState_caches cfg t c _ h _) fun g _ =>
        settleFree_caches pool c a _ (.returned 0, g)

theorem cfFree_caches (a : Nat) : Within (CacheStep cfg t A) h Prod.snd (cfFree cfg t a h) := by
  rw [cfFree]
  split
  · exact .bind (doFree_caches cfg t _ _ h _ _) fun _ _ =>
      .bind (finishFree_caches pool _ _ a none 0) fun _ _ => .ok (.of_same rfl rfl)
  · refine .pass fun _ _ => ?_
    dsimp only
    split
    · exact freeInFullState_caches pool _ h a _ _ _
    · split
      · exact freeMoving_caches pool _ h a _ _ _
      · exact freeStill_caches pool _ h a _ _ _

theorem resumeFree_caches (call : Suspended) :
    Within (CacheStep cfg t A) h Prod.snd (resumeFree cfg t call h) :=
  .bind (resumeCompaction_caches pool h call.comp) fun r _ =>
    settleFree_caches pool _ call.address call.held r

theorem getAbstractAddress_caches (pageBlock : Nat) :
    CacheStep cfg t A h (getAbstractAddress cfg t pageBlock h).2 := by
  have got := pool.get h.addresses
  rw [getAbstractAddress]
  split
  next eq => exact .of_addresses rfl (by rwa [eq] at got)
  next eq =>
    rw [eq] at got
    split
    · exact .of_addresses rfl (IsTrans.trans _ _ _ got (pool.setWord _ _ _))
    · exact .of_addresses rfl got

theorem nameBlock_caches (p index : Nat) :
    CacheStep cfg t A h (nameBlock cfg t c p index h).2 := by
  have named := getAbstractAddress_caches pool h (blockStart p index (blockSize c))
  rw [nameBlock]
  split
  · exact .of_same rfl rfl
  · split
    next eq => rwa [eq] at named
    next eq =>
      rw [eq] at named
      refine IsTrans.trans _ _ _ named ?_
      dsimp only
      split <;> exact .of_same rfl rfl

theorem cfMalloc_caches (size : Nat) :
    Within (CacheStep cfg t A) h Prod.snd (cfMalloc cfg t size h) := by
  refine .pass fun _ _ => .bind (getNfullPage_caches cfg t _ h) fun r _ => ?_
  obtain ⟨_ | p, g⟩ := r
  · exact .ok (.of_same rfl rfl)
  · exact .bind (takePageBlock_caches cfg t _ p g) fun r _ =>
      .ok (nameBlock_caches pool _ r.2 p r.1)

end Calls
end

/-! ### The abstract addresses -/

namespace AddressBuckets

/-- A thread's identifiers and buckets within their bounds. -/
structure AasCached (cfg : AddressConfig) (d : ThreadAddresses) : Prop where
  aas : d.aasCount ≤ cfg.nrLocalAas
  abuckets : d.abucketsCount < cfg.nrLocalAbuckets
  freeAbuckets : d.freeAbucketsCount ≤ cfg.nrLocalFreeAbuckets

/-- What a call of thread `t` does to the identifiers that threads keep. -/
structure AaStep (cfg : AddressConfig) (t : Nat) (σ σ' : AddressBuckets) : Prop where
  others : ∀ u, u ≠ t → σ'.threads u = σ.threads u
  mine : AasCached cfg (σ.threads t) → AasCached cfg (σ'.threads t)

variable {cfg : AddressConfig} {t : Nat} {σ : AddressBuckets}

theorem AaStep.of_threads {σ' : AddressBuckets} (same : σ'.threads = σ.threads) :
    AaStep cfg t σ σ' :=
  ⟨fun _ _ => by rw [same], fun cached => by rwa [same]⟩

instance (cfg : AddressConfig) (t : Nat) : IsPreorder AddressBuckets (AaStep cfg t) where
  refl _ := ⟨fun _ _ => rfl, id⟩
  trans _ _ _ first second :=
    ⟨fun u hu => (second.others u hu).trans (first.others u hu), second.mine ∘ first.mine⟩

theorem AaStep.modifyThread {τ : AddressBuckets} {f : ThreadAddresses → ThreadAddresses}
    (same : τ.threads = σ.threads)
    (cached : AasCached cfg (σ.threads t) → AasCached cfg (f (σ.threads t))) :
    AaStep cfg t σ (τ.modifyThread t f) := by
  refine ⟨fun u hu => ?_, fun ok => ?_⟩
  · rw [modifyThread_other _ _ _ hu, same]
  · rw [modifyThread_same, same]
    exact cached ok

theorem shareFreeAbuckets_caches (cfg : AddressConfig) (t : Nat) (σ : AddressBuckets) :
    AaStep cfg t σ (shareFreeAbuckets cfg t σ) := by
  rw [shareFreeAbuckets]
  split
  · exact .modifyThread rfl fun cached => ⟨cached.aas, cached.abuckets, Nat.zero_le _⟩
  · exact .of_threads rfl

theorem shareFreeAbuckets_room (cfg : AddressConfig) (t : Nat) (σ : AddressBuckets) :
    ((shareFreeAbuckets cfg t σ).threads t).freeAbucketsCount < cfg.nrLocalFreeAbuckets := by
  rw [shareFreeAbuckets]
  split
  · rw [modifyThread_same]
    exact cfg.nrLocalFreeAbuckets_pos
  next few => exact Nat.lt_of_not_le few

theorem keepBucket_caches (maa : Nat) : AaStep cfg t σ (keepBucket cfg t maa σ) := by
  have room := shareFreeAbuckets_room cfg t σ
  refine IsTrans.trans _ _ _ (shareFreeAbuckets_caches cfg t σ) ?_
  rw [keepBucket]
  exact .modifyThread rfl fun cached => ⟨cached.aas, cached.abuckets, room⟩

theorem installAas_caches (maa : Nat) : AaStep cfg t σ (installAas cfg t maa σ) :=
  .modifyThread rfl fun cached => ⟨le_rfl, cached.abuckets, cached.freeAbuckets⟩

theorem aaGet_threads (σ : AddressBuckets) : (aaGet σ).2.threads = σ.threads := by
  rw [aaGet]
  split <;> rfl

theorem aaBucketGet_threads (σ : AddressBuckets) : (aaBucketGet σ).2.threads = σ.threads := by
  rw [aaBucketGet]
  split <;> rfl

theorem refillAas_caches {σ' : AddressBuckets} (run : refillAas cfg t σ = some σ') :
    AaStep cfg t σ σ' := by
  have opened : ∀ {τ : AddressBuckets} maa, AaStep cfg t σ τ →
      AaStep cfg t σ (keepBucket cfg t maa (installAas cfg t maa τ)) := fun maa step =>
    IsTrans.trans _ _ _ step (IsTrans.trans _ _ _ (installAas_caches maa) (keepBucket_caches maa))
  rw [refillAas] at run
  split at run
  · split at run
    · dsimp only at run
      split at run
      · cases run
      · cases run
        exact opened _ (.of_threads (aaGet_threads σ))
    · cases run
      refine opened _ (.modifyThread rfl fun cached => ⟨cached.aas, ?_, cached.freeAbuckets⟩)
      exact (Nat.sub_le _ _).trans_lt cached.abuckets
  · cases run
    exact .of_threads rfl

theorem getFreeAa_caches (cfg : AddressConfig) (t : Nat) (σ : AddressBuckets) :
    AaStep cfg t σ (getFreeAa cfg t σ).2 := by
  rw [getFreeAa]
  split
  · exact .of_threads rfl
  next refilled =>
    refine IsTrans.trans _ _ _ (refillAas_caches refilled) ?_
    dsimp only
    exact .modifyThread rfl fun cached =>
      ⟨(Nat.sub_le _ _).trans cached.aas, cached.abuckets, cached.freeAbuckets⟩

theorem takeFreeAbucket_caches (cfg : AddressConfig) (t : Nat) (σ : AddressBuckets) :
    Within (AaStep cfg t) σ Prod.snd (takeFreeAbucket cfg t σ) := by
  have taken : ∀ τ : AddressBuckets, Within (ε := Fault) (AaStep cfg t) τ Prod.snd
      (.ok ((τ.threads t).freeAbuckets, τ.modifyThread t fun d =>
        { d with
          freeAbuckets := (τ.aaBuckets (τ.threads t).freeAbuckets).localWord
          freeAbucketsCount := d.freeAbucketsCount - 1 })) := by
    refine fun τ => .ok ?_
    dsimp only
    exact .modifyThread rfl fun cached =>
      ⟨cached.aas, cached.abuckets, (Nat.sub_le _ _).trans cached.freeAbuckets⟩
  rw [takeFreeAbucket]
  split
  · refine .pass fun _ _ => .after ?_ (taken _)
    exact .modifyThread (aaBucketGet_threads σ) fun cached =>
      ⟨cached.aas, cached.abuckets, le_rfl⟩
  · exact taken σ

/-- The identifiers of the thread may fill one bucket more than it keeps. -/
theorem closeAas_caches (maa : Nat) (cached : AasCached cfg (σ.threads t)) :
    ((closeAas t maa σ).threads t).aasCount = 0 ∧
      ((closeAas t maa σ).threads t).abucketsCount ≤ cfg.nrLocalAbuckets ∧
      ((closeAas t maa σ).threads t).freeAbucketsCount ≤ cfg.nrLocalFreeAbuckets := by
  rw [closeAas, modifyThread_same]
  exact ⟨rfl, cached.abuckets, cached.freeAbuckets⟩

theorem spillAas_caches (cfg : AddressConfig) (t : Nat) (σ : AddressBuckets) :
    Within (fun σ σ' => AaStep cfg t σ σ' ∧
      (AasCached cfg (σ.threads t) → (σ'.threads t).aasCount < cfg.nrLocalAas)) σ id
      (spillAas cfg t σ) := by
  intro σ' run
  have pos := cfg.nrLocalAbuckets_pos
  rw [spillAas] at run
  split at run
  next =>
    obtain ⟨⟨maa, τ⟩, took, rest⟩ := bind_eq_ok run
    have step := takeFreeAbucket_caches cfg t σ _ took
    have others : ∀ u, u ≠ t → (closeAas t maa τ).threads u = σ.threads u :=
      fun u hu => (modifyThread_other _ t _ hu).trans (step.others u hu)
    cases rest
    split
    next =>
      have shared : ∀ u, u ≠ t → (shareAas t (closeAas t maa τ)).threads u = σ.threads u :=
        fun u hu => (modifyThread_other _ t _ hu).trans (others u hu)
      refine ⟨⟨shared, fun cached => ?_⟩, fun cached => ?_⟩
      · have closed := closeAas_caches maa (step.mine cached)
        rw [id, shareAas, modifyThread_same]
        exact ⟨closed.1.le.trans (Nat.zero_le _), pos, closed.2.2⟩
      · have closed := closeAas_caches maa (step.mine cached)
        rw [id, shareAas, modifyThread_same]
        exact closed.1.trans_lt cfg.nrLocalAas_pos
    next few =>
      refine ⟨⟨others, fun cached => ?_⟩, fun cached => ?_⟩
      · have closed := closeAas_caches maa (step.mine cached)
        exact ⟨closed.1.le.trans (Nat.zero_le _), Nat.lt_of_not_le few, closed.2.2⟩
      · exact (closeAas_caches maa (step.mine cached)).1.trans_lt cfg.nrLocalAas_pos
  next room =>
    cases run
    exact ⟨.of_threads rfl, fun cached => Nat.lt_of_le_of_ne cached.aas room⟩

theorem putFreeAa_caches (cfg : AddressConfig) (t a : Nat) (σ : AddressBuckets) :
    Within (AaStep cfg t) σ id (putFreeAa cfg t a σ) := by
  intro σ' run
  obtain ⟨τ, spilled, rest⟩ := bind_eq_ok run
  obtain ⟨step, room⟩ := spillAas_caches cfg t σ _ spilled
  cases rest
  refine ⟨fun u hu => ?_, fun cached => ?_⟩
  · rw [id, pushAa, modifyThread_other _ _ _ hu, ← step.others u hu]
    split <;> rfl
  · have kept := step.mine cached
    have lt := room cached
    rw [id, pushAa, modifyThread_same]
    split <;> exact ⟨lt, kept.abuckets, kept.freeAbuckets⟩

theorem addressSteps (cfg : AddressConfig) (t : Nat) : AddressSteps cfg t (AaStep cfg t) :=
  ⟨fun _ _ _ => .of_threads rfl, getFreeAa_caches cfg t, putFreeAa_caches cfg t⟩

end AddressBuckets

/-! ### Runs -/

def Action.By (t : Nat) : Action → Prop
  | .malloc u _ | .free u _ | .resume u => u = t
  | .write .. => False

/-- A step touches the suspended call of its own thread only. -/
theorem perform_calls {π : Type} [AddressPool π] {cfg : Config} {S S' : System π} {a : Action}
    {t : Nat} (run : perform cfg S a = .ok S') (other : ¬ a.By t) :
    S'.calls t = S.calls t := by
  cases a with
  | malloc u size =>
      obtain ⟨⟨r, h⟩, called, rest⟩ := bind_eq_ok run
      cases r <;> (cases rest; rfl)
  | free u a =>
      obtain ⟨⟨r, h⟩, called, rest⟩ := bind_eq_ok run
      cases rest
      exact update_of_ne (Ne.symm other) _ _
  | resume u =>
      rw [perform, System.resume] at run
      split at run
      · cases run
        rfl
      · obtain ⟨⟨r, h⟩, called, rest⟩ := bind_eq_ok run
        cases rest
        exact update_of_ne (Ne.symm other) _ _
  | write a j x =>
      rw [perform, System.write] at run
      split at run
      · cases run
        rfl
      · obtain ⟨byte, _, rest⟩ := bind_eq_ok run
        cases rest
        rfl

/-- What thread `t` keeps of pages and of abstract addresses is within its bounds. -/
structure ThreadCached (cfg : Config) (t : Nat) (h : Heap AddressBuckets) : Prop where
  pages : Cached cfg (h.threads t)
  addresses : AddressBuckets.AasCached cfg.toAddressConfig (h.addresses.threads t)

structure CachesKept (t : Nat) (h h' : Heap AddressBuckets) : Prop where
  pages : h'.threads t = h.threads t
  addresses : h'.addresses.threads t = h.addresses.threads t

section Runs
open AddressBuckets
variable {cfg : Config} {T t : Nat} {S S' : System AddressBuckets} {a : Action}

theorem CachesKept.cached {h h' : Heap AddressBuckets} (kept : CachesKept t h h')
    (cached : ThreadCached cfg t h) : ThreadCached cfg t h' :=
  ⟨kept.pages ▸ cached.pages, kept.addresses ▸ cached.addresses⟩

/-- A call, as its own thread and as another thread sees it. -/
theorem CacheStep.threads {h h' : Heap AddressBuckets} {u : Nat}
    (step : CacheStep cfg u (AaStep cfg.toAddressConfig u) h h') (t : Nat) :
    (u ≠ t → CachesKept t h h') ∧ (ThreadCached cfg t h → ThreadCached cfg t h') := by
  by_cases hu : u = t
  · subst hu
    exact ⟨fun ne => absurd rfl ne, fun cached =>
      ⟨step.mine cached.pages, step.addresses.mine cached.addresses⟩⟩
  · have kept : CachesKept t h h' :=
      ⟨step.others t (Ne.symm hu), step.addresses.others t (Ne.symm hu)⟩
    exact ⟨fun _ => kept, kept.cached⟩

theorem perform_caches (run : perform cfg S a = .ok S') (t : Nat) :
    (¬ a.By t → CachesKept t S.heap S'.heap) ∧
      (ThreadCached cfg t S.heap → ThreadCached cfg t S'.heap) := by
  have pool := addressSteps cfg.toAddressConfig
  cases a with
  | malloc u size =>
      obtain ⟨⟨r, h⟩, called, rest⟩ := bind_eq_ok run
      have step := (cfMalloc_caches (pool u) S.heap size _ called).threads t
      cases r <;> (cases rest; exact step)
  | free u a =>
      obtain ⟨⟨r, h⟩, called, rest⟩ := bind_eq_ok run
      have step := (cfFree_caches (pool u) S.heap a _ called).threads t
      cases rest
      exact step
  | resume u =>
      rw [perform, System.resume] at run
      split at run
      · cases run
        exact ⟨fun _ => ⟨rfl, rfl⟩, id⟩
      next call _ =>
        obtain ⟨⟨r, h⟩, called, rest⟩ := bind_eq_ok run
        have step := (resumeFree_caches (pool u) S.heap call _ called).threads t
        cases rest
        exact step
  | write a j x =>
      rw [perform, System.write] at run
      have kept : CachesKept t S.heap S'.heap := by
        split at run
        · cases run
          exact ⟨rfl, rfl⟩
        · obtain ⟨byte, _, rest⟩ := bind_eq_ok run
          cases rest
          exact ⟨rfl, rfl⟩
      exact ⟨fun _ => kept, kept.cached⟩

theorem By.lt (enabled : Enabled cfg T S a) (idle : ∀ t, T ≤ t → S.calls t = none)
    (mine : a.By t) : t < T := by
  cases a with
  | malloc u size => exact mine ▸ enabled.1
  | free u a => exact mine ▸ enabled.1
  | resume u =>
      by_contra ge
      exact enabled (mine ▸ idle t (Nat.le_of_not_lt ge))
  | write a j x => cases mine

theorem initHeap_caches {π : Type} (cfg : Config) (addresses : π) (t : Nat) :
    ((initHeap cfg addresses).threads t).pagesCount = 0 ∧
      ((initHeap cfg addresses).threads t).pbucketsCount = 0 := by
  obtain ⟨bs, pool, _⟩ := initHeap_pool cfg addresses
  exact ⟨pool.rep.pagesCount t, pool.rep.pbucketsCount t⟩

theorem init_threadCached (cfg : Config) (t : Nat) :
    ThreadCached cfg t (System.init cfg (initFreeAaList cfg.toAddressConfig)).heap := by
  obtain ⟨pages, buckets⟩ := initHeap_caches cfg (initFreeAaList cfg.toAddressConfig) t
  have addresses : (initHeap cfg (initFreeAaList cfg.toAddressConfig)).addresses =
      initFreeAaList cfg.toAddressConfig := (initHeap_spec cfg _).2.2.2.2
  refine ⟨⟨?_, ?_⟩, ?_⟩
  · exact pages.le.trans (Nat.zero_le _)
  · exact buckets.trans_lt cfg.nrLocalPbuckets_pos
  · rw [System.init, addresses, (filled_init cfg.toAddressConfig).threads t]
    exact ⟨Nat.zero_le _, cfg.nrLocalAbuckets_pos, Nat.zero_le _⟩

variable {allowed : System AddressBuckets → Action → Prop} {addresses : AddressBuckets}

theorem Run.caches_idle (run : Run cfg T allowed addresses S) (ge : T ≤ t) :
    S.calls t = none ∧ CachesKept t (initHeap cfg addresses) S.heap := by
  induction run generalizing t with
  | init => exact ⟨rfl, rfl, rfl⟩
  | step a _ enabled _ run ih =>
      have other : ¬ a.By t := fun mine =>
        absurd (By.lt enabled (fun u hu => (ih hu).1) mine) (Nat.not_lt.mpr ge)
      have kept := (perform_caches run t).1 other
      exact ⟨(perform_calls run other).trans (ih ge).1, kept.pages.trans (ih ge).2.pages,
        kept.addresses.trans (ih ge).2.addresses⟩

theorem Run.threadCached
    (run : Run cfg T allowed (initFreeAaList cfg.toAddressConfig) S) (t : Nat) :
    ThreadCached cfg t S.heap := by
  induction run with
  | init => exact init_threadCached cfg t
  | step a _ _ _ run ih => exact (perform_caches run t).2 ih

def StepWithout (cfg : Config) (T t : Nat) (S S' : System AddressBuckets) : Prop :=
  ∃ a, Enabled cfg T S a ∧ ¬ a.By t ∧ perform cfg S a = .ok S'

/-- In every run the caches of a thread are within their bounds, and a thread that makes
no more calls keeps what it has for good. -/
theorem thread_caches_kept (cfg : Config) (T : Nat)
    (allowed : System AddressBuckets → Action → Prop) (S : System AddressBuckets)
    (run : Run cfg T allowed (initFreeAaList cfg.toAddressConfig) S) (t : Nat) :
    ThreadCached cfg t S.heap ∧ ∀ S' : System AddressBuckets,
      Relation.ReflTransGen (StepWithout cfg T t) S S' → CachesKept t S.heap S'.heap := by
  refine ⟨run.threadCached t, fun S' rest => ?_⟩
  induction rest with
  | refl => exact ⟨rfl, rfl⟩
  | tail _ step ih =>
      obtain ⟨a, _, other, run⟩ := step
      have kept := (perform_caches run t).1 other
      exact ⟨kept.pages.trans ih.pages, kept.addresses.trans ih.addresses⟩

/-- Thread 0 frees its only object and ends; its page stays with it. -/
theorem thread_caches_kept_ended : ∃ S S' : System AddressBuckets,
    (S.heap.threads 0).pagesCount = 1 ∧ StepWithout smallConfig 2 0 S S' ∧
      CachesKept 0 S.heap S'.heap := by
  obtain ⟨S, run, found⟩ := reachable_of_script smallConfig 2
    (initFreeAaList smallConfig.toAddressConfig) [.malloc 0 40, .free 0 1048828]
    (p := fun S => decide ((S.heap.threads 0).pagesCount = 1) && ((S.calls 1).isNone &&
      (perform smallConfig S (.malloc 1 40)).toOption.isSome)) (by decide +kernel)
  obtain ⟨one, rest⟩ := (Bool.and_eq_true _ _).mp found
  obtain ⟨idle, next⟩ := (Bool.and_eq_true _ _).mp rest
  cases hr : perform smallConfig S (.malloc 1 40) with
  | error e =>
      rw [hr] at next
      cases next
  | ok S' =>
      have step : StepWithout smallConfig 2 0 S S' :=
        ⟨.malloc 1 40, ⟨by decide, Option.isNone_iff_eq_none.mp idle⟩, Nat.one_ne_zero, hr⟩
      exact ⟨S, S', of_decide_eq_true one, step,
        (thread_caches_kept smallConfig 2 _ S run 0).2 S' (.single step)⟩

end Runs
end CompactFit
