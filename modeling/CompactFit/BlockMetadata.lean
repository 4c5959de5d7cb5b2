import CompactFit.AbortFinality
import CompactFit.Safety

/-!
The two words at the end of a page block: the back-pointer, and before it the partition
word that blocks larger than `incremental_memcpy` have. `cf_malloc` reserves the partition
word by the size of the request, and a copy increment may end anywhere. The user bytes stay
clear of the partition word if no block is larger than one increment by less than a word; the
back-pointer of a target block is whole at every release of the class lock if no increment
ends inside the last word of a block that is copied.
-/

namespace CompactFit
open Function ByteMemory AddressPool LawfulAddressPool

/-- The adjusted size of the request lies in the size-class table, or above it in a page. -/
def Covered (cfg : Config) (size : Nat) : Prop :=
  size + 4 ≤ pageDataSize ∧ adjustedSize cfg size ≤ pageDataSize ∧
    adjustedSize cfg size ≠ largestSc

/-- The user bytes end before the partition word of a block that has one. -/
def UserBytesApart (cfg : Config) : Prop :=
  ∀ size, Covered cfg size → cfg.incrementalMemcpy < blockSize (requestClass cfg size) →
    size + 8 ≤ blockSize (requestClass cfg size)

/-- No block is larger than one increment by less than a word. -/
def ReservesAll (inc : Nat) : Prop :=
  ∀ c, c < sizeClasses → inc + 4 ≤ blockSize c ∨ blockSize c ≤ inc

theorem reservesAll_of_multiple {inc : Nat} (word : inc % 4 = 0) : ReservesAll inc := by
  intro c hc
  have size := blockSize_word hc
  omega

def Compaction.source (comp : Compaction) : Block := ⟨comp.srcPage, comp.srcIndex⟩

/-- The local variables of `do_compaction` after `i` increments. -/
structure InProgress (cfg : Config) (comp : Compaction) (i : Nat) : Prop where
  sc : comp.sc < sizeClasses
  size : comp.size = blockSize comp.sc
  indices : comp.targetIndex < capacity comp.sc ∧ comp.srcIndex < capacity comp.sc
  pages : InHeap cfg comp.targetPage ∧ InHeap cfg comp.srcPage
  apart : comp.target ≠ comp.source
  remSize : comp.remSize + i * cfg.incrementalMemcpy = comp.size
  dest : comp.dest = blockStart comp.targetPage comp.targetIndex comp.size +
    i * cfg.incrementalMemcpy
  src : comp.src = blockStart comp.srcPage comp.srcIndex comp.size + i * cfg.incrementalMemcpy
  targetPartField : comp.targetPartField =
    partitionField comp.targetPage comp.targetIndex comp.size
  srcPartField : comp.srcPartField = partitionField comp.srcPage comp.srcIndex comp.size
  addresses : IsAa cfg comp.targetAa ∧ IsAa cfg comp.srcAa

section
variable {π : Type} [AddressPool π]

/-- The last two words of the target block hold one pointer each. -/
structure PointersWhole (comp : Compaction) (h : Heap π) : Prop where
  back : readWord h.memory (addressField comp.targetPage comp.targetIndex comp.size) =
    comp.targetAa
  partition : readWord h.memory comp.targetPartField =
    blockStart comp.srcPage comp.srcIndex comp.size

/-! ### The user bytes -/

section Requests
variable {cfg : Config}

theorem Covered.class {size : Nat} (covered : Covered cfg size) :
    adjustedSize cfg size ≤ blockSize (requestClass cfg size) ∧
      requestClass cfg size < sizeClasses := by
  obtain ⟨_, page, table⟩ := covered
  rcases Nat.lt_or_gt_of_ne table with below | above
  · exact (getSizeClassIndex_small cfg.past below).symm
  · rw [requestClass, getSizeClassIndex_large cfg.past above, blockSize_largest]
    exact ⟨page, by decide⟩

theorem userBytesApart_of_reserves (reserves : ReservesAll cfg.incrementalMemcpy)
    (pos : 0 < cfg.incrementalMemcpy) : UserBytesApart cfg := by
  intro size covered large
  have enough := covered.class
  have small := covered.1
  simp only [pageDataSize, pageSize, pageHeader] at small
  by_cases reserved : cfg.incrementalMemcpy ≠ 0 ∧ cfg.incrementalMemcpy < size + 4
  · have adjusted : adjustedSize cfg size = size + 8 := by
      have wrap : (size + 4) % 4294967296 = size + 4 := by omega
      simp only [adjustedSize, wrap, if_pos reserved]
      omega
    omega
  · have apart := reserves _ enough.2
    omega

/-- The request that fills one increment gets the block that exceeds it by less than a word. -/
theorem UserBytesApart.reservesAll (apart : UserBytesApart cfg) (pos : 0 < cfg.incrementalMemcpy) :
    ReservesAll cfg.incrementalMemcpy := by
  intro c hc
  by_contra near
  have large := blockSize_min hc
  have small := blockSize_max hc
  have word := blockSize_word hc
  have adjusted : adjustedSize cfg (cfg.incrementalMemcpy - 4) = cfg.incrementalMemcpy := by
    have wrap : (cfg.incrementalMemcpy - 4 + 4) % 4294967296 = cfg.incrementalMemcpy := by omega
    simp only [adjustedSize, wrap, Nat.lt_irrefl, and_false, if_false]
  have class' : requestClass cfg (cfg.incrementalMemcpy - 4) = c := by
    rw [requestClass, adjusted]
    exact getSizeClassIndex_near cfg.past hc (by omega) (by omega)
  have covered : Covered cfg (cfg.incrementalMemcpy - 4) := by
    rw [Covered, adjusted]
    simp only [pageDataSize, pageSize, pageHeader, largestSc]
    omega
  have fits := apart _ covered (by rw [class']; omega)
  rw [class'] at fits
  omega

end Requests

/-! ### The release points of a run -/

section Runs
variable [LawfulAddressPool π] {cfg : Config} {T t : Nat} {h : Heap π} {live : Live} {F : Frames}
  {f : Frame} {B : Block} {s : Source}

/-- The suspended calls of a run copy like this. -/
theorem Good.inProgress (good : Good cfg T h live F) (hF : F t = some f)
    (target : f.target = some B) (source : f.source = some s) (linked : s.linked = true)
    (j : Nat) : ∃ i, InProgress cfg (f.compaction B s j) i ∧
      PointersWhole (f.compaction B s j) h := by
  have c := good.copying hF target source
  obtain ⟨_, carries, _, sc⟩ := good.target_facts hF target
  obtain ⟨o, hlive, sok⟩ := c.obj
  obtain ⟨i, copied⟩ := sok.chunks
  have placedB := carries.placed
  have placedS := sok.carries.placed
  have scS : (h.pages s.block.page).sc = f.sc := sok.sc.trans sc
  have fit := c.sizeB ▸ sok.copied
  have inUseB : (h.view cfg).InUse B.page := View.used_inUse c.used
  have inUseS : (h.view cfg).InUse s.block.page := .inr c.entries
  have isAaT := good.isAa _ (Good.out_call hF)
  have isAaS := good.isAa s.address (.inl (by rw [hlive]; simp))
  rw [Nat.mul_comm] at copied
  have back := carries.back
  have part := (sok.linked linked).2.1
  simp only [View.back, View.part, c.sizeB] at back part
  rw [← c.starts.2] at part
  have valid : f.sc < sizeClasses := sc ▸ placedB.sc
  have indexB : B.index < capacity f.sc := sc ▸ placedB.index
  have indexS : s.block.index < capacity f.sc := scS ▸ placedS.index
  refine ⟨i, ?_, back, part⟩
  exact
    { sc := valid
      size := rfl
      indices := ⟨indexB, indexS⟩
      pages := ⟨(good.heap.range _).mp (good.heap.listed_of_inUse inUseB),
        (good.heap.range _).mp (good.heap.listed_of_inUse inUseS)⟩
      apart := c.ne
      remSize := by simp only [Frame.compaction]; omega
      dest := by simp only [Frame.compaction, copied]
      src := by simp only [Frame.compaction, copied]
      targetPartField := rfl
      srcPartField := rfl
      addresses := ⟨isAaT, isAaS⟩ }

end Runs

/-- The step `a` ends with the release of the class lock between two increments of `call`, which
thread `t` is suspended in from then on. -/
structure Releases (cfg : Config) (S : System π) (a : Action) (S' : System π) (t : Nat)
    (call : Suspended) : Prop where
  mine : a = .resume t ∨ ∃ address, a = .free t address
  step : perform cfg S a = .ok S'
  suspended : S'.calls t = some call

section Runs
variable [LawfulAddressPool π] {cfg : Config} {T t : Nat} {addresses : π} {S S' : System π}
  {allowed : System π → Action → Prop} {a : Action} {call : Suspended}

/-- A call that has just released the lock goes on copying. -/
theorem Run.answering (run : Run cfg T allowed addresses S) (config : cfg.Compacting)
    (orderly : ∀ S a, allowed S a → Clean cfg S a ∧ AbortsFinal cfg S a)
    (valid : Valid cfg.toAddressConfig T (fun _ => False) addresses) (enabled : Enabled cfg T S a)
    (ok : allowed S a) (releases : Releases cfg S a S' t call) :
    ∃ F f, Good cfg T S'.heap S'.live F ∧ F t = some f ∧ Waiting call f ∧ f.target ≠ none := by
  obtain ⟨F, good, answers⟩ := run.sound config orderly valid
  have perform := releases.step
  have suspended := releases.suspended
  have outcome : ∃ F', Stepped cfg T S a S' F' ∧ Answering (S'.calls t) (F' t) := by
    rcases releases.mine with rfl | ⟨address, rfl⟩
    · have once : ∀ f, F t = some f → f.target = none → cfg.memcpyMultiplicator = 1 := by
        intro f hF none
        obtain ⟨call, hc, waiting⟩ := answers_frame answers hF
        exact (orderly _ _ ok).2 call hc (good.aborted_of_lost hF waiting none)
      rcases resume_stepped good answers config enabled once with
        ⟨R, run', F', stepped, mine, _⟩ | ⟨run', _⟩
      · obtain rfl : R = S' := Except.ok.inj (run'.symm.trans perform)
        exact ⟨F', stepped, mine⟩
      · cases run'.symm.trans perform
    · rcases free_stepped good answers config enabled.1 enabled.2.1 enabled.2.2 with
        ⟨R, run', F', stepped, mine, _⟩ | ⟨run', _⟩
      · obtain rfl : R = S' := Except.ok.inj (run'.symm.trans perform)
        exact ⟨F', stepped, mine⟩
      · cases run'.symm.trans perform
  obtain ⟨F', stepped, mine⟩ := outcome
  rw [suspended] at mine
  cases hF : F' t with
  | none =>
      rw [hF] at mine
      cases mine
  | some f =>
      rw [hF] at mine
      exact ⟨F', f, stepped.good, hF, mine.1, mine.2⟩

theorem Run.pointersWhole (run : Run cfg T allowed addresses S) (config : cfg.Compacting)
    (orderly : ∀ S a, allowed S a → Clean cfg S a ∧ AbortsFinal cfg S a)
    (valid : Valid cfg.toAddressConfig T (fun _ => False) addresses) (enabled : Enabled cfg T S a)
    (ok : allowed S a) (releases : Releases cfg S a S' t call) :
    ∃ i, InProgress cfg call.comp i ∧ PointersWhole call.comp S'.heap := by
  obtain ⟨F, f, good, hF, waiting, running⟩ :=
    run.answering config orderly valid enabled ok releases
  cases waiting with
  | copying target source linked => exact good.inProgress hF target source linked 0
  | aborted none => exact absurd none running

end Runs

end

/-- At every release of the class lock in a run, the last two words of the target block are
whole. -/
def PointersKept (cfg : Config) (T : Nat) : Prop :=
  ∀ (S S' : System AddressBuckets) (a : Action) (t : Nat) (call : Suspended),
    Run cfg T (fun S a => Clean cfg S a ∧ AbortsFinal cfg S a)
      (AddressBuckets.initFreeAaList cfg.toAddressConfig) S →
    Enabled cfg T S a → Clean cfg S a → AbortsFinal cfg S a → Releases cfg S a S' t call →
    ∃ i, InProgress cfg call.comp i ∧ PointersWhole call.comp S'.heap

/-- With increments of `c` bytes the user bytes of every request end before the partition word
exactly when no block is larger than `c` by less than a word; and if no increment ends inside the
last word of a block that can be copied, both words are whole at every release of the lock. -/
theorem metadataIntact_iff (c : Nat) (pos : 0 < c) (int : c < 2147483648) :
    ((∀ cfg : Config, cfg.incrementalMemcpy = c → UserBytesApart cfg) ↔ ReservesAll c) ∧
      (WholeCopies c → ∀ (cfg : Config) (T : Nat), cfg.incrementalMemcpy = c →
        1 ≤ cfg.partialCompactionBound → PointersKept cfg T) := by
  refine ⟨⟨fun apart => ?_, ?_⟩, ?_⟩
  · let cfg : Config := { smallConfig with
      incrementalMemcpy := c
      incrementalMemcpy_int := int }
    have sparing : UserBytesApart cfg := apart cfg rfl
    exact sparing.reservesAll pos
  · rintro reserves cfg rfl
    exact userBytesApart_of_reserves reserves pos
  · rintro whole cfg T rfl bound S S' a t call run enabled clean final releases
    exact run.pointersWhole ⟨bound, whole⟩ (fun _ _ ok => ok) (AddressBuckets.valid_init _ T)
      enabled ⟨clean, final⟩ releases

/-- Thread 0 can free `a`, and the call releases the class lock. -/
def releasesLock (cfg : Config) (a : Nat) (S : System AddressBuckets) : Bool :=
  ready cfg 2 S (.free 0 a) &&
    match perform cfg S (.free 0 a) with
    | .ok S' => (S'.calls 0).isSome
    | .error _ => false

theorem releasesLock_sound {cfg : Config} {a : Nat} {S : System AddressBuckets}
    (h : releasesLock cfg a S = true) : Enabled cfg 2 S (.free 0 a) ∧ Clean cfg S (.free 0 a) ∧
      ∃ S' call, Releases cfg S (.free 0 a) S' 0 call := by
  obtain ⟨ok, released⟩ := (Bool.and_eq_true _ _).mp h
  obtain ⟨enabled, clean⟩ := ready_sound ok
  refine ⟨enabled, clean, ?_⟩
  split at released
  next S' run =>
    obtain ⟨call, hc⟩ := Option.isSome_iff_exists.mp released
    exact ⟨S', call, .inr ⟨a, rfl⟩, run, hc⟩
  next => cases released

/-- With four objects on two pages, one of each freed, the second free starts a compaction. -/
theorem smallConfig_releases : ∃ (S S' : System AddressBuckets) (call : Suspended),
    Run smallConfig 2 (fun S a => Clean smallConfig S a ∧ AbortsFinal smallConfig S a)
        (AddressBuckets.initFreeAaList smallConfig.toAddressConfig) S ∧
      Enabled smallConfig 2 S (.free 0 1048816) ∧ Clean smallConfig S (.free 0 1048816) ∧
      Releases smallConfig S (.free 0 1048816) S' 0 call := by
  obtain ⟨S, reachable, found⟩ := reachable_of_script smallConfig 2
    (AddressBuckets.initFreeAaList smallConfig.toAddressConfig)
    [.malloc 0 7000, .malloc 0 7000, .malloc 0 7000, .malloc 0 7000, .free 0 1048824]
    (p := releasesLock smallConfig 1048816) (by decide +kernel)
  obtain ⟨enabled, clean, S', call, releases⟩ := releasesLock_sound found
  exact ⟨S, S', call, reachable.mono fun _ a clean => ⟨clean, abortsFinal_once rfl a⟩, enabled,
    clean, releases⟩

theorem metadataIntact_4096 : UserBytesApart smallConfig ∧
    ∃ (S S' : System AddressBuckets) (call : Suspended),
      Releases smallConfig S (.free 0 1048816) S' 0 call ∧ PointersWhole call.comp S'.heap := by
  refine ⟨(metadataIntact_iff 4096 (by decide) (by decide)).1.mpr
    (reservesAll_of_multiple (by decide)) smallConfig rfl, ?_⟩
  obtain ⟨S, S', call, run, enabled, clean, releases⟩ := smallConfig_releases
  obtain ⟨_, _, whole⟩ := (metadataIntact_iff 4096 (by decide) (by decide)).2
    (wholeCopies_of_multiple (by decide)) smallConfig 2 rfl (by decide) S S' _ 0 call run enabled
    clean (abortsFinal_once rfl _) releases
  exact ⟨S, S', call, releases, whole⟩

def unevenConfig : Config :=
  { smallConfig with
    incrementalMemcpy := 17
    incrementalMemcpy_int := by decide }

/-- With increments of 17 bytes, a request of 13 gets a block of 20, whose partition word is at
byte 12. -/
theorem metadata_overlaps : ¬ UserBytesApart unevenConfig := by
  intro apart
  have block : blockSize (requestClass unevenConfig 13) = 20 := by decide +kernel
  have covered : Covered unevenConfig 13 := ⟨by decide, by decide, by decide⟩
  have fits := apart 13 covered (by rw [block]; exact (by decide : 17 < 20))
  rw [block] at fits
  exact absurd fits (by decide)

/-- `smallConfig` with increments of 3745 bytes, two of which end inside the last word of a block
of 7492, and with an abstract address space across a change of the higher bytes. -/
def splitConfig : Config :=
  { smallConfig with
    incrementalMemcpy := 3745
    incrementalMemcpy_int := by decide
    aaSpace := 1048328
    aaSpace_pos := by decide
    aaSpace_end := by decide }

/-- Thread 0 is suspended, and the last word of its target block is neither pointer. -/
def mixedCall (S : System AddressBuckets) : Bool :=
  (S.calls 0).any fun call =>
    let back := readWord S.heap.memory
      (addressField call.comp.targetPage call.comp.targetIndex call.comp.size)
    back ≠ call.comp.targetAa && back ≠ call.comp.srcAa

/-- The last word of a target block mixes two pointers after the second increment. -/
theorem pointers_mixed : ∃ (S : System AddressBuckets) (call : Suspended),
    Reachable splitConfig 2 (AddressBuckets.initFreeAaList splitConfig.toAddressConfig) S ∧
      S.calls 0 = some call ∧ ¬ PointersWhole call.comp S.heap := by
  obtain ⟨S, reachable, found⟩ := reachable_of_script splitConfig 2
    (AddressBuckets.initFreeAaList splitConfig.toAddressConfig)
    [.malloc 0 7000, .malloc 0 7000, .malloc 0 7000, .malloc 0 7000, .free 0 1048576,
      .free 0 1048572, .resume 0] (p := mixedCall) (by decide +kernel)
  obtain ⟨call, hc, mixed⟩ := (Option.any_eq_true _ _).mp found
  simp only [Bool.and_eq_true, decide_eq_true_eq] at mixed
  exact ⟨S, call, reachable, hc, fun whole => mixed.1 whole.back⟩

end CompactFit
