import CompactFit.NonMoving
import CompactFit.SequentialIntegrity
import Mathlib.Data.Set.Card

/-!
The accounting of pages at the operation boundaries, with and without compaction. Every page
is in the pool or in one list of its class, its counter counts its used blocks, and these are
the blocks of the live objects.
-/

namespace CompactFit
open Function ByteMemory AddressPool LawfulAddressPool

section
variable {π : Type} [AddressPool π]

def liveIn (cfg : Config) (p : Nat) (S : System π) : Set Nat :=
  { a | S.live a ≠ none ∧ pageOfBlock (S.heap.pageBlock cfg a) = p }

structure Pooled (P : BucketPool.Pool Nat Nat) (p : Nat) (h : Heap π) : Prop where
  holds : P.Holds p
  flag : (h.pages p).listFlags = .free
  words : ∀ w, w < 34 → (h.pages p).usedPageBlockBitmap.words w = 0#32
  entries : (h.pages p).sourceentries = 0
  listed : ∀ c f, p ∉ (h.classes c).lists f

/-- Page `p` is in the not-full or in the full list of its class, and nowhere else. -/
structure Listed (P : BucketPool.Pool Nat Nat) (p : Nat) (h : Heap π) : Prop where
  notHolds : ¬ P.Holds p
  flag : (h.pages p).listFlags = .nfull ∨ (h.pages p).listFlags = .full
  listed : ∀ c f, p ∈ (h.classes c).lists f ↔
    c = (h.pages p).sc ∧ f = (h.pages p).listFlags

structure Counted (cfg : Config) (p : Nat) (S : System π) : Prop where
  used : (S.heap.pages p).nrUsedPageBlocks =
    (S.heap.pages p).usedPageBlockBitmap.usedBlocks.card
  live : (liveIn cfg p S).encard = (S.heap.pages p).nrUsedPageBlocks
  full : (S.heap.pages p).nrUsedPageBlocks = capacity (S.heap.pages p).sc ↔
    p ∈ (S.heap.classes (S.heap.pages p).sc).lists .full
  nfull : (0 < (S.heap.pages p).nrUsedPageBlocks ∧
      (S.heap.pages p).nrUsedPageBlocks < capacity (S.heap.pages p).sc) ↔
    p ∈ (S.heap.classes (S.heap.pages p).sc).lists .nfull

structure ClassCounted (cfg : Config) (c : Nat) (h : Heap π) : Prop where
  nodup : ∀ f, ((h.classes c).lists f).Nodup
  inHeap : ∀ f p, p ∈ (h.classes c).lists f → InHeap cfg p
  source : (h.classes c).lists .source = []
  emptying : (h.classes c).lists .emptying = []
  nrPages : (h.classes c).nrPages =
    ((h.classes c).lists .nfull).length + ((h.classes c).lists .full).length
  nfullentries : (h.classes c).nfullentries = ((h.classes c).lists .nfull).length

/-- The adjusted size has an entry in the table or fits a page. -/
def InRange (cfg : Config) (size : Nat) : Prop :=
  adjustedSize cfg size < largestSc ∨
    largestSc < adjustedSize cfg size ∧ adjustedSize cfg size ≤ pageDataSize

instance (cfg : Config) (size : Nat) : Decidable (InRange cfg size) :=
  inferInstanceAs (Decidable (_ ∨ _ ∧ _))

/-- Requests are in range and do not run out of addresses, and the application stays in its
objects. -/
def Ordinary (cfg : Config) (S : System π) : Action → Prop
  | .malloc t size => InRange cfg size ∧ (compactionOn cfg → ¬ AddressExhausted cfg t size S.heap)
  | .write a j _ => compactionOn cfg ∨ InsideBlock cfg S a j
  | _ => True

/-- The pages are accounted for, and the next operation does not fail an assertion. -/
structure Accounted (cfg : Config) (T : Nat) (S : System π) (P : BucketPool.Pool Nat Nat) :
    Prop where
  pool : PoolOk cfg S.heap P
  place : ∀ p, InHeap cfg p → Pooled P p S.heap ∨ Listed P p S.heap
  counted : ∀ p, InHeap cfg p → Counted cfg p S
  classes : ∀ c, ClassCounted cfg c S.heap
  asserts : ∀ a, Enabled cfg T S a → Ordinary cfg S a →
    (∃ S', performWhole cfg S a = .ok S') ∨ performWhole cfg S a = .error .emptyBucket
  returned : (∀ a, S.live a = none) →
    (∀ c, (S.heap.classes c).nrPages = 0) ∧ ∀ p, InHeap cfg p → P.Holds p

/-- At an operation boundary the used blocks are those of the live objects, and no page is a
source page. -/
structure Quiescent (cfg : Config) (S : System π) : Prop where
  heap : HeapOk cfg S.heap
  entries : ∀ p, (S.heap.pages p).sourceentries = 0
  block : ∀ a, S.live a ≠ none →
    ∃ B, (S.heap.view cfg).used B ∧ (S.heap.view cfg).start B = S.heap.pageBlock cfg a
  owner : ∀ B, (S.heap.view cfg).used B →
    ∃ a, S.live a ≠ none ∧ S.heap.pageBlock cfg a = (S.heap.view cfg).start B
  inj : ∀ a b, S.live a ≠ none → S.live b ≠ none →
    S.heap.pageBlock cfg a = S.heap.pageBlock cfg b → a = b

section Pages
variable {cfg : Config} {T t p c : Nat} {S : System π}

theorem Quiescent.live_card (quiescent : Quiescent cfg S) (p : Nat) :
    (liveIn cfg p S).encard = (S.heap.pages p).nrUsedPageBlocks := by
  have inj : Set.InjOn (S.heap.pageBlock cfg ·) (liveIn cfg p S) :=
    fun a ha b hb eq => quiescent.inj a b ha.1 hb.1 eq
  have starts : Set.InjOn (fun i => (S.heap.view cfg).start ⟨p, i⟩)
      ((S.heap.pages p).usedPageBlockBitmap.usedBlocks : Set Nat) := by
    intro i hi j hj eq
    have usedI : (S.heap.view cfg).used ⟨p, i⟩ := UsedBitmap.mem_usedBlocks.mp hi
    have usedJ : (S.heap.view cfg).used ⟨p, j⟩ := UsedBitmap.mem_usedBlocks.mp hj
    exact congrArg Block.index
      ((quiescent.heap.placed usedI).start_inj (quiescent.heap.placed usedJ) eq)
  have page : ∀ {B}, (S.heap.view cfg).used B →
      pageOfBlock ((S.heap.view cfg).start B) = B.page := fun used => by
    have placed := quiescent.heap.placed used
    have large := placed.size_ge
    exact placed.pageOfBlock le_rfl (by omega)
  have image : (S.heap.pageBlock cfg ·) '' liveIn cfg p S =
      (fun i => (S.heap.view cfg).start ⟨p, i⟩) ''
        ((S.heap.pages p).usedPageBlockBitmap.usedBlocks : Set Nat) := by
    ext x
    constructor
    · rintro ⟨a, ⟨alive, at_⟩, rfl⟩
      obtain ⟨B, used, start⟩ := quiescent.block a alive
      rw [← start, page used] at at_
      subst at_
      exact ⟨B.index, UsedBitmap.mem_usedBlocks.mpr used, start⟩
    · rintro ⟨i, hi, rfl⟩
      have used : (S.heap.view cfg).used ⟨p, i⟩ := UsedBitmap.mem_usedBlocks.mp hi
      obtain ⟨a, alive, at_⟩ := quiescent.owner _ used
      exact ⟨a, ⟨alive, by rw [at_, page used]⟩, at_⟩
  rw [← inj.encard_image, image, starts.encard_image, Set.encard_coe_eq_coe_finsetCard,
    (quiescent.heap.page p).used]

/-- Without source entries a page is free, not full or full. -/
theorem Quiescent.flag (quiescent : Quiescent cfg S) (hp : InHeap cfg p) :
    (S.heap.pages p).listFlags = .free ∨ (S.heap.pages p).listFlags = .nfull ∨
      (S.heap.pages p).listFlags = .full := by
  have listed := (quiescent.heap.range p).mpr hp
  have flag := (quiescent.heap.page p).flag
  rw [quiescent.entries p] at flag
  generalize (S.heap.pages p).listFlags = f at listed flag
  cases f with
  | none => exact absurd rfl listed
  | free => exact .inl rfl
  | nfull => exact .inr (.inl rfl)
  | full => exact .inr (.inr rfl)
  | source => exact absurd flag.2.2 (Nat.lt_irrefl 0)
  | emptying => exact absurd flag.2.2 (Nat.lt_irrefl 0)

theorem Quiescent.place {P : BucketPool.Pool Nat Nat} (quiescent : Quiescent cfg S)
    (pool : PoolOk cfg S.heap P) (hp : InHeap cfg p) :
    Pooled P p S.heap ∨ Listed P p S.heap := by
  have lists := quiescent.heap.lists
  have page := quiescent.heap.page p
  rcases quiescent.flag hp with free | flag
  · have zero := page.flag
    rw [free] at zero
    have unused : ∀ i, ¬ (S.heap.pages p).usedPageBlockBitmap.Used i := fun i used => by
      have pos := page.used_pos used
      have none := zero.1
      omega
    refine .inl ⟨(pool.holds p).mpr free, free, fun w => UsedBitmap.words_of_unused unused,
      quiescent.entries p, fun c f mem => ?_⟩
    obtain ⟨_, notFree, eq, _⟩ := (lists.mem c f p).mp mem
    exact notFree (eq.symm.trans free)
  · have notFree : (S.heap.pages p).listFlags ≠ .free := by
      rcases flag with eq | eq <;> rw [eq] <;> decide
    have notNone : (S.heap.pages p).listFlags ≠ .none := (quiescent.heap.range p).mpr hp
    refine .inr ⟨fun holds => notFree ((pool.holds p).mp holds), flag, fun c f => ?_⟩
    rw [lists.mem c f p]
    constructor
    · rintro ⟨_, _, eq, sc⟩
      exact ⟨sc.symm, eq.symm⟩
    · rintro ⟨rfl, rfl⟩
      exact ⟨notNone, notFree, rfl, rfl⟩

theorem Quiescent.counted (quiescent : Quiescent cfg S) (hp : InHeap cfg p) : Counted cfg p S := by
  have lists := quiescent.heap.lists
  have page := quiescent.heap.page p
  refine ⟨page.used, quiescent.live_card p, ?_, ?_⟩
  · rw [page.full_iff, lists.mem]
    simp
  · rw [lists.mem]
    have flag := page.flag
    rcases quiescent.flag hp with eq | eq | eq <;> rw [eq] at flag ⊢ <;>
      simp only [FlagOk] at flag <;> simp <;> omega

theorem Quiescent.class_counted (quiescent : Quiescent cfg S) (c : Nat) :
    ClassCounted cfg c S.heap := by
  have lists := quiescent.heap.lists
  have none : ∀ f, f = .source ∨ f = .emptying → (S.heap.classes c).lists f = [] := by
    intro f kind
    refine List.eq_nil_iff_forall_not_mem.mpr fun p mem => ?_
    obtain ⟨_, _, eq, _⟩ := (lists.mem c f p).mp mem
    have flag := (quiescent.heap.page p).flag
    rw [quiescent.entries p, eq] at flag
    rcases kind with rfl | rfl
    · exact absurd flag.2.2 (Nat.lt_irrefl 0)
    · exact absurd flag.2.2 (Nat.lt_irrefl 0)
  have source := none .source (.inl rfl)
  have emptying := none .emptying (.inr rfl)
  refine ⟨lists.nodup c, fun f p mem => ?_, source, emptying, ?_, lists.nfullentries c⟩
  · obtain ⟨notNone, _, eq, _⟩ := (lists.mem c f p).mp mem
    exact (quiescent.heap.range p).mp (eq ▸ notNone)
  · rw [lists.nrPages c, source, emptying]
    simp

theorem Quiescent.returned {P : BucketPool.Pool Nat Nat} (quiescent : Quiescent cfg S)
    (pool : PoolOk cfg S.heap P) (none : ∀ a, S.live a = none) :
    (∀ c, (S.heap.classes c).nrPages = 0) ∧ ∀ p, InHeap cfg p → P.Holds p := by
  have unused : ∀ p, (S.heap.pages p).nrUsedPageBlocks = 0 := by
    intro p
    rw [(quiescent.heap.page p).used, Finset.card_eq_zero]
    refine Finset.eq_empty_of_forall_notMem fun i mem => ?_
    obtain ⟨a, alive, _⟩ := quiescent.owner ⟨p, i⟩ (UsedBitmap.mem_usedBlocks.mp mem)
    exact alive (none a)
  have free : ∀ p, InHeap cfg p → (S.heap.pages p).listFlags = .free := by
    intro p hp
    have page := quiescent.heap.page p
    have flag := page.flag
    have cap := capacity_pos page.sc_lt
    rcases quiescent.flag hp with eq | eq | eq
    · exact eq
    · rw [eq, unused p] at flag
      exact absurd flag.1 (Nat.lt_irrefl 0)
    · rw [eq, unused p] at flag
      have := flag.1
      omega
  refine ⟨fun c => ?_, fun p hp => (pool.holds p).mpr (free p hp)⟩
  have counted := quiescent.class_counted c
  have empty : ∀ f, (S.heap.classes c).lists f = [] := by
    intro f
    refine List.eq_nil_iff_forall_not_mem.mpr fun p mem => ?_
    obtain ⟨_, notFree, eq, _⟩ := (quiescent.heap.lists.mem c f p).mp mem
    exact notFree (eq.symm.trans (free p (counted.inHeap f p mem)))
  rw [counted.nrPages, empty, empty]
  rfl

theorem NonMoving.quiescent (still : NonMoving cfg S) (mode : cfg.partialCompactionBound = -1) :
    Quiescent cfg S := by
  have block : ∀ a, S.heap.pageBlock cfg a = a := fun a => if_neg (not_not.mpr mode)
  refine ⟨still.heap, still.entries, fun a alive => ?_, fun B used => ?_, fun a b _ _ eq => ?_⟩
  · obtain ⟨o, hlive⟩ := Option.ne_none_iff_exists'.mp alive
    obtain ⟨B, used, start, _⟩ := still.housed.block a o hlive
    exact ⟨B, used, start.trans (block a).symm⟩
  · exact ⟨_, still.housed.used B used, block _⟩
  · rwa [block, block] at eq

end Pages

theorem InRange.class {cfg : Config} {size : Nat} (range : InRange cfg size) :
    requestClass cfg size < sizeClasses := by
  refine (requestClass_lt cfg size).resolve_right fun eq => ?_
  rcases range with small | ⟨large, _⟩ <;> omega

/-! ### The runs -/

section Runs
variable {cfg : Config} {T : Nat} {S : System π} {addresses : π}

theorem NonMoving.whole (still : NonMoving cfg S) (mode : cfg.partialCompactionBound = -1)
    (a : Action) (enabled : Enabled cfg T S a) (ordinary : Ordinary cfg S a) :
    ∃ S', performWhole cfg S a = .ok S' ∧ NonMoving cfg S' := by
  cases a with
  | malloc t size =>
      rcases still.malloc (t := t) mode ordinary.1.class with
        ⟨_, run⟩ | ⟨_, _, S', _, run, still', _⟩
      · exact ⟨S, run, still⟩
      · exact ⟨S', run, still'⟩
  | free t a =>
      obtain ⟨S', run, still', _⟩ := still.free (t := t) mode enabled.2.2
      refine ⟨S', ?_, still'⟩
      simp only [performWhole, run, ok_bind, System.remaining, still'.calls t]
      rfl
  | resume t => exact absurd (still.calls t) enabled
  | write a j x =>
      obtain ⟨_, o, hlive, _⟩ := enabled
      have inside := ordinary.resolve_left (not_not.mpr mode) o hlive
      obtain ⟨S', run, still', _⟩ := still.write (x := x) mode hlive inside
      exact ⟨S', run, still'⟩

theorem Sequence.nonMoving (run : Sequence cfg T (Ordinary cfg) addresses S)
    (mode : cfg.partialCompactionBound = -1) : NonMoving cfg S := by
  induction run with
  | init => exact nonMoving_init cfg addresses
  | step a _ enabled ordinary run ih =>
      obtain ⟨S', run', still⟩ := ih.whole mode a enabled ordinary
      rw [run] at run'
      cases run'
      exact still

variable [LawfulAddressPool π]

theorem Resting.quiescent (rest : Resting cfg T S) (moving : compactionOn cfg) :
    Quiescent cfg S := by
  have block : ∀ a, S.heap.pageBlock cfg a = S.heap.aaWord cfg a := fun a => if_pos moving
  have object : ∀ a o, S.live a = some o → ∃ B, (S.heap.view cfg).Carries B a ∧
      (S.heap.view cfg).used B ∧ (S.heap.view cfg).start B = S.heap.pageBlock cfg a := by
    intro a o hlive
    obtain ⟨B, carries, _, _, _, _, word⟩ := rest.good.object hlive
    rcases word with ⟨word, _, used⟩ | ⟨_, _, _, _, hF, _⟩
    · exact ⟨B, carries, used, (block a ▸ word).symm⟩
    · cases hF
  refine ⟨rest.good.heap, fun p => ?_, fun a alive => ?_, fun B used => ?_, fun a b ha hb eq => ?_⟩
  · refine (rest.good.owns.ledger p).trans (Finset.sum_eq_zero fun t _ => rfl)
  · obtain ⟨o, hlive⟩ := Option.ne_none_iff_exists'.mp alive
    obtain ⟨B, _, used, start⟩ := object a o hlive
    exact ⟨B, used, start⟩
  · obtain ⟨a, o, hlive, isAa, ok⟩ := rest.owner used
    refine ⟨a, by rw [hlive]; exact Option.some_ne_none _, ?_⟩
    rw [block, ← ok.word]
    simp only [Heap.view, isAa, if_true]
  · obtain ⟨o, hlive⟩ := Option.ne_none_iff_exists'.mp ha
    obtain ⟨o', hlive'⟩ := Option.ne_none_iff_exists'.mp hb
    obtain ⟨B, carries, _, start⟩ := object a o hlive
    obtain ⟨C, carries', _, start'⟩ := object b o' hlive'
    have same := carries.placed.start_inj carries'.placed (start.trans (eq.trans start'.symm))
    subst same
    exact carries.back.symm.trans carries'.back

omit [LawfulAddressPool π] in
theorem Quiescent.accounted (quiescent : Quiescent cfg S)
    (asserts : ∀ a, Enabled cfg T S a → Ordinary cfg S a →
      (∃ S', performWhole cfg S a = .ok S') ∨ performWhole cfg S a = .error .emptyBucket) :
    ∃ P, Accounted cfg T S P := by
  obtain ⟨P, pool⟩ := quiescent.heap.pool
  exact ⟨P, pool, fun _ => quiescent.place pool, fun _ => quiescent.counted,
    quiescent.class_counted, asserts, quiescent.returned pool⟩

theorem Sequence.accounted (run : Sequence cfg T (Ordinary cfg) addresses S)
    (mode : 1 ≤ cfg.partialCompactionBound ∨ cfg.partialCompactionBound = -1)
    (whole : WholeCopies cfg.incrementalMemcpy)
    (valid : Valid cfg.toAddressConfig T (fun _ => False) addresses) :
    ∃ P, Accounted cfg T S P := by
  rcases mode with bound | mode
  · have moving : compactionOn cfg := by
      simp only [compactionOn]
      omega
    have config : cfg.Compacting := ⟨bound, whole⟩
    have clean : ∀ (S : System π) a, Ordinary cfg S a → Clean cfg S a := by
      intro S a ordinary
      cases a with
      | malloc t size => exact ordinary.2 moving
      | free | resume | write => trivial
    obtain ⟨rest, _⟩ := run.resting config (fun S a _ _ => clean S a) valid
    refine (rest.quiescent moving).accounted fun a enabled ordinary => ?_
    rcases performWhole_spec rest config a enabled (clean S a ordinary) with
      ⟨S', run, _⟩ | ⟨_, t, size, rfl, boundary⟩ | ⟨run, _⟩
    · exact .inl ⟨S', run⟩
    · rcases ordinary.1 with small | ⟨large, _⟩ <;> omega
    · exact .inr run
  · have still := run.nonMoving mode
    refine (still.quiescent mode).accounted fun a enabled ordinary => ?_
    obtain ⟨S', run, _⟩ := still.whole mode a enabled ordinary
    exact .inl ⟨S', run⟩

end Runs

/-- With a bound `k ≥ 1` and without compaction, the pages are accounted for at every operation
boundary. -/
theorem pages_accounted (cfg : Config)
    (mode : 1 ≤ cfg.partialCompactionBound ∨ cfg.partialCompactionBound = -1)
    (words : cfg.incrementalMemcpy % 4 = 0) (T : Nat) (S : System AddressBuckets)
    (run : Sequence cfg T (Ordinary cfg) (AddressBuckets.initFreeAaList cfg.toAddressConfig) S) :
    ∃ P, Accounted cfg T S P :=
  run.accounted mode (wholeCopies_of_multiple words) (AddressBuckets.valid_init _ T)

/-- Requests in range, and no writes. -/
def inRange (cfg : Config) (_ : System π) : Action → Bool
  | .malloc _ size => decide (InRange cfg size)
  | .write .. => false
  | _ => true

theorem inRange_sound (cfg : Config) (S : System π) (a : Action) (clean : Clean cfg S a)
    (check : inRange cfg S a = true) : Ordinary cfg S a := by
  cases a with
  | malloc t size => exact ⟨of_decide_eq_true check, fun _ => clean⟩
  | free | resume => trivial
  | write => cases check

def stillConfig : Config :=
  { smallConfig with
    partialCompactionBound := -1
    partialCompactionBound_int := partialCompactionBound_off }

/-- With compaction the second free empties page 8 into page 7; without it both pages keep an
object. -/
theorem pages_accounted_emptied :
    (∃ S : System AddressBuckets, (liveIn smallConfig 7 S).encard = 2 ∧
      ∃ P, Pooled P 8 S.heap) ∧
    ∃ S : System AddressBuckets, (liveIn stillConfig 7 S).encard = 1 ∧
      ∃ P, Listed P 8 S.heap := by
  constructor
  · obtain ⟨S, run, found⟩ := sequence_of_checked smallConfig 1
      (AddressBuckets.initFreeAaList smallConfig.toAddressConfig)
      [.malloc 0 7000, .malloc 0 7000, .malloc 0 7000, .malloc 0 7000, .free 0 1048824,
        .free 0 1048820] (inRange smallConfig) (inRange_sound smallConfig)
      (p := fun S => decide ((S.heap.pages 7).nrUsedPageBlocks = 2) &&
        decide ((S.heap.pages 8).listFlags = .free)) (by decide +kernel)
    simp only [Bool.and_eq_true, decide_eq_true_eq] at found
    obtain ⟨P, accounted⟩ := pages_accounted smallConfig (by decide) (by decide) 1 S run
    refine ⟨S, ?_, P, (accounted.place 8 ⟨by decide, by decide⟩).resolve_right fun listed => ?_⟩
    · rw [(accounted.counted 7 ⟨by decide, by decide⟩).live, found.1]
      rfl
    · rcases listed.flag with eq | eq <;> cases found.2.symm.trans eq
  · obtain ⟨S, run, found⟩ := sequence_of_checked stillConfig 1
      (AddressBuckets.initFreeAaList stillConfig.toAddressConfig)
      [.malloc 0 7000, .malloc 0 7000, .malloc 0 7000, .malloc 0 7000, .free 0 131072,
        .free 0 114688] (inRange stillConfig) (inRange_sound stillConfig)
      (p := fun S => decide ((S.heap.pages 7).nrUsedPageBlocks = 1) &&
        decide ((S.heap.pages 8).listFlags = .nfull)) (by decide +kernel)
    simp only [Bool.and_eq_true, decide_eq_true_eq] at found
    obtain ⟨P, accounted⟩ := pages_accounted stillConfig (by decide) (by decide) 1 S run
    refine ⟨S, ?_, P, (accounted.place 8 ⟨by decide, by decide⟩).resolve_left fun pooled => ?_⟩
    · rw [(accounted.counted 7 ⟨by decide, by decide⟩).live, found.1]
      rfl
    · cases found.2.symm.trans pooled.flag

end
end CompactFit
