import CompactFit.Fragmentation
import CompactFit.Library.BucketPlaces
import CompactFit.ThreadCaches
import Mathlib.Combinatorics.Enumerative.DoubleCounting
import Mathlib.Order.Interval.Finset.Nat

/-!
How much memory an application needs. A class has no more pages than its live objects
fill, the pages that are not full and two source pages for each other thread; the other
threads withhold their caches. A heap with more pages and addresses than that never makes
`cf_malloc` return NULL.
-/

namespace CompactFit
open Function AddressPool

section
variable {π : Type}

def liveOf (cfg : Config) (c : Nat) (S : System π) : Finset Nat :=
  (Finset.range cfg.nrAas).filter fun id => (S.live (aaPointer cfg id)).any fun o => o.sc = c

def Config.classPages (cfg : Config) (T c n : Nat) : Nat :=
  n / capacity c + (cfg.k + 2 * (T - 1))

/-- The pages that all classes have, when class `c` has `n c` objects. -/
def Config.pagesFor (cfg : Config) (T : Nat) (n : Nat → Nat) : Nat :=
  ∑ c ∈ Finset.range sizeClasses, cfg.classPages T c (n c)

/-- The free pages that the other threads withhold. -/
def Config.pagesWithheld (cfg : Config) (T : Nat) : Nat :=
  (T - 1) * (cfg.nrLocalPages * cfg.nrLocalPbuckets)

/-- The free abstract addresses that the other threads withhold, and those of the
objects they are freeing. -/
def Config.aasWithheld (cfg : Config) (T : Nat) : Nat :=
  (T - 1) * (cfg.nrLocalAas * cfg.nrLocalAbuckets + 1)

end

section Class
variable {π : Type} [AddressPool π] [LawfulAddressPool π] {cfg : Config} {T : Nat}
  {S : System π} {F : Frames}

/-- The object at `a` owns the used block `B`: it lies in it, or is being moved into it. -/
def Owner (v : View) (F : Frames) (B : Block) (a : Nat) : Prop :=
  (¬ Moving F a ∧ v.Placed B ∧ v.word a = v.start B) ∨
    ∃ t f s, F t = some f ∧ f.source = some s ∧ s.address = a ∧ f.target = some B

theorem Owner.unique {v : View} {live : Live} {B C : Block} {a : Nat}
    (owns : Owns cfg T v live F) (hB : Owner v F B a) (hC : Owner v F C a) : B = C := by
  rcases hB with ⟨still, placed, start⟩ | ⟨t, f, s, hF, source, rfl, target⟩
  · rcases hC with ⟨_, placed', start'⟩ | ⟨t, f, s, hF, source, eq, _⟩
    · exact placed.start_inj placed' (start.symm.trans start')
    · exact absurd ⟨t, f, s, hF, source, eq⟩ still
  · rcases hC with ⟨still, _⟩ | ⟨t', f', s', hF', source', eq, target'⟩
    · exact absurd ⟨t, f, s, hF, source, rfl⟩ still
    · have same := owns.source_inj t t' f f' s s' hF hF' source source' eq.symm
      subst same
      cases hF.symm.trans hF'
      exact Option.some.inj (target.symm.trans target')

/-- Between calls every used block has a live object of its class. -/
theorem Good.block_owner (good : Good cfg T S.heap S.live F)
    (answers : ∀ t, Answers (S.calls t) (F t)) {B : Block} (used : (S.heap.view cfg).used B) :
    ∃ a o, S.live a = some o ∧ o.sc = (S.heap.pages B.page).sc ∧
      Owner (S.heap.view cfg) F B a := by
  rcases good.owns.owned B used with ⟨a, o, hlive, still, ok⟩ | ⟨t, f, hF, target⟩
  · exact ⟨a, o, hlive, ok.sc.symm, .inl ⟨still, ok.carries.placed, ok.word⟩⟩
  · obtain ⟨call, _, waiting⟩ := answers_frame answers hF
    cases waiting with
    | @copying _ B' s target' source =>
        cases target.symm.trans target'
        obtain ⟨C, o, target'', hlive, _, ok⟩ := good.owns.source_ok hF source
        cases target.symm.trans target''
        exact ⟨s.address, o, hlive, ok.obj.symm, .inr ⟨t, f, s, hF, source, rfl, target⟩⟩
    | aborted none =>
        rw [target] at none
        cases none

theorem mem_liveOf {π : Type} {cfg : Config} {c id : Nat} {S : System π} :
    id ∈ liveOf cfg c S ↔ id < cfg.nrAas ∧ ∃ o, S.live (aaPointer cfg id) = some o ∧ o.sc = c := by
  rw [liveOf, Finset.mem_filter, Finset.mem_range, Option.any_eq_true]
  simp only [decide_eq_true_eq]

theorem Good.live_id (good : Good cfg T S.heap S.live F) {a : Nat} {o : Obj}
    (hlive : S.live a = some o) : ∃ id, id ∈ liveOf cfg o.sc S ∧ aaPointer cfg id = a := by
  obtain ⟨lo, word, lt⟩ := good.isAa a (.inl (by rw [hlive]; exact Option.some_ne_none o))
  have eq : aaPointer cfg ((a - cfg.aaSpace) / 4) = a := by
    rw [aaPointer]
    omega
  exact ⟨_, mem_liveOf.mpr ⟨lt, o, by rw [eq, hlive], rfl⟩, eq⟩

theorem Good.full_pages_le (good : Good cfg T S.heap S.live F)
    (answers : ∀ t, Answers (S.calls t) (F t)) (c : Nat) :
    ((S.heap.classes c).lists .full).length * capacity c ≤ (liveOf cfg c S).card := by
  have lists := good.heap.lists
  generalize hps : ((S.heap.classes c).lists .full).toFinset = ps
  have full : ∀ p ∈ ps, (S.heap.pages p).listFlags = .full ∧ (S.heap.pages p).sc = c := by
    intro p hp
    rw [← hps, List.mem_toFinset, lists.mem] at hp
    exact hp.2.2
  have count : ∀ p ∈ ps, (S.heap.pages p).usedPageBlockBitmap.usedBlocks.card = capacity c := by
    intro p hp
    obtain ⟨flag, sc⟩ := full p hp
    have page := good.heap.page p
    have cond := page.flag
    rw [flag, sc] at cond
    exact page.used.symm.trans cond.1
  have card : (ps.sigma fun p => (S.heap.pages p).usedPageBlockBitmap.usedBlocks).card =
      ((S.heap.classes c).lists .full).length * capacity c := by
    rw [Finset.card_sigma, Finset.sum_const_nat count, ← hps,
      List.toFinset_card_of_nodup (lists.nodup c .full)]
  rw [← card]
  refine Finset.card_le_card_of_forall_subsingleton
    (fun b id => Owner (S.heap.view cfg) F ⟨b.1, b.2⟩ (aaPointer cfg id)) ?_ ?_
  · rintro ⟨p, i⟩ hb
    obtain ⟨hp, hi⟩ := Finset.mem_sigma.mp hb
    obtain ⟨a, o, hlive, sc, owner⟩ :=
      good.block_owner answers (B := ⟨p, i⟩) (UsedBitmap.mem_usedBlocks.mp hi)
    obtain ⟨id, mem, rfl⟩ := good.live_id hlive
    rw [sc, (full p hp).2] at mem
    exact ⟨id, mem, owner⟩
  · rintro id _ ⟨p, i⟩ ⟨_, owner⟩ ⟨q, j⟩ ⟨_, owner'⟩
    cases owner.unique good.owns owner'
    rfl

theorem Good.class_pages_le (good : Good cfg T S.heap S.live F)
    (answers : ∀ t, Answers (S.calls t) (F t)) {c : Nat} (hc : c < sizeClasses)
    (budget : (S.heap.classes c).nfullentries + (S.heap.classes c).sourceentries ≤
      cfg.k + 2 * (T - 1)) :
    (S.heap.classes c).nrPages ≤ cfg.classPages T c (liveOf cfg c S).card := by
  have lists := good.heap.lists
  have full := (Nat.le_div_iff_mul_le (capacity_pos hc)).mpr (good.full_pages_le answers c)
  rw [lists.nfullentries, lists.sourceentries] at budget
  rw [lists.nrPages, Config.classPages]
  omega

end Class

/-! ### All pages -/

section Pages
variable {π : Type} {cfg : Config} {h : Heap π}

theorem HeapOk.pages_le (ok : HeapOk cfg h) :
    cfg.nrPages ≤ ((Finset.Ico cfg.firstPage (cfg.firstPage + cfg.nrPages)).filter fun p =>
        (h.pages p).listFlags = .free).card +
      ∑ c ∈ Finset.range sizeClasses, (h.classes c).nrPages := by
  generalize hall : Finset.Ico cfg.firstPage (cfg.firstPage + cfg.nrPages) = pages
  have all : pages.card = cfg.nrPages := by rw [← hall, Nat.card_Ico, Nat.add_sub_cancel_left]
  let onLists := fun c => (h.classes c).lists .nfull ++ (h.classes c).lists .full ++
    (h.classes c).lists .source ++ (h.classes c).lists .emptying
  have sub : (pages.filter fun p => ¬ (h.pages p).listFlags = .free) ⊆
      (Finset.range sizeClasses).biUnion fun c => (onLists c).toFinset := by
    intro p hp
    obtain ⟨mem, notFree⟩ := Finset.mem_filter.mp hp
    rw [← hall, Finset.mem_Ico] at mem
    have listed := (ok.range p).mpr mem
    have placed := (ok.lists.mem (h.pages p).sc (h.pages p).listFlags p).mpr
      ⟨listed, notFree, rfl, rfl⟩
    refine Finset.mem_biUnion.mpr ⟨(h.pages p).sc, Finset.mem_range.mpr (ok.page p).sc_lt, ?_⟩
    simp only [onLists, List.mem_toFinset, List.mem_append]
    generalize (h.pages p).listFlags = f at listed notFree placed
    cases f <;> simp_all
  have count : ∀ c, (onLists c).toFinset.card ≤ (h.classes c).nrPages := by
    intro c
    refine (List.toFinset_card_le _).trans ?_
    simp only [onLists, List.length_append, ok.lists.nrPages c, le_refl]
  calc cfg.nrPages
      = (pages.filter fun p => (h.pages p).listFlags = .free).card +
        (pages.filter fun p => ¬ (h.pages p).listFlags = .free).card := by
        rw [Finset.card_filter_add_card_filter_not, all]
    _ ≤ _ := Nat.add_le_add_left ((Finset.card_le_card sub).trans
        (Finset.card_biUnion_le.trans (Finset.sum_le_sum fun c _ => count c))) _

/-- The free pages that thread `t` does not find are in the caches of other threads. -/
theorem PoolOk.free_le {P : BucketPool.Pool Nat Nat} (pool : PoolOk cfg h P) {T t : Nat}
    (ht : t < T) (cached : ∀ u, Cached cfg (h.threads u))
    (idle : ∀ u, T ≤ u → (h.threads u).pagesCount = 0 ∧ (h.threads u).pbucketsCount = 0)
    (none : BucketPool.get t P = none) :
    ((Finset.Ico cfg.firstPage (cfg.firstPage + cfg.nrPages)).filter fun p =>
        (h.pages p).listFlags = .free).card ≤ cfg.pagesWithheld T := by
  refine BucketPool.card_held_le cfg.nrLocalPages_pos pool.wellFormed (fun u => ?_) (fun u ge => ?_)
    ht none _ fun p hp => (pool.holds p).mpr (Finset.mem_filter.mp hp).2
  · exact pool.rep.pbucketsCount u ▸ (cached u).pbuckets
  · have items := (pool.rep.pagesCount u).symm.trans (idle u ge).1
    have buckets := (pool.rep.pbucketsCount u).symm.trans (idle u ge).2
    rw [BucketPool.Local.elems, List.length_eq_zero_iff.mp items,
      List.length_eq_zero_iff.mp buckets]
    rfl

end Pages

/-! ### Failing allocations -/

section Failing
open AddressBuckets
variable {cfg : Config} {T t : Nat} {S : System AddressBuckets} {F : Frames}

/-- Without a page for thread `t`, the other threads and the classes have them all. -/
theorem Good.pages_needed (good : Good cfg T S.heap S.live F)
    (answers : ∀ t, Answers (S.calls t) (F t))
    (run : Run cfg T (Clean cfg) (initFreeAaList cfg.toAddressConfig) S)
    (budget : ∀ c, (S.heap.classes c).nfullentries + (S.heap.classes c).sourceentries ≤
      cfg.k + 2 * (T - 1)) (ht : t < T)
    (none : getFreePage cfg t S.heap = .ok (none, S.heap)) :
    cfg.nrPages ≤ cfg.pagesWithheld T + cfg.pagesFor T fun c => (liveOf cfg c S).card := by
  obtain ⟨P, pool⟩ := good.heap.pool
  have idle : ∀ u, T ≤ u →
      (S.heap.threads u).pagesCount = 0 ∧ (S.heap.threads u).pbucketsCount = 0 := by
    intro u ge
    rw [(run.caches_idle ge).2.pages]
    exact initHeap_caches cfg _ u
  have empty : BucketPool.get t P = Option.none := by
    rcases getFreePage_spec t pool with ⟨_, empty⟩ | ⟨p, P', threads, head, some, _⟩
    · exact empty
    · rw [none] at some
      cases some
  refine good.heap.pages_le.trans (Nat.add_le_add ?_ (Finset.sum_le_sum fun c hc => ?_))
  · exact pool.free_le ht (fun u => (run.threadCached u).pages) idle empty
  · exact good.class_pages_le answers (Finset.mem_range.mp hc) (budget c)

def returnedAa (cfg : Config) : Option Suspended → Nat
  | none => 0
  | some call => (call.address - cfg.aaSpace) / 4

/-- An identifier that is out belongs to an object or to a suspended call. -/
theorem Good.out_owner (good : Good cfg T S.heap S.live F)
    (answers : ∀ t, Answers (S.calls t) (F t)) {id : Nat} (out : Out S.live F (aaPointer cfg id)) :
    (∃ c, c < sizeClasses ∧ id ∈ liveOf cfg c S) ∨
      ∃ u, u < T ∧ S.calls u ≠ none ∧ returnedAa cfg (S.calls u) = id := by
  rcases out with alive | ⟨u, f, hF, eq⟩
  · obtain ⟨o, hlive⟩ := Option.ne_none_iff_exists'.mp alive
    obtain ⟨B, carries, sc, _⟩ := good.object hlive
    obtain ⟨id', held, same⟩ := good.live_id hlive
    have eq : id' = id := by
      rw [aaPointer, aaPointer] at same
      omega
    exact .inl ⟨o.sc, sc ▸ carries.placed.sc, eq ▸ held⟩
  · obtain ⟨call, hc, waiting⟩ := answers_frame answers hF
    have address : call.address = aaPointer cfg id := by
      cases waiting <;> exact eq
    refine .inr ⟨u, good.owns.thread u f hF, ?_, ?_⟩
    · rw [hc]
      exact Option.some_ne_none call
    · rw [hc, returnedAa, address, aaPointer_id]

theorem Good.out_le (good : Good cfg T S.heap S.live F)
    (answers : ∀ t, Answers (S.calls t) (F t)) (ht : t < T) (idle : S.calls t = none)
    (ids : Finset Nat) (out : ∀ id ∈ ids, Out S.live F (aaPointer cfg id)) :
    ids.card ≤ (T - 1) + ∑ c ∈ Finset.range sizeClasses, (liveOf cfg c S).card := by
  generalize hall : Finset.range sizeClasses = all
  have sub : ids ⊆ ((Finset.range T).erase t).image (fun u => returnedAa cfg (S.calls u)) ∪
      all.biUnion fun c => liveOf cfg c S := by
    intro id mem
    rcases good.out_owner answers (out id mem) with ⟨c, hc, held⟩ | ⟨u, hu, busy, eq⟩
    · exact Finset.mem_union_right _
        (Finset.mem_biUnion.mpr ⟨c, hall ▸ Finset.mem_range.mpr hc, held⟩)
    · refine Finset.mem_union_left _ (Finset.mem_image.mpr ⟨u, Finset.mem_erase.mpr ⟨?_, ?_⟩, eq⟩)
      · rintro rfl
        exact busy idle
      · exact Finset.mem_range.mpr hu
  calc ids.card
      ≤ _ := (Finset.card_le_card sub).trans (Finset.card_union_le _ _)
    _ ≤ ((Finset.range T).erase t).card + ∑ c ∈ all, (liveOf cfg c S).card :=
        Nat.add_le_add Finset.card_image_le Finset.card_biUnion_le
    _ = _ := by rw [Finset.card_erase_of_mem (Finset.mem_range.mpr ht), Finset.card_range]

open Classical in
/-- Without an address for thread `t`, the others and the objects have them all. -/
theorem Good.aas_needed (good : Good cfg T S.heap S.live F)
    (answers : ∀ t, Answers (S.calls t) (F t))
    (run : Run cfg T (Clean cfg) (initFreeAaList cfg.toAddressConfig) S) (ht : t < T)
    (idle : S.calls t = none)
    (none : (AddressPool.getFreeAa cfg.toAddressConfig t S.heap.addresses).1 = none) :
    cfg.nrAas ≤ cfg.aasWithheld T + ∑ c ∈ Finset.range sizeClasses, (liveOf cfg c S).card := by
  obtain ⟨P, Q, cell, rep, free, _⟩ := good.valid
  have empty : BucketPool.get t P = Option.none := by
    rcases getFreeAa_rep rep ht with ⟨_, _, refill⟩ | ⟨id, items, σ', P1, Q', some, _⟩
    · exact BucketPool.get_of_refill_none refill
    · have eq : (AddressBuckets.getFreeAa cfg.toAddressConfig t S.heap.addresses).1 = Option.none :=
        none
      rw [some] at eq
      cases eq
  have kept : ((Finset.range cfg.nrAas).filter P.Holds).card ≤
      (T - 1) * (cfg.nrLocalAas * cfg.nrLocalAbuckets) := by
    refine BucketPool.card_held_le cfg.nrLocalAas_pos rep.ledger.full (fun u => ?_)
      (fun u ge => (rep.ledger.idle u ge).1) ht empty _ fun id mem => (Finset.mem_filter.mp mem).2
    exact (rep.full.locals u).abucketsCount ▸ (run.threadCached u).addresses.abuckets
  have out : ((Finset.range cfg.nrAas).filter fun id => ¬ P.Holds id).card ≤
      (T - 1) + ∑ c ∈ Finset.range sizeClasses, (liveOf cfg c S).card := by
    refine good.out_le answers ht idle _ fun id mem => ?_
    obtain ⟨lt, notHeld⟩ := Finset.mem_filter.mp mem
    by_contra notOut
    exact notHeld ((free id (Finset.mem_range.mp lt)).mpr notOut)
  calc cfg.nrAas
      = ((Finset.range cfg.nrAas).filter P.Holds).card +
        ((Finset.range cfg.nrAas).filter fun id => ¬ P.Holds id).card := by
        rw [Finset.card_filter_add_card_filter_not, Finset.card_range]
    _ ≤ (T - 1) * (cfg.nrLocalAas * cfg.nrLocalAbuckets) +
        ((T - 1) + ∑ c ∈ Finset.range sizeClasses, (liveOf cfg c S).card) :=
        Nat.add_le_add kept out
    _ = _ := by rw [Config.aasWithheld, Nat.mul_succ, Nat.add_assoc]

/-- The objects that thread `t` makes room for when its allocation fails. -/
theorem Good.malloc_null (good : Good cfg T S.heap S.live F)
    (answers : ∀ t, Answers (S.calls t) (F t))
    (run : Run cfg T (Clean cfg) (initFreeAaList cfg.toAddressConfig) S)
    (config : cfg.Compacting)
    (budget : ∀ c, (S.heap.classes c).nfullentries + (S.heap.classes c).sourceentries ≤
      cfg.k + 2 * (T - 1)) (ht : t < T) (idle : S.calls t = none) {size : Nat}
    {h : Heap AddressBuckets} (null : cfMalloc cfg t size S.heap = .ok (none, h)) :
    cfg.nrPages ≤ cfg.pagesWithheld T + cfg.pagesFor T (fun c => (liveOf cfg c S).card) ∨
      cfg.nrAas ≤ cfg.aasWithheld T + ∑ c ∈ Finset.range sizeClasses, (liveOf cfg c S).card := by
  have outcome := cfMalloc_spec good ht config size
  rw [null] at outcome
  cases outcome with
  | noPage _ _ none => exact .inl (good.pages_needed answers run budget ht none)
  | noAddress _ _ _ none => exact .inr (good.aas_needed answers run ht idle none)

/-- Every class has at most the objects the application plans for. -/
def Moderate (cfg : Config) (n : Nat → Nat) (S : System AddressBuckets) : Prop :=
  ∀ c, c < sizeClasses → (liveOf cfg c S).card ≤ n c

instance (cfg : Config) (n : Nat → Nat) (S : System AddressBuckets) :
    Decidable (Moderate cfg n S) := inferInstanceAs (Decidable (∀ _, _ → _))

/-- The heap has more pages and more abstract addresses than `n c` objects of each class
can need. -/
structure Config.Enough (cfg : Config) (T : Nat) (n : Nat → Nat) : Prop where
  pages : cfg.pagesWithheld T + cfg.pagesFor T n < cfg.nrPages
  aas : cfg.aasWithheld T + ∑ c ∈ Finset.range sizeClasses, n c < cfg.nrAas

theorem Moderate.pagesFor_le {n : Nat → Nat} (moderate : Moderate cfg n S) :
    cfg.pagesFor T (fun c => (liveOf cfg c S).card) ≤ cfg.pagesFor T n :=
  Finset.sum_le_sum fun c hc => Nat.add_le_add_right
    (Nat.div_le_div_right (moderate c (Finset.mem_range.mp hc))) _

theorem Moderate.sum_le {n : Nat → Nat} (moderate : Moderate cfg n S) :
    ∑ c ∈ Finset.range sizeClasses, (liveOf cfg c S).card ≤
      ∑ c ∈ Finset.range sizeClasses, n c :=
  Finset.sum_le_sum fun c hc => moderate c (Finset.mem_range.mp hc)

/-- With enough memory a moderate application never runs out of it. -/
theorem Good.malloc_some {n : Nat → Nat} (good : Good cfg T S.heap S.live F)
    (answers : ∀ t, Answers (S.calls t) (F t))
    (run : Run cfg T (Clean cfg) (initFreeAaList cfg.toAddressConfig) S)
    (config : cfg.Compacting)
    (budget : ∀ c, (S.heap.classes c).nfullentries + (S.heap.classes c).sourceentries ≤
      cfg.k + 2 * (T - 1)) (ht : t < T) (idle : S.calls t = none) (size : Nat)
    (enough : cfg.Enough T n) (moderate : Moderate cfg n S) :
    (∃ a h, cfMalloc cfg t size S.heap = .ok (some a, h)) ∨ adjustedSize cfg size = largestSc := by
  have pages := moderate.pagesFor_le (T := T)
  have objects := moderate.sum_le
  have outcome := cfMalloc_spec good ht config size
  cases hr : cfMalloc cfg t size S.heap with
  | error e =>
      rw [hr] at outcome
      cases outcome with
      | noClass hc => exact .inr ((requestClass_lt cfg size).resolve_left hc)
  | ok r =>
      obtain ⟨_ | a, h⟩ := r
      · rcases good.malloc_null answers run config budget ht idle hr with few | few
        · have := enough.pages
          omega
        · have := enough.aas
          omega
      · exact .inl ⟨a, h, rfl⟩

end Failing

/-! ### The guarantee -/

section Guarantee
open AddressBuckets
variable {cfg : Config} {T : Nat} {S : System AddressBuckets} {n : Nat → Nat}

/-- The runs of a moderate application do not run out of addresses. -/
theorem Run.clean_of_moderate (config : cfg.Compacting) (once : cfg.memcpyMultiplicator = 1)
    (enough : cfg.Enough T n)
    (run : Run cfg T (fun S _ => Moderate cfg n S) (initFreeAaList cfg.toAddressConfig) S) :
    Reachable cfg T (initFreeAaList cfg.toAddressConfig) S := by
  induction run with
  | init => exact .init
  | @step S S' a _ enabled moderate perform ih =>
      refine .step a ih enabled ?_ perform
      cases a with
      | free t a => trivial
      | resume t => trivial
      | write a j x => trivial
      | malloc t size =>
          rintro ⟨none, _⟩
          obtain ⟨F, good, answers⟩ := ih.sound config once (valid_init _ T)
          have needed := good.aas_needed answers ih enabled.1 enabled.2 none
          have objects := moderate.sum_le
          have := enough.aas
          omega

/-- When `cf_malloc` returns NULL, the live objects, the bounds on not-full and source pages
and what the other threads withhold account for all pages or for all abstract addresses. -/
theorem malloc_null_needs (cfg : Config) (config : cfg.Compacting)
    (once : cfg.memcpyMultiplicator = 1) (T : Nat) (S : System AddressBuckets)
    (reachable : Reachable cfg T (initFreeAaList cfg.toAddressConfig) S) (t size : Nat)
    (ht : t < T) (idle : S.calls t = none) (h : Heap AddressBuckets)
    (null : cfMalloc cfg t size S.heap = .ok (none, h)) :
    cfg.nrPages ≤ cfg.pagesWithheld T + cfg.pagesFor T (fun c => (liveOf cfg c S).card) ∨
      cfg.nrAas ≤ cfg.aasWithheld T + ∑ c ∈ Finset.range sizeClasses, (liveOf cfg c S).card := by
  obtain ⟨F, good, answers⟩ := reachable.sound config once (valid_init _ T)
  exact good.malloc_null answers reachable config
    (reachable.budget config once (valid_init _ T)) ht idle null

/-- Eight objects of 16000 bytes fill the eight pages of the small heap. -/
theorem malloc_null_needs_full : ∃ (S : System AddressBuckets) (h : Heap AddressBuckets),
    cfMalloc smallConfig 1 40 S.heap = .ok (none, h) ∧
      (smallConfig.nrPages ≤ smallConfig.pagesWithheld 2 +
          smallConfig.pagesFor 2 (fun c => (liveOf smallConfig c S).card) ∨
        smallConfig.nrAas ≤ smallConfig.aasWithheld 2 +
          ∑ c ∈ Finset.range sizeClasses, (liveOf smallConfig c S).card) := by
  obtain ⟨S, reachable, found⟩ := reachable_of_script smallConfig 2
    (initFreeAaList smallConfig.toAddressConfig)
    [.malloc 0 16000, .malloc 0 16000, .malloc 1 16000, .malloc 0 16000, .malloc 1 16000,
      .malloc 0 16000, .malloc 0 16000, .malloc 0 16000]
    (p := fun S => (S.calls 1).isNone &&
      (cfMalloc smallConfig 1 40 S.heap).toOption.any fun r => r.1.isNone) (by decide +kernel)
  obtain ⟨idle, null⟩ := (Bool.and_eq_true _ _).mp found
  obtain ⟨⟨r, h⟩, ran, none⟩ := (Option.any_eq_true _ _).mp null
  cases hr : cfMalloc smallConfig 1 40 S.heap with
  | error e =>
      rw [hr] at ran
      cases ran
  | ok x =>
      rw [hr] at ran
      cases ran
      cases Option.isNone_iff_eq_none.mp none
      exact ⟨S, h, hr, malloc_null_needs smallConfig smallConfig_compacting rfl 2 S reachable 1 40
        (by decide) (Option.isNone_iff_eq_none.mp idle) h hr⟩

/-- An application that never has more than `n c` objects of class `c` gets every object
it asks for, on a heap with enough memory, in every interleaving. -/
theorem malloc_never_null (cfg : Config) (config : cfg.Compacting)
    (once : cfg.memcpyMultiplicator = 1) (T : Nat) (n : Nat → Nat) (enough : cfg.Enough T n)
    (S : System AddressBuckets)
    (run : Run cfg T (fun S _ => Moderate cfg n S) (initFreeAaList cfg.toAddressConfig) S)
    (moderate : Moderate cfg n S) (t size : Nat) (ht : t < T) (idle : S.calls t = none)
    (covered : adjustedSize cfg size ≠ largestSc) :
    ∃ a h, cfMalloc cfg t size S.heap = .ok (some a, h) := by
  have reachable := run.clean_of_moderate config once enough
  obtain ⟨F, good, answers⟩ := reachable.sound config once (valid_init _ T)
  exact (good.malloc_some answers reachable config
    (reachable.budget config once (valid_init _ T)) ht idle size enough moderate).resolve_right
    covered

def roomyConfig : Config :=
  { smallConfig with
    nrPages := 256
    aaSpace := 16777216
    heap_end := by decide
    nrPages_buckets := by decide
    aaSpace_pos := by decide
    aaSpace_end := by decide }

theorem roomyConfig_compacting : roomyConfig.Compacting :=
  ⟨by decide, wholeCopies_of_multiple (by decide)⟩

/-- A plan of six objects of class 48 and two of class 7. -/
def fewObjects (c : Nat) : Nat := if c = 48 then 6 else if c = 7 then 2 else 0

theorem roomyConfig_enough : roomyConfig.Enough 2 fewObjects :=
  ⟨by decide +kernel, by decide +kernel⟩

def performModerate (cfg : Config) (n : Nat → Nat) (S : System AddressBuckets) (a : Action) :
    Except Fault (System AddressBuckets) :=
  if Moderate cfg n S then perform cfg S a else .error .reportBug

theorem moderate_of_script (cfg : Config) (T : Nat) (n : Nat → Nat) (as : List Action)
    {p : System AddressBuckets → Bool}
    (h : (script cfg T (performModerate cfg n) as
      (System.init cfg (initFreeAaList cfg.toAddressConfig))).any p = true) :
    ∃ S, Run cfg T (fun S _ => Moderate cfg n S) (initFreeAaList cfg.toAddressConfig) S ∧
      p S = true := by
  obtain ⟨S, run, ok⟩ := (Option.any_eq_true _ _).mp h
  refine ⟨S, script_preserves (fun S a S' before enabled _ run => ?_) .init run, ok⟩
  by_cases moderate : Moderate cfg n S
  · rw [performModerate, if_pos moderate] at run
    exact .step a before enabled moderate run
  · rw [performModerate, if_neg moderate] at run
    cases run

/-- While a compaction of thread 0 is suspended, thread 1 gets another object. -/
theorem malloc_never_null_suspended : ∃ (S : System AddressBuckets) (a : Nat)
    (h : Heap AddressBuckets), S.calls 0 ≠ none ∧
      cfMalloc roomyConfig 1 40 S.heap = .ok (some a, h) := by
  obtain ⟨S, run, found⟩ := moderate_of_script roomyConfig 2 fewObjects
    [.malloc 0 7000, .malloc 0 7000, .malloc 0 7000, .malloc 0 7000, .malloc 0 7000,
      .malloc 1 40, .free 0 16777468]
    (p := fun S => decide (Moderate roomyConfig fewObjects S) &&
      ((S.calls 0).isSome && (S.calls 1).isNone)) (by decide +kernel)
  obtain ⟨moderate, calls⟩ := (Bool.and_eq_true _ _).mp found
  obtain ⟨busy, idle⟩ := (Bool.and_eq_true _ _).mp calls
  obtain ⟨a, h, run⟩ := malloc_never_null roomyConfig roomyConfig_compacting rfl 2 fewObjects
    roomyConfig_enough S run (of_decide_eq_true moderate) 1 40 (by decide)
    (Option.isNone_iff_eq_none.mp idle) (by decide)
  exact ⟨S, a, h, Option.isSome_iff_ne_none.mp busy, run⟩

end Guarantee
end CompactFit
