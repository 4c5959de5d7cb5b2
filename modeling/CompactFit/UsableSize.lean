import CompactFit.Safety

/-!
The block behind a reference that `cf_malloc` returns. The size class is found from the
adjusted size; sizes above a page all go to the last class, whose block is one page, and
the two additions may wrap.
-/

namespace CompactFit
open Function ByteMemory AddressPool LawfulAddressPool

section
variable {π : Type} [AddressPool π]

/-- The call returns NULL or a reference to a block inside the memory array of a page,
where `size` bytes end before the word of the back-pointer. -/
def Usable (cfg : Config) (size : Nat) : Except Fault (Option Nat × Heap π) → Prop
  | .ok (none, _) => True
  | .ok (some a, h') => ∃ p i, InHeap cfg p ∧
      h'.aaWord cfg a = blockStart p i (blockSize (h'.pages p).sc) ∧
      (i + 1) * blockSize (h'.pages p).sc ≤ pageDataSize ∧
      size + 4 ≤ blockSize (h'.pages p).sc ∧
      blockStart p i (blockSize (h'.pages p).sc) + size ≤
        addressField p i (blockSize (h'.pages p).sc)
  | .error _ => False

/-- The class exists, but it has no page to allocate from, or the thread finds no
abstract address. -/
def Refuses (cfg : Config) (t size : Nat) (h : Heap π) : Prop :=
  requestClass cfg size < sizeClasses ∧
    ((∃ g, getNfullPage cfg t (requestClass cfg size) h = .ok (none, g)) ∨
      (getFreeAa cfg.toAddressConfig t h.addresses).1 = none)

/-- The request fits into a page with its back-pointer, and is not served by the half-word
behind the table, unless that names a class that is large enough. -/
def Fits (cfg : Config) (size : Nat) : Prop :=
  size + 4 ≤ pageDataSize ∧ (adjustedSize cfg size = largestSc →
    cfg.past < sizeClasses ∧ size + 4 ≤ blockSize cfg.past)

section Class
variable {cfg : Config} {size : Nat}

variable (cfg) in
theorem adjustedSize_ge (small : size + 4 ≤ pageDataSize) : size + 4 ≤ adjustedSize cfg size := by
  simp only [pageDataSize, pageSize, pageHeader] at small
  simp only [adjustedSize]
  split <;> omega

theorem requestClass_boundary (eq : adjustedSize cfg size = largestSc) :
    requestClass cfg size = cfg.past := by
  rw [requestClass, eq, getSizeClassIndex_boundary]

/-- The blocks of the class that is looked up are large enough exactly for the sizes that fit. -/
theorem fits_iff : Fits cfg size ↔ requestClass cfg size < sizeClasses ∧
    size + 4 ≤ blockSize (requestClass cfg size) := by
  constructor
  · rintro ⟨small, boundary⟩
    have added := adjustedSize_ge cfg small
    rcases Nat.lt_trichotomy (adjustedSize cfg size) largestSc with below | eq | above
    · obtain ⟨index, enough⟩ := getSizeClassIndex_small cfg.past below
      exact ⟨index, added.trans enough⟩
    · rw [requestClass_boundary eq]
      exact boundary eq
    · rw [requestClass, getSizeClassIndex_large cfg.past above, blockSize_largest]
      exact ⟨by decide, small⟩
  · rintro ⟨index, enough⟩
    refine ⟨enough.trans (blockSize_max index), fun eq => ?_⟩
    rw [requestClass_boundary eq] at index enough
    exact ⟨index, enough⟩

end Class

section Call
variable {cfg : Config} {T t size : Nat} {h : Heap π} {live : Live} {F : Frames}

variable [LawfulAddressPool π]

theorem Good.usable_iff (good : Good cfg T h live F) (config : cfg.Compacting) (ht : t < T) :
    Usable cfg size (cfMalloc cfg t size h) ↔ Refuses cfg t size h ∨ Fits cfg size := by
  have outcome := cfMalloc_spec good ht config size
  generalize hr : cfMalloc cfg t size h = r at outcome
  rw [fits_iff]
  cases outcome with
  | noClass none =>
      refine iff_of_false (fun none => none) ?_
      rintro (⟨index, _⟩ | ⟨index, _⟩) <;> exact none index
  | noPage index nfull free =>
      refine iff_of_true trivial (.inl ⟨index, .inl ⟨h, ?_⟩⟩)
      rw [getNfullPage, if_pos nfull, free]
      rfl
  | noAddress index page taken empty => exact iff_of_true trivial (.inl ⟨index, .inr empty⟩)
  | @named index p i a h2 h' taken nonempty made =>
      have found : ¬ Refuses cfg t size h := by
        rintro ⟨_, ⟨g, page⟩ | empty⟩
        · rw [cfMalloc_of_noPage index page] at hr
          cases hr
        · exact nonempty empty
      have sc : (h'.pages p).sc = requestClass cfg size := made.pages ▸ taken.sc
      have inside := block_inside taken.inside
      have least := blockSize_min index
      have heap : InHeap cfg p := by
        refine (taken.ok.range p).mp fun none => ?_
        rcases taken.listed with eq | eq <;> cases none.symm.trans eq
      constructor
      · rintro ⟨q, j, _, word, within, enough, _⟩
        -- both descriptions of the block lie in the same page
        have same : q = p := by
          rw [made.word] at word
          rw [Nat.add_mul, Nat.one_mul] at within
          simp only [blockStart, pageDataSize, pageSize, pageHeader] at word inside within
          omega
        rw [same, sc] at enough
        exact .inr ⟨index, enough⟩
      · rintro (refuses | ⟨_, enough⟩)
        · exact absurd refuses found
        · refine ⟨p, i, heap, ?_, ?_, ?_, ?_⟩ <;> rw [sc]
          · exact made.word
          · rw [Nat.add_mul, Nat.one_mul]
            exact inside
          · exact enough
          · rw [addressField_eq (by omega)]
            omega

end Call

variable [LawfulAddressPool π]

/-- A request is served with a block that is large enough exactly when it fits. -/
theorem malloc_usable_iff (cfg : Config) (config : cfg.Compacting) (T : Nat)
    (S : System AddressBuckets)
    (run : Run cfg T (fun S a => Clean cfg S a ∧ AbortsFinal cfg S a)
      (AddressBuckets.initFreeAaList cfg.toAddressConfig) S)
    (t size : Nat) (ht : t < T) :
    Usable cfg size (cfMalloc cfg t size S.heap) ↔ Refuses cfg t size S.heap ∨ Fits cfg size := by
  obtain ⟨F, good, _⟩ := run.sound config (fun _ _ ok => ok) (AddressBuckets.valid_init _ T)
  exact good.usable_iff config ht

/-- Two of four objects are freed and a third is moved to the page of the fourth, page 7; then
7000 bytes get one of the freed identifiers and a block. -/
theorem malloc_usable_7000 : ∃ (S : System AddressBuckets) (h : Heap AddressBuckets),
    S.live 1048824 = none ∧ S.live 1048820 = none ∧
      pageOfBlock (S.heap.aaWord smallConfig 1048828) = 7 ∧
      cfMalloc smallConfig 0 7000 S.heap = .ok (some 1048820, h) ∧
      Usable smallConfig 7000 (cfMalloc smallConfig 0 7000 S.heap) := by
  have fits : Fits smallConfig 7000 := by
    refine ⟨by decide, fun eq => ?_⟩
    exact absurd eq (by decide)
  obtain ⟨S, reachable, found⟩ := reachable_of_script smallConfig 1
    (AddressBuckets.initFreeAaList smallConfig.toAddressConfig)
    [.malloc 0 7000, .malloc 0 7000, .malloc 0 7000, .malloc 0 7000, .free 0 1048824,
      .free 0 1048820, .resume 0]
    (p := fun S => (S.live 1048824).isNone && (S.live 1048820).isNone &&
      (pageOfBlock (S.heap.aaWord smallConfig 1048828) = 7 : Bool) &&
      (cfMalloc smallConfig 0 7000 S.heap).toOption.any fun r => r.1 = some 1048820)
    (by decide +kernel)
  simp only [Bool.and_eq_true, Option.isNone_iff_eq_none, decide_eq_true_eq] at found
  obtain ⟨⟨⟨second, third⟩, moved⟩, served⟩ := found
  have usable := malloc_usable_iff smallConfig smallConfig_compacting 1 S
    (reachable.mono fun _ a clean => ⟨clean, abortsFinal_once rfl a⟩) 0 7000 (by decide)
  obtain ⟨⟨r, h⟩, run, eq⟩ := (Option.any_eq_true _ _).mp served
  have address : r = some 1048820 := of_decide_eq_true eq
  refine ⟨S, h, second, third, moved, ?_, ?_⟩
  · rw [← address]
    cases hr : cfMalloc smallConfig 0 7000 S.heap with
    | error fault =>
        rw [hr] at run
        cases run
    | ok =>
        rw [hr] at run
        exact congrArg _ (Option.some.inj run)
  · rw [usable]
    exact .inr fits

def freshHeap (cfg : Config) : Heap AddressBuckets :=
  (System.init cfg (AddressBuckets.initFreeAaList cfg.toAddressConfig)).heap

theorem malloc_unusable_20000 :
    ¬ Usable smallConfig 20000 (cfMalloc smallConfig 0 20000 (freshHeap smallConfig)) := by
  have good := good_init smallConfig 1 (AddressBuckets.valid_init smallConfig.toAddressConfig 1)
  have page : ((getNfullPage smallConfig 0 (requestClass smallConfig 20000)
      (freshHeap smallConfig)).toOption.any fun r => r.1.isSome) = true := by decide +kernel
  have address : (getFreeAa smallConfig.toAddressConfig 0
      (freshHeap smallConfig).addresses).1.isSome = true := by decide +kernel
  rw [freshHeap, System.init, good.usable_iff smallConfig_compacting (by decide : 0 < 1)]
  rintro (⟨_, ⟨g, none⟩ | none⟩ | ⟨small, _⟩)
  · rw [freshHeap, System.init, none] at page
    cases page
  · rw [freshHeap, System.init, none] at address
    cases address
  · exact absurd small (by decide)

end
end CompactFit
