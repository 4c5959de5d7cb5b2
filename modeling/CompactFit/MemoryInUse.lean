import CompactFit.Fragmentation
import CompactFit.MemoryGuarantee

/-!
No memory leaks. A page is in the pool unless a live object lies in it or a suspended
call copies to it, copies from it or has an entry of it; an abstract address is in the pool
unless it is an object's or a suspended call is about to return it.
-/

namespace CompactFit
open Function AddressPool

section
variable {π : Type} [AddressPool π]

/-- A suspended call copies into the page, copies from it, or has an entry of it. An aborted
copy needs no page. -/
def Suspended.Uses (cfg : Config) (h : Heap π) (p : Nat) (call : Suspended) : Prop :=
  call.held = some p ∨
    ¬ call.comp.Aborted cfg h ∧ (call.comp.targetPage = p ∨ call.comp.srcPage = p)

def PageNeeded (cfg : Config) (S : System π) (p : Nat) : Prop :=
  (∃ a, S.live a ≠ none ∧ (S.heap.blockOf cfg a).page = p) ∨
    ∃ t call, S.calls t = some call ∧ call.Uses cfg S.heap p

def AddressNeeded (cfg : Config) (S : System π) (id : Nat) : Prop :=
  S.live (aaPointer cfg id) ≠ none ∨
    ∃ t call, S.calls t = some call ∧ call.address = aaPointer cfg id

theorem Frame.user_of_entries {p : Nat} {f : Frame} (pos : Frame.entries p (some f) ≠ 0) :
    (∃ s, f.source = some s ∧ s.block.page = p) ∨ f.held = some p := by
  by_contra none
  obtain ⟨noSource, noHeld⟩ := not_or.mp none
  refine pos (Nat.add_eq_zero_iff.mpr ⟨?_, ?_⟩)
  · split
    next s source => exact if_neg fun here => noSource ⟨s, source, here⟩
    next => rfl
  · split
    next q held => exact if_neg fun here => noHeld (held.trans (congrArg some here))
    next => rfl

variable [LawfulAddressPool π] {cfg : Config} {T p : Nat} {S : System π} {F : Frames}

theorem Good.needed_of_used (good : Good cfg T S.heap S.live F)
    (answers : ∀ t, Answers (S.calls t) (F t)) {B : Block} (used : (S.heap.view cfg).used B) :
    PageNeeded cfg S B.page := by
  obtain ⟨a, o, hlive, _, owner⟩ := good.block_owner answers used
  rcases owner with ⟨still, placed, start⟩ | ⟨t, f, s, hF, source, _, target⟩
  · have isAa := good.isAa a (.inl (by rw [hlive]; exact Option.some_ne_none o))
    obtain ⟨C, carries, _, _, blockOf, _, ⟨word, _⟩ | ⟨_, moving⟩⟩ := good.object hlive
    · have same : (S.heap.view cfg).word a = S.heap.aaWord cfg a := by
        simp only [Heap.view, isAa, if_true]
      have eq := placed.start_inj carries.placed (start.symm.trans (same.trans word))
      exact .inl ⟨a, by rw [hlive]; exact Option.some_ne_none o, by rw [blockOf, eq]⟩
    · exact absurd moving still
  · obtain ⟨call, hc, waiting⟩ := answers_frame answers hF
    have running := good.running hF waiting target
    obtain ⟨target', _⟩ := good.owns_target hF waiting running
    cases target.symm.trans target'
    exact .inr ⟨t, call, hc, .inr ⟨running, .inl rfl⟩⟩

theorem Good.needed_of_entries (good : Good cfg T S.heap S.live F)
    (answers : ∀ t, Answers (S.calls t) (F t)) (entries : 0 < (S.heap.pages p).sourceentries) :
    PageNeeded cfg S p := by
  have ledger : (S.heap.pages p).sourceentries = ∑ t ∈ Finset.range T, Frame.entries p (F t) :=
    good.owns.ledger p
  obtain ⟨t, _, pos⟩ := Finset.exists_ne_zero_of_sum_ne_zero (ledger ▸ Nat.ne_of_gt entries)
  cases hF : F t with
  | none =>
      rw [hF] at pos
      exact absurd rfl pos
  | some f =>
      obtain ⟨call, hc, waiting⟩ := answers_frame answers hF
      refine .inr ⟨t, call, hc, ?_⟩
      rw [hF] at pos
      rcases Frame.user_of_entries pos with ⟨src, source, here⟩ | held
      · cases waiting with
        | copying target source' linked size =>
            have running := good.running hF (.copying target source' linked size) target
            cases source.symm.trans source'
            exact .inr ⟨running, .inr here⟩
        | aborted none =>
            rw [((good.owns.frame t f hF).lost none).2] at source
            cases source
      · have same : call.held = f.held := by cases waiting <;> rfl
        exact .inl (same.trans held)

theorem Good.inUse_of_needed (good : Good cfg T S.heap S.live F)
    (answers : ∀ t, Answers (S.calls t) (F t)) (needed : PageNeeded cfg S p) :
    (S.heap.view cfg).InUse p := by
  rcases needed with ⟨a, alive, rfl⟩ | ⟨t, call, hc, uses⟩
  · obtain ⟨o, hlive⟩ := Option.ne_none_iff_exists'.mp alive
    have isAa := good.isAa a (.inl alive)
    obtain ⟨B, carries, _, _, blockOf, _, ⟨_, _, used⟩ | ⟨word, u, f, s, hF, source, rfl⟩⟩ :=
      good.object hlive
    · rw [blockOf]
      exact View.used_inUse used
    · obtain ⟨_, _, _, _, _, ok⟩ := good.owns.source_ok hF source
      have same : (S.heap.view cfg).word s.address = S.heap.aaWord cfg s.address := by
        simp only [Heap.view, isAa, if_true]
      have eq := carries.placed.start_inj ok.carries.placed
        (Nat.add_right_cancel (word.symm.trans (same.symm.trans ok.word)))
      rw [blockOf, eq]
      exact .inr ((good.owns.entries_pos hF).1 s source)
  · obtain ⟨f, hF, waiting⟩ := answers_call answers hc
    have entries := good.owns.entries_pos hF
    rcases uses with held | ⟨running, rfl | rfl⟩
    · have same : f.held = call.held := by cases waiting <;> rfl
      exact .inr (entries.2 p (same.trans held))
    · exact View.used_inUse (good.owns_target hF waiting running).2.1
    · cases waiting with
      | copying _ source => exact .inr (entries.1 _ source)
      | aborted target sc targetAa round value lost =>
          exact absurd (good.aborted_of_lost hF (.aborted target sc targetAa round value lost)
            target) running

/-- The pages of the heap that are not free are the ones that are needed. -/
theorem Good.free_iff (good : Good cfg T S.heap S.live F)
    (answers : ∀ t, Answers (S.calls t) (F t)) (inHeap : InHeap cfg p) :
    (S.heap.pages p).listFlags = .free ↔ ¬ PageNeeded cfg S p := by
  refine ⟨fun free needed => good.heap.notFree (good.inUse_of_needed answers needed) free,
    fun unneeded => ?_⟩
  have page := good.heap.page p
  have flag := page.flag
  have unused : (S.heap.pages p).nrUsedPageBlocks = 0 := by
    by_contra some
    obtain ⟨i, used⟩ := page.exists_used (Nat.pos_of_ne_zero some)
    exact unneeded (good.needed_of_used answers (B := ⟨p, i⟩) used)
  have unlisted : (S.heap.pages p).sourceentries = 0 := by
    by_contra some
    exact unneeded (good.needed_of_entries answers (Nat.pos_of_ne_zero some))
  have full := capacity_pos page.sc_lt
  cases eq : (S.heap.pages p).listFlags with
  | free => rfl
  | none => exact absurd eq ((good.heap.range p).mpr inHeap)
  | _ =>
      rw [eq] at flag
      simp only [FlagOk] at flag
      omega

omit [AddressPool π] [LawfulAddressPool π] in
theorem out_iff_needed (answers : ∀ t, Answers (S.calls t) (F t)) (id : Nat) :
    Out S.live F (aaPointer cfg id) ↔ AddressNeeded cfg S id := by
  refine or_congr_right ⟨?_, ?_⟩
  · rintro ⟨t, f, hF, eq⟩
    obtain ⟨call, hc, waiting⟩ := answers_frame answers hF
    refine ⟨t, call, hc, ?_⟩
    cases waiting <;> exact eq
  · rintro ⟨t, call, hc, eq⟩
    obtain ⟨f, hF, waiting⟩ := answers_call answers hc
    refine ⟨t, f, hF, ?_⟩
    cases waiting <;> exact eq

end

/-! ### Runs -/

open AddressBuckets in
/-- In every reachable state the pool of free pages has exactly the pages that no live object
and no suspended call needs, and the pool of addresses the identifiers that none needs. -/
theorem memory_in_use (cfg : Config) (config : cfg.Compacting)
    (once : cfg.memcpyMultiplicator = 1) (T : Nat) (S : System AddressBuckets)
    (reachable : Reachable cfg T (initFreeAaList cfg.toAddressConfig) S) :
    (∃ P, PoolOk cfg S.heap P ∧ ∀ p, P.Holds p ↔ InHeap cfg p ∧ ¬ PageNeeded cfg S p) ∧
      ∃ P Q cell, Rep cfg.toAddressConfig T S.heap.addresses P Q cell ∧
        ∀ id, id < cfg.nrAas → (P.Holds id ↔ ¬ AddressNeeded cfg S id) := by
  obtain ⟨F, good, answers⟩ := reachable.sound config once (valid_init _ T)
  refine ⟨?_, ?_⟩
  · obtain ⟨P, pool⟩ := good.heap.pool
    refine ⟨P, pool, fun p => ?_⟩
    rw [pool.holds]
    refine ⟨fun free => ?_, fun ⟨inHeap, unneeded⟩ => (good.free_iff answers inHeap).mpr unneeded⟩
    have inHeap := pool.inHeap p free
    exact ⟨inHeap, (good.free_iff answers inHeap).mp free⟩
  · obtain ⟨P, Q, cell, rep, free, _⟩ := good.valid
    refine ⟨P, Q, cell, rep, fun id lt => ?_⟩
    exact (free id lt).trans (not_congr (out_iff_needed answers id))

open AddressBuckets in
/-- While a compaction is suspended its target page is needed and not in the pool. -/
theorem memory_in_use_suspended : ∃ S : System AddressBuckets, S.calls 0 ≠ none ∧
    (∃ P, PoolOk smallConfig S.heap P ∧
      ∀ p, P.Holds p ↔ InHeap smallConfig p ∧ ¬ PageNeeded smallConfig S p) ∧
      ∃ P Q cell, Rep smallConfig.toAddressConfig 2 S.heap.addresses P Q cell ∧
        ∀ id, id < smallConfig.nrAas → (P.Holds id ↔ ¬ AddressNeeded smallConfig S id) := by
  obtain ⟨S, reachable, found⟩ := reachable_of_script smallConfig 2
    (initFreeAaList smallConfig.toAddressConfig)
    [.malloc 0 7000, .malloc 0 7000, .malloc 0 7000, .malloc 0 7000, .malloc 0 7000,
      .malloc 1 40, .free 0 1048828]
    (p := fun S => (S.calls 0).isSome) (by decide +kernel)
  exact ⟨S, Option.isSome_iff_ne_none.mp found,
    memory_in_use smallConfig smallConfig_compacting rfl 2 S reachable⟩

end CompactFit
