import CompactFit.PagePoolInit

/-!
Runs of `get_free_page` and `add_free_page` in which every thread may return what another
has taken, and the bytes of what is taken hold anything.
-/

namespace CompactFit
open ByteMemory BucketPool

/-- The heap and the pages that are handed out. -/
structure PageExchange (π : Type) where
  heap : Heap π
  out : Finset Nat

inductive PageExchangeAction where
  | get (t : Nat)
  | add (t p : Nat)
  | write (a : Nat) (v : UInt8)

namespace PageExchange
variable {π : Type}

def init (cfg : Config) (addresses : π) : PageExchange π :=
  { heap := initHeap cfg addresses, out := ∅ }

def perform (cfg : Config) (S : PageExchange π) :
    PageExchangeAction → Except Fault (PageExchange π)
  | .get t => do
      let (p, h) ← getFreePage cfg t S.heap
      return { heap := h, out := p.elim S.out fun p => insert p S.out }
  | .add t p => do
      let h ← addFreePage cfg t p S.heap
      return { heap := h, out := S.out.erase p }
  | .write a v => .ok { S with heap := { S.heap with memory := writeByte S.heap.memory a v } }

/-- Only a page that is handed out is returned, or has its bytes written. -/
def Enabled (T : Nat) (S : PageExchange π) : PageExchangeAction → Prop
  | .get t => t < T
  | .add t p => t < T ∧ p ∈ S.out
  | .write a _ => pageOfBlock a ∈ S.out

instance (T : Nat) (S : PageExchange π) : (a : PageExchangeAction) → Decidable (Enabled T S a)
  | .get t => inferInstanceAs (Decidable (t < T))
  | .add t p => inferInstanceAs (Decidable (t < T ∧ p ∈ S.out))
  | .write a _ => inferInstanceAs (Decidable (pageOfBlock a ∈ S.out))

inductive Run (cfg : Config) (T : Nat) (addresses : π) : PageExchange π → Prop where
  | init : Run cfg T addresses (PageExchange.init cfg addresses)
  | step {S S' : PageExchange π} (a : PageExchangeAction) : Run cfg T addresses S →
      Enabled T S a → S.perform cfg a = .ok S' → Run cfg T addresses S'

variable {cfg : Config} {T : Nat} {S : PageExchange π} {P : Pool Nat Nat} {addresses : π}

structure Tracked (cfg : Config) (T : Nat) (S : PageExchange π) (P : Pool Nat Nat) : Prop where
  pool : PoolOk cfg S.heap P
  flags : ∀ p, cfg.firstPage ≤ p → p < cfg.firstPage + cfg.nrPages →
    ((S.heap.pages p).listFlags = .free ↔ p ∉ S.out)
  outFlags : ∀ p, p ∈ S.out → (cfg.firstPage ≤ p ∧ p < cfg.firstPage + cfg.nrPages) ∧
    (S.heap.pages p).listFlags = .none
  idle : ∀ t, T ≤ t → (P.locals t).elems = []

theorem tracked_init (cfg : Config) (T : Nat) (addresses : π) :
    ∃ bs, Tracked cfg T (init cfg addresses) (stackedPages bs) ∧
      bs.flatten = (List.range' cfg.firstPage cfg.nrPages).reverse := by
  obtain ⟨bs, ok, order⟩ := initHeap_pool cfg addresses
  refine ⟨bs, ⟨ok, fun p lo hi => ?_, fun p mem => ?_, fun t _ => rfl⟩, order⟩
  · exact iff_of_true (((initHeap_spec cfg addresses).2.1 p).mpr ⟨lo, hi⟩) (Finset.notMem_empty p)
  · exact absurd mem (Finset.notMem_empty p)

theorem tracked_get (tracked : S.Tracked cfg T P) {t : Nat} (ht : t < T) :
    (getFreePage cfg t S.heap = .ok (none, S.heap) ∧ BucketPool.get t P = none) ∨
    ∃ p h P', getFreePage cfg t S.heap = .ok (some p, h) ∧ BucketPool.get t P = some (p, P') ∧
      p ∉ S.out ∧ Tracked cfg T { heap := h, out := insert p S.out } P' := by
  rcases getFreePage_spec t tracked.pool with none | ⟨p, P', threads, head, run, free, pool, get⟩
  · exact .inl none
  · have range := tracked.pool.inHeap p free
    refine .inr ⟨p, _, P', run, get, (tracked.flags p range.1 range.2).mp free, pool, ?_, ?_, ?_⟩
    · intro q lo hi
      by_cases eq : q = p
      · subst eq
        simp
      · simp [eq, tracked.flags q lo hi]
    · intro q mem
      by_cases eq : q = p
      · subst eq
        exact ⟨range, by simp⟩
      · have old := tracked.outFlags q (Finset.mem_of_mem_insert_of_ne mem eq)
        simpa [eq] using old
    · intro s hs
      rw [get_other get (by omega), tracked.idle s hs]

theorem tracked_add (tracked : S.Tracked cfg T P) {t p : Nat} (ht : t < T) (hp : p ∈ S.out) :
    ∃ h, addFreePage cfg t p S.heap = .ok h ∧
      Tracked cfg T { heap := h, out := S.out.erase p }
        (BucketPool.put cfg.nrLocalPages cfg.nrLocalPbuckets t p P) := by
  obtain ⟨range, off⟩ := tracked.outFlags p hp
  obtain ⟨h, run, pool, pages, _⟩ := addFreePage_spec t tracked.pool off range
  refine ⟨h, run, pool, ?_, ?_, ?_⟩
  · intro q lo hi
    by_cases eq : q = p
    · subst eq
      simp [pages]
    · simp [pages, eq, tracked.flags q lo hi]
  · intro q mem
    obtain ⟨ne, mem⟩ := Finset.mem_erase.mp mem
    simpa [pages, ne] using tracked.outFlags q mem
  · intro s hs
    rw [put_other _ _ _ _ (by omega), tracked.idle s hs]

/-- A byte of a page that is out is nobody's link. -/
theorem tracked_write (tracked : S.Tracked cfg T P) {a : Nat} (ha : pageOfBlock a ∈ S.out)
    (v : UInt8) : Tracked cfg T
      { S with heap := { S.heap with memory := writeByte S.heap.memory a v } } P := by
  refine ⟨poolOk_congr tracked.pool (fun _ => Iff.rfl) (fun p free => ?_) rfl rfl, tracked.flags,
    tracked.outFlags, tracked.idle⟩
  have off := (tracked.outFlags _ ha).2
  have ne : pageOfBlock a ≠ p := by
    rintro rfl
    rw [off] at free
    cases free
  refine writeByte_agreeOn _ v ?_
  simp only [pageOfBlock, pageAddress, pageSize] at ne ⊢
  omega

theorem Run.tracked (run : Run cfg T addresses S) : ∃ P, S.Tracked cfg T P := by
  induction run with
  | init =>
      obtain ⟨bs, tracked, _⟩ := tracked_init cfg T addresses
      exact ⟨_, tracked⟩
  | @step S S' a _ enabled run ih =>
      obtain ⟨P, tracked⟩ := ih
      cases a with
      | get t =>
          rcases tracked_get tracked enabled with ⟨run', _⟩ | ⟨p, h, P', run', _, _, tracked'⟩
          · rw [perform, run'] at run
            cases run
            exact ⟨P, tracked⟩
          · rw [perform, run'] at run
            cases run
            exact ⟨P', tracked'⟩
      | add t p =>
          obtain ⟨h, run', tracked'⟩ := tracked_add tracked enabled.1 enabled.2
          rw [perform, run'] at run
          cases run
          exact ⟨_, tracked'⟩
      | write a v =>
          cases run
          exact ⟨P, tracked_write tracked enabled v⟩

end PageExchange
end CompactFit
