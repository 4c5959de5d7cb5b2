import CompactFit.LockFreePagesInit
import CompactFit.PageConservation

/-!
Every run of the calls of all threads, with the accesses to the global stack in any order, is
a run of whole calls: those that are completed, in that order and with the same results.
-/

namespace CompactFit
open NbStack BucketPool

namespace PageExchange
variable {π : Type}

/-- A call without a step of another thread in between. -/
inductive Call (cfg : Config) (T : Nat) (E : PageExchange π) :
    PoolEvent Nat → PageExchange π → Prop where
  | got {t : Nat} {p : Option Nat} {h : Heap π} : t < T →
      getFreePage cfg t E.heap = .ok (p, h) →
      Call cfg T E (.got t p) { heap := h, out := p.elim E.out fun p => insert p E.out }
  | added {t p : Nat} {h : Heap π} : t < T → p ∈ E.out → addFreePage cfg t p E.heap = .ok h →
      Call cfg T E (.added t p) { heap := h, out := E.out.erase p }

/-- The states after whole calls, one after the other. -/
inductive Calls (cfg : Config) (T : Nat) (addresses : π) :
    List (PoolEvent Nat) → PageExchange π → Prop where
  | init : Calls cfg T addresses [] (init cfg addresses)
  | call {cs : List (PoolEvent Nat)} {c : PoolEvent Nat} {E E' : PageExchange π} :
      Calls cfg T addresses cs E → Call cfg T E c E' → Calls cfg T addresses (cs ++ [c]) E'

variable {cfg : Config} {T : Nat} {addresses : π} {E : PageExchange π} {P P' : Pool Nat Nat}

/-- Whole calls are a run of the pool. -/
theorem Calls.run {cs : List (PoolEvent Nat)} (calls : Calls cfg T addresses cs E) :
    Run cfg T addresses E := by
  induction calls with
  | init => exact .init
  | call _ called ih =>
      cases called with
      | got ht run => exact .step (.get _) ih ht (by rw [perform, run]; rfl)
      | added ht out run => exact .step (.add _ _) ih ⟨ht, out⟩ (by rw [perform, run]; rfl)

/-- What the bucketed pool serves, the links in memory serve. -/
theorem Tracked.serves (tracked : E.Tracked cfg T P) {c : PoolEvent Nat}
    (serves : Serves cfg T E.out P (some c) P') :
    ∃ E', Call cfg T E c E' ∧ E'.Tracked cfg T P' := by
  cases serves with
  | @got t x _ ht served =>
      rcases tracked_get tracked ht with ⟨_, none⟩ | ⟨p, h, Q, run, get, _, after⟩
      · rw [none] at served
        cases served
      · rw [get] at served
        cases served
        exact ⟨_, .got ht run, after⟩
  | null ht none =>
      rcases tracked_get tracked ht with ⟨run, _⟩ | ⟨p, h, Q, _, get, _⟩
      · exact ⟨_, .got ht run, tracked⟩
      · rw [none] at get
        cases get
  | added ht out =>
      obtain ⟨h, run, after⟩ := tracked_add tracked ht out
      exact ⟨_, .added ht out run, after⟩

theorem Tracked.inHeap (tracked : E.Tracked cfg T P) {p : Nat} (held : P.Holds p) :
    cfg.firstPage ≤ p ∧ p < cfg.firstPage + cfg.nrPages :=
  tracked.pool.inHeap p ((tracked.pool.holds p).mp held)

end PageExchange

/-- A pool with renamed items serves renamed calls. -/
theorem Serves.of_map {α β : Type} [DecidableEq β] {cfg : Config} {T : Nat} {out : Finset α}
    {P : Pool Nat α} {Q' : Pool Nat β} {e : Option (PoolEvent β)} (f : α → β)
    (serves : Serves cfg T (out.image f) (P.map f) e Q') :
    ∃ c P', e = c.map (PoolEvent.map f) ∧ Q' = P'.map f ∧ Serves cfg T out P c P' := by
  cases serves with
  | nothing => exact ⟨none, P, rfl, rfl, .nothing⟩
  | @got t _ _ ht served =>
      rw [get_map, Option.map_eq_some_iff] at served
      obtain ⟨⟨x, P'⟩, served, eq⟩ := served
      cases eq
      exact ⟨some (.got t (some x)), P', rfl, rfl, .got ht served⟩
  | @null t ht none =>
      rw [get_map, Option.map_eq_none_iff] at none
      exact ⟨some (.got t .none), P, rfl, rfl, .null ht none⟩
  | @added t _ ht mem =>
      obtain ⟨p, out, rfl⟩ := Finset.mem_image.mp mem
      exact ⟨some (.added t p), _, rfl, put_map f .., .added ht out⟩

namespace LockFreePages
variable {π : Type} {cfg : Config} {T : Nat} {S : LockFreePages} {E : PageExchange π}
  {P : Pool Nat Nat}

/-- One pool behind both: what is handed out is the same. -/
theorem out_eq (fine : S.Tracked cfg T (P.map pageElem)) (whole : E.Tracked cfg T P) :
    S.out = E.out.image pageElem := by
  ext x
  rw [Finset.mem_image]
  constructor
  · intro out
    obtain ⟨p, inHeap, rfl⟩ := mem_pageElems.mp ((fine.places.mem_iff x).mpr (.inr out))
    refine ⟨p, ?_, rfl⟩
    by_contra kept
    have held := (whole.held_iff inHeap.1 inHeap.2).mpr kept
    exact fine.places.apart _ ((holds_map ..).mpr ⟨p, held, rfl⟩) out
  · rintro ⟨p, out, rfl⟩
    have inHeap := (whole.outFlags p out).1
    refine ((fine.places.mem_iff _).mp (mem_pageElems.mpr ⟨p, inHeap, rfl⟩)).resolve_left ?_
    intro listed
    obtain ⟨q, held, eq⟩ := (holds_map ..).mp listed
    obtain rfl := pageElem_inj cfg (whole.inHeap held) inHeap eq
    exact (whole.held_iff inHeap.1 inHeap.2).mp held out

/-- Both sides start with the same buckets. -/
theorem init_pool (cfg : Config) (T : Nat) (addresses : π) : ∃ P : Pool Nat Nat,
    (init cfg).Tracked cfg T (P.map pageElem) ∧
      (PageExchange.init cfg addresses).Tracked cfg T P := by
  obtain ⟨bs, fine, order⟩ := tracked_init cfg T
  obtain ⟨bs', whole, order'⟩ := PageExchange.tracked_init cfg T addresses
  refine ⟨_, ?_, whole⟩
  have flat : bs.flatten = (bs'.map (List.map pageElem)).flatten := by
    rw [order, ← order', List.map_flatten]
  have size : ∀ b, b ∈ bs → b.length = cfg.nrLocalPages := fine.wellFormed.shared_length
  have size' : ∀ b, b ∈ bs'.map (List.map pageElem) → b.length = cfg.nrLocalPages := by
    intro b mem
    obtain ⟨c, listed, rfl⟩ := List.mem_map.mp mem
    rw [List.length_map]
    exact whole.pool.wellFormed.shared_length c listed
  rw [eq_of_flatten cfg.nrLocalPages_pos size size' flat] at fine
  exact fine

/-- The runs of the threads, next to the whole calls that they have completed. -/
theorem Run.completed {es : List (PoolEvent Elem)} (run : Run cfg T es S) (addresses : π) :
    ∃ (E : PageExchange π) (cs : List (PoolEvent Nat)) (P : Pool Nat Nat),
      PageExchange.Calls cfg T addresses cs E ∧ es = cs.map (PoolEvent.map pageElem) ∧
        S.Tracked cfg T (P.map pageElem) ∧ E.Tracked cfg T P := by
  induction run with
  | init =>
      obtain ⟨P, fine, whole⟩ := init_pool cfg T addresses
      exact ⟨_, [], P, .init, rfl, fine, whole⟩
  | step a _ enabled run ih =>
      obtain ⟨E, cs, P, calls, rfl, fine, whole⟩ := ih
      obtain ⟨_, _, Q, run', fine', serves⟩ := fine.step enabled
      cases run'.symm.trans run
      rw [out_eq fine whole] at serves
      obtain ⟨c, P', rfl, rfl, served⟩ := serves.of_map
      cases c with
      | none =>
          cases served
          exact ⟨E, cs, P, calls, by simp, fine', whole⟩
      | some c =>
          obtain ⟨E', called, whole'⟩ := whole.serves served
          exact ⟨E', cs ++ [c], P', calls.call called, by simp, fine', whole'⟩

def play (cfg : Config) (T : Nat) :
    List PoolAction → LockFreePages → Option (List (PoolEvent Elem) × LockFreePages)
  | [], S => some ([], S)
  | a :: as, S =>
      if S.Enabled T a then
        match S.perform cfg a with
        | .ok (S', e) => (play cfg T as S').map fun r => (e.toList ++ r.1, r.2)
        | .error _ => none
      else none

theorem Run.play {as : List PoolAction} {es es' : List (PoolEvent Elem)} {S' : LockFreePages}
    (run : Run cfg T es S) (h : play cfg T as S = some (es', S')) : Run cfg T (es ++ es') S' := by
  induction as generalizing S es es' with
  | nil =>
      cases h
      rwa [List.append_nil]
  | cons a as ih =>
      simp only [LockFreePages.play] at h
      split at h
      next enabled =>
        split at h
        next done =>
          obtain ⟨⟨rest, S₁⟩, after, same⟩ := Option.map_eq_some_iff.mp h
          cases same
          rw [← List.append_assoc]
          exact ih (.step a run enabled done) after
        next => cases h
      next => cases h

end LockFreePages

/-- With the accesses to the global stack in any order, the completed calls are a run of whole
calls with the same results and the same buckets, and every step succeeds. -/
theorem free_page_calls_atomic {cfg : Config} {T : Nat} {es : List (PoolEvent Elem)}
    {S : LockFreePages} (run : LockFreePages.Run cfg T es S) :
    (∃ (E : PageExchange Unit) (cs : List (PoolEvent Nat)) (P : Pool Nat Nat),
      PageExchange.Calls cfg T () cs E ∧ es = cs.map (PoolEvent.map pageElem) ∧
        S.out = E.out.image pageElem ∧ S.Tracked cfg T (P.map pageElem) ∧ E.Tracked cfg T P) ∧
    ∀ a, S.Enabled T a → ∃ S' e, S.perform cfg a = .ok (S', e) := by
  obtain ⟨E, cs, P, calls, same, fine, whole⟩ := run.completed ()
  refine ⟨⟨E, cs, P, calls, same, LockFreePages.out_eq fine whole, fine, whole⟩,
    fun a enabled => ?_⟩
  obtain ⟨S', e, _, done, _⟩ := fine.step enabled
  exact ⟨S', e, done⟩

/-- Thread 1 has read the top bucket and its link when thread 0 takes both buckets, writes over
the top one and puts it back. -/
def bucketReuse : List PoolAction :=
  [.get 1, .access 1, .access 1, .get 0, .access 0, .access 0, .access 0, .get 0, .get 0,
    .access 0, .access 0, .access 0, .write 0x10000 5 7, .add 0 0x10000, .add 0 0xC000, .access 0,
    .access 0, .access 0, .access 1, .access 1, .access 1, .access 1, .get 1, .get 1, .access 1]

theorem free_page_calls_atomic_reused : ∃ S E cs P,
    PageExchange.Calls pairConfig 2 () cs E ∧
      [.got 0 (some 0x10000), .got 0 (some 0xC000), .got 0 (some 0x8000), .added 0 0x10000,
        .added 0 0xC000, .got 1 (some 0x10000), .got 1 (some 0x4000), .got 1 none] =
        cs.map (PoolEvent.map pageElem) ∧
      S.out = E.out.image pageElem ∧ LockFreePages.Tracked pairConfig 2 S (P.map pageElem) ∧
        E.Tracked pairConfig 2 P := by
  have played : ((LockFreePages.init pairConfig).play pairConfig 2 bucketReuse).map Prod.fst =
      some [.got 0 (some 0x10000), .got 0 (some 0xC000), .got 0 (some 0x8000), .added 0 0x10000,
        .added 0 0xC000, .got 1 (some 0x10000), .got 1 (some 0x4000), .got 1 none] := by
    decide +kernel
  obtain ⟨⟨es, S⟩, done, same⟩ := Option.map_eq_some_iff.mp played
  obtain rfl : es = _ := same
  obtain ⟨E, cs, P, whole⟩ := (free_page_calls_atomic (LockFreePages.Run.init.play done)).1
  exact ⟨S, E, cs, P, whole⟩

end CompactFit
