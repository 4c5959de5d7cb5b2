import CompactFit.BucketShortage
import CompactFit.PageConservation

/-!
With one thread the pools are plain stacks: the identifiers, and the pages, come back in
the order in which one list of all of them would return them.
-/

namespace CompactFit
open AddressBuckets BucketPool

/-- The pool of addresses and a plain stack after the same calls of one thread. -/
inductive Exchange.Lockstep (cfg : AddressConfig) : Exchange → List Nat → Prop where
  | init : Lockstep cfg (Exchange.init cfg) (List.range cfg.nrAas).reverse
  | get {S S' : Exchange} {stack : List Nat} : Lockstep cfg S stack →
      S.perform cfg (.get 0) = .ok S' → Lockstep cfg S' stack.tail
  | put {S S' : Exchange} {stack : List Nat} {id : Nat} : Lockstep cfg S stack → id ∈ S.out →
      S.perform cfg (.put 0 id) = .ok S' → Lockstep cfg S' (id :: stack)
  | write {S S' : Exchange} {stack : List Nat} {id w : Nat} : Lockstep cfg S stack → id ∈ S.out →
      S.perform cfg (.write id w) = .ok S' → Lockstep cfg S' stack

/-- The pool of pages and a plain stack after the same calls of one thread. -/
inductive PageExchange.Lockstep {π : Type} (cfg : Config) (addresses : π) :
    PageExchange π → List Nat → Prop where
  | init : Lockstep cfg addresses (PageExchange.init cfg addresses)
      ((List.range cfg.nrPages).reverse.map (cfg.firstPage + ·))
  | get {S S' : PageExchange π} {stack : List Nat} : Lockstep cfg addresses S stack →
      S.perform cfg (.get 0) = .ok S' → Lockstep cfg addresses S' stack.tail
  | add {S S' : PageExchange π} {stack : List Nat} {p : Nat} : Lockstep cfg addresses S stack →
      p ∈ S.out → S.perform cfg (.add 0 p) = .ok S' → Lockstep cfg addresses S' (p :: stack)
  | write {S S' : PageExchange π} {stack : List Nat} {a : Nat} {v : UInt8} :
      Lockstep cfg addresses S stack → pageOfBlock a ∈ S.out →
      S.perform cfg (.write a v) = .ok S' → Lockstep cfg addresses S' stack

namespace Exchange
variable {cfg : AddressConfig} {S : Exchange} {stack : List Nat} {P Q : Ids}
  {cell : List Nat → Nat}

theorem Lockstep.run (lockstep : S.Lockstep cfg stack) : Run cfg 1 S := by
  induction lockstep with
  | init => exact .init
  | get _ run ih => exact .step (.get 0) ih Nat.one_pos run
  | put _ mem run ih => exact .step (.put 0 _) ih ⟨Nat.one_pos, mem⟩ run
  | write _ mem run ih => exact .step (.write _ _) ih mem run

theorem Tracked.get_stack (ok : S.Tracked cfg 1 P Q cell) (order : P.visible 0 = stack) :
    (getFreeAa cfg 0 S.pool).1 = stack.head? ∧
      ∃ S' P' Q', S.perform cfg (.get 0) = .ok S' ∧ S'.Tracked cfg 1 P' Q' cell ∧
        P'.visible 0 = stack.tail := by
  subst order
  rcases tracked_get ok Nat.one_pos with ⟨run, hi, refill, got⟩ |
    ⟨id, items, S', P1, Q', run, opened, hid, _, _, ok', got⟩
  · obtain ⟨_, hb, hs⟩ := refill_none refill
    have none : P.visible 0 = [] := by simp [Pool.visible, Local.elems, hi, hb, hs]
    rw [none, got]
    exact ⟨rfl, S, P, Q, run, ok, none⟩
  · have same : P1.visible 0 = P.visible 0 := by
      cases opened with
      | has => rfl
      | opens _ refill => exact visible_refill refill
    have popped := get_visible (get_of_items hid)
    rw [← same, popped, got]
    exact ⟨rfl, S', _, Q', run, ok', rfl⟩

/-- The only thread always finds an empty bucket. -/
theorem Tracked.put_stack (ok : S.Tracked cfg 1 P Q cell) (run : Run cfg 1 S)
    (order : P.visible 0 = stack) {id : Nat} (mem : id ∈ S.out) :
    ∃ σ S' P' Q' cell', putFreeAa cfg 0 id S.pool = .ok σ ∧ S.perform cfg (.put 0 id) = .ok S' ∧
      S'.Tracked cfg 1 P' Q' cell' ∧ P'.visible 0 = id :: stack := by
  have found := (run.bucketFound (.inl (by simp)) 0 id Nat.one_pos mem).2
  rcases tracked_put ok Nat.one_pos mem with ⟨fault, _⟩ |
    ⟨S', Q', cell', run', _, ⟨σ, put⟩, ok', _⟩
  · exact absurd fault found
  · exact ⟨σ, S', _, Q', cell', put, run', ok', by rw [visible_put, order]⟩

theorem Lockstep.stack_eq (lockstep : S.Lockstep cfg stack) :
    ∃ P Q cell, S.Tracked cfg 1 P Q cell ∧ P.visible 0 = stack := by
  induction lockstep with
  | init => exact ⟨_, _, _, tracked_init, flatten_bucketIds cfg cfg.nrAaBuckets⟩
  | get _ run ih =>
      obtain ⟨P, Q, cell, ok, order⟩ := ih
      obtain ⟨_, S', P', Q', run', ok', order'⟩ := ok.get_stack order
      rw [run] at run'
      cases run'
      exact ⟨P', Q', cell, ok', order'⟩
  | put before mem run ih =>
      obtain ⟨P, Q, cell, ok, order⟩ := ih
      obtain ⟨_, S', P', Q', cell', _, run', ok', order'⟩ := ok.put_stack before.run order mem
      rw [run] at run'
      cases run'
      exact ⟨P', Q', cell', ok', order'⟩
  | write _ mem run ih =>
      obtain ⟨P, Q, cell, ok, order⟩ := ih
      cases run
      exact ⟨P, Q, cell, tracked_write ok mem _, order⟩

theorem Tracked.stack_nil (ok : S.Tracked cfg 1 P Q cell) :
    P.visible 0 = [] ↔ ∀ id, id < cfg.nrAas → id ∈ S.out := by
  have alone : ∀ s, s ≠ 0 → (P.locals s).elems = [] :=
    fun s ne => (ok.rep.ledger.idle s (Nat.one_le_iff_ne_zero.mpr ne)).1
  constructor
  · intro none id lt
    by_contra out
    have held := (ok.free id lt).mpr out
    rw [mem_visible_of_alone alone, none] at held
    cases held
  · intro all
    refine List.eq_nil_iff_forall_not_mem.mpr fun id mem => ?_
    have held := (mem_visible_of_alone alone id).mpr mem
    have lt := ok.rep.ledger.held id held
    exact (ok.free id lt).mp held (all id lt)

end Exchange

namespace PageExchange
variable {π : Type} {cfg : Config} {S : PageExchange π} {stack : List Nat} {P : Pool Nat Nat}
  {addresses : π}

theorem Tracked.get_stack (tracked : S.Tracked cfg 1 P) (order : P.visible 0 = stack) :
    ∃ h S' P', getFreePage cfg 0 S.heap = .ok (stack.head?, h) ∧
      S.perform cfg (.get 0) = .ok S' ∧ S'.Tracked cfg 1 P' ∧ P'.visible 0 = stack.tail := by
  subst order
  rcases tracked_get tracked Nat.one_pos with ⟨run, get⟩ | ⟨p, h, P', run, get, _, tracked'⟩
  · have none := visible_of_get_none cfg.nrLocalPages_pos tracked.pool.wellFormed get
    rw [none]
    exact ⟨_, S, P, run, by rw [perform, run]; rfl, tracked, none⟩
  · rw [get_visible get]
    exact ⟨h, _, P', run, by rw [perform, run]; rfl, tracked', rfl⟩

theorem Tracked.add_stack (tracked : S.Tracked cfg 1 P) (order : P.visible 0 = stack) {p : Nat}
    (mem : p ∈ S.out) : ∃ S' P', S.perform cfg (.add 0 p) = .ok S' ∧ S'.Tracked cfg 1 P' ∧
      P'.visible 0 = p :: stack := by
  obtain ⟨h, run, tracked'⟩ := tracked_add tracked Nat.one_pos mem
  exact ⟨_, _, by rw [perform, run]; rfl, tracked', by rw [visible_put, order]⟩

theorem Lockstep.stack_eq (lockstep : S.Lockstep cfg addresses stack) :
    ∃ P, S.Tracked cfg 1 P ∧ P.visible 0 = stack := by
  induction lockstep with
  | init =>
      obtain ⟨bs, tracked, order⟩ := tracked_init cfg 1 addresses
      refine ⟨_, tracked, ?_⟩
      rw [List.map_reverse, ← List.range'_eq_map_range, ← order]
      rfl
  | get _ run ih =>
      obtain ⟨P, tracked, order⟩ := ih
      obtain ⟨_, S', P', _, run', tracked', order'⟩ := tracked.get_stack order
      rw [run] at run'
      cases run'
      exact ⟨P', tracked', order'⟩
  | add _ mem run ih =>
      obtain ⟨P, tracked, order⟩ := ih
      obtain ⟨S', P', run', tracked', order'⟩ := tracked.add_stack order mem
      rw [run] at run'
      cases run'
      exact ⟨P', tracked', order'⟩
  | write _ mem run ih =>
      obtain ⟨P, tracked, order⟩ := ih
      cases run
      exact ⟨P, tracked_write tracked mem _, order⟩

theorem Tracked.stack_nil (tracked : S.Tracked cfg 1 P) :
    P.visible 0 = [] ↔
      ∀ p, cfg.firstPage ≤ p → p < cfg.firstPage + cfg.nrPages → p ∈ S.out := by
  have alone : ∀ s, s ≠ 0 → (P.locals s).elems = [] :=
    fun s ne => tracked.idle s (Nat.one_le_iff_ne_zero.mpr ne)
  constructor
  · intro none p lo hi
    by_contra out
    have held := (tracked.pool.holds p).mpr ((tracked.flags p lo hi).mpr out)
    rw [mem_visible_of_alone alone, none] at held
    cases held
  · intro all
    refine List.eq_nil_iff_forall_not_mem.mpr fun p mem => ?_
    have free := (tracked.pool.holds p).mp ((mem_visible_of_alone alone p).mpr mem)
    have range := tracked.pool.inHeap p free
    exact (tracked.flags p range.1 range.2).mp free (all p range.1 range.2)

end PageExchange

/-- After any calls of one thread `get_free_aa` and `get_free_page` return the top of the
plain stack, nothing exactly if all is handed out, and no assertion of `put_free_aa` or
`add_free_page` fails. -/
theorem pools_lifo {π : Type} (acfg : AddressConfig) (cfg : Config) (addresses : π) :
    (∀ S stack, Exchange.Lockstep acfg S stack →
      (getFreeAa acfg 0 S.pool).1 = stack.head? ∧
      ((getFreeAa acfg 0 S.pool).1 = none ↔ ∀ id, id < acfg.nrAas → id ∈ S.out) ∧
      ∀ id, id ∈ S.out → ∃ σ, putFreeAa acfg 0 id S.pool = .ok σ) ∧
    ∀ S stack, PageExchange.Lockstep cfg addresses S stack →
      (∃ h, getFreePage cfg 0 S.heap = .ok (stack.head?, h)) ∧
      (stack.head? = none ↔
        ∀ p, cfg.firstPage ≤ p → p < cfg.firstPage + cfg.nrPages → p ∈ S.out) ∧
      ∀ p, p ∈ S.out → ∃ h, addFreePage cfg 0 p S.heap = .ok h := by
  constructor
  · intro S stack lockstep
    obtain ⟨P, Q, cell, ok, order⟩ := lockstep.stack_eq
    have top := (ok.get_stack order).1
    refine ⟨top, ?_, fun id mem => ?_⟩
    · rw [top, List.head?_eq_none_iff, ← order, ok.stack_nil]
    · obtain ⟨σ, _, _, _, _, put, _⟩ := ok.put_stack lockstep.run order mem
      exact ⟨σ, put⟩
  · intro S stack lockstep
    obtain ⟨P, tracked, order⟩ := lockstep.stack_eq
    refine ⟨?_, ?_, fun p mem => ?_⟩
    · obtain ⟨h, _, _, run, _⟩ := tracked.get_stack order
      exact ⟨h, run⟩
    · rw [List.head?_eq_none_iff, ← order, tracked.stack_nil]
    · obtain ⟨h, run, _⟩ := PageExchange.tracked_add tracked Nat.one_pos mem
      exact ⟨h, run⟩

/-- Both pools after two calls that take something and one that returns the first of it. -/
theorem pools_lifo_returned : ∃ (S : Exchange) (R : PageExchange Unit),
    (getFreeAa shortageConfig 0 S.pool).1 = some 1 ∧
      ∃ h, getFreePage pairConfig 0 R.heap = .ok (some 4, h) :=
  have ids : Exchange.Lockstep shortageConfig _ [1] :=
    .put (.get (.get .init rfl) rfl) (by decide +kernel) rfl
  have pages : PageExchange.Lockstep pairConfig () _ [4, 2, 1] :=
    .add (p := 4) (.get (.get .init rfl) rfl) (by decide +kernel) rfl
  ⟨_, _, ((pools_lifo shortageConfig pairConfig ()).1 _ _ ids).1,
    ((pools_lifo shortageConfig pairConfig ()).2 _ _ pages).1⟩

end CompactFit
