import CompactFit.PageAccounting

/-!
The same requests of an application with and without compaction. Both modes find what was
written through `cf_dereference`, but only the offset 0 lies at the same place of the block:
without compaction the offset counts words, with compaction it counts bytes.
-/

namespace CompactFit
open Function ByteMemory AddressPool LawfulAddressPool

/-- The requests; objects have the numbers of their requests. -/
inductive Request where
  | malloc (t size : Nat)
  | free (t i : Nat)
  | write (i j : Nat) (x : UInt8)

/-- An object of both runs: its references, its size and the bytes written to it. -/
structure Twin where
  still : Nat
  moving : Nat
  size : Nat
  written : Nat → Option UInt8

/-- A run without compaction and one with, and the live objects. -/
structure Modes (π : Type) where
  still : System π
  moving : System π
  objects : Nat → Option Twin
  count : Nat

section
variable {π : Type} [AddressPool π]

def System.reference (cfg : Config) (S : System π) (t size : Nat) : Option Nat :=
  match cfMalloc cfg t size S.heap with
  | .ok (a, _) => a
  | .error _ => none

def System.read (cfg : Config) (S : System π) (a j : Nat) : Option UInt8 :=
  match cfDereference cfg a j S.heap with
  | .ok b => some (S.heap.memory b)
  | .error _ => none

namespace Modes

def init (cfg0 cfg1 : Config) (σ0 σ1 : π) : Modes π :=
  { still := .init cfg0 σ0, moving := .init cfg1 σ1, objects := fun _ => none, count := 0 }

/-- One request in both runs; `none` when a request for memory is refused. -/
def perform (cfg0 cfg1 : Config) (M : Modes π) : Request → Option (Modes π)
  | .malloc t size => do
      let a ← M.still.reference cfg0 t size
      let b ← M.moving.reference cfg1 t size
      let S ← (performWhole cfg0 M.still (.malloc t size)).toOption
      let S' ← (performWhole cfg1 M.moving (.malloc t size)).toOption
      return {
        still := S
        moving := S'
        objects := update M.objects M.count
          (some { still := a, moving := b, size := size, written := fun _ => none })
        count := M.count + 1 }
  | .free t i => do
      let o ← M.objects i
      let S ← (performWhole cfg0 M.still (.free t o.still)).toOption
      let S' ← (performWhole cfg1 M.moving (.free t o.moving)).toOption
      return { M with still := S, moving := S', objects := update M.objects i none }
  | .write i j x => do
      let o ← M.objects i
      let S ← (performWhole cfg0 M.still (.write o.still j x)).toOption
      let S' ← (performWhole cfg1 M.moving (.write o.moving j x)).toOption
      return {
        still := S
        moving := S'
        objects := update M.objects i (some { o with written := update o.written j (some x) })
        count := M.count }

/-- Sizes are covered, and without compaction a write does not leave its object. -/
def Enabled (cfg0 cfg1 : Config) (T : Nat) (M : Modes π) : Request → Prop
  | .malloc t size => t < T ∧ Covered cfg0 size ∧ Covered cfg1 size
  | .free t _ => t < T
  | .write i j _ => ∀ o, M.objects i = some o → j < o.size ∧ InsideBlock cfg0 M.still o.still j

inductive Run (cfg0 cfg1 : Config) (T : Nat) (σ0 σ1 : π) : Modes π → Prop where
  | init : Run cfg0 cfg1 T σ0 σ1 (Modes.init cfg0 cfg1 σ0 σ1)
  | step {M M' : Modes π} (r : Request) : Run cfg0 cfg1 T σ0 σ1 M → M.Enabled cfg0 cfg1 T r →
      M.perform cfg0 cfg1 r = some M' → Run cfg0 cfg1 T σ0 σ1 M'

/-- Both modes find what was written at offset `j`. -/
def ReadsBack (cfg0 cfg1 : Config) (M : Modes π) (o : Twin) (j : Nat) : Prop :=
  ∀ x, o.written j = some x →
    M.still.read cfg0 o.still j = some x ∧ M.moving.read cfg1 o.moving j = some x

/-- At offset `j` both modes reach the same byte of the object's block, do not leave the block,
and find what was written. -/
structure Agrees (cfg0 cfg1 : Config) (M : Modes π) (o : Twin) (j : Nat) : Prop where
  offset : ∃ d,
    cfDereference cfg0 o.still j M.still.heap =
      .ok (M.still.heap.pageBlock cfg0 o.still + d) ∧
    cfDereference cfg1 o.moving j M.moving.heap =
      .ok (M.moving.heap.pageBlock cfg1 o.moving + d) ∧
    d < blockSize (M.still.heap.pages (pageOfBlock (M.still.heap.pageBlock cfg0 o.still))).sc ∧
    d < blockSize (M.moving.heap.pages (pageOfBlock (M.moving.heap.pageBlock cfg1 o.moving))).sc
  value : M.ReadsBack cfg0 cfg1 o j

end Modes

/-! ### One request in each mode -/

section Still
variable {cfg : Config} {S S' : System π} {t : Nat}

/-- The byte of an object that a write changes is that of no other object and no other offset. -/
theorem NonMoving.distinct (still : NonMoving cfg S) {a b j k : Nat} {o o' : Obj}
    (ha : S.live a = some o) (hb : S.live b = some o')
    (insideA : 4 * j < View.userBytes cfg (blockSize o.sc))
    (insideB : 4 * k < View.userBytes cfg (blockSize o'.sc)) (eq : a + 4 * j = b + 4 * k) :
    a = b ∧ j = k := by
  obtain ⟨B, used, rfl, sc⟩ := still.housed.block a o ha
  obtain ⟨C, used', rfl, sc'⟩ := still.housed.block b o' hb
  have placed := still.heap.placed used
  have placed' := still.heap.placed used'
  have bound : ∀ n, View.userBytes cfg n ≤ n := fun n => by
    simp only [View.userBytes]
    split <;> omega
  have size : (S.heap.view cfg).size B = blockSize o.sc := congrArg blockSize sc
  have size' : (S.heap.view cfg).size C = blockSize o'.sc := congrArg blockSize sc'
  have le := bound (blockSize o.sc)
  have le' := bound (blockSize o'.sc)
  by_cases same : B = C
  · subst same
    exact ⟨rfl, by omega⟩
  · have apart := placed.disjoint placed' same
    omega

/-- The bytes of an object that stays live are those of its block before. -/
theorem NonMoving.kept (still : NonMoving cfg S') {a j : Nat} {o : Obj}
    (ha : S'.live a = some o) (inside : 4 * j < View.userBytes cfg (blockSize o.sc))
    (kept : KeepsBytes S.heap S'.heap) :
    S'.heap.memory (a + 4 * j) = S.heap.memory (a + 4 * j) := by
  obtain ⟨B, used, rfl, sc⟩ := still.housed.block a o ha
  have placed := still.heap.placed used
  have size : (S'.heap.view cfg).size B = blockSize o.sc := congrArg blockSize sc
  have bound : View.userBytes cfg (blockSize o.sc) ≤ blockSize o.sc := by
    simp only [View.userBytes]
    split <;> omega
  refine kept _ ?_
  have page : ((S'.heap.view cfg).start B + 4 * j) / pageSize = B.page :=
    placed.pageOfBlock (by omega) (by omega)
  rw [page]
  exact still.heap.notFree (View.used_inUse used)

end Still

section Moving
variable [LawfulAddressPool π] {cfg : Config} {T t : Nat} {S S' : System π}

theorem Resting.reference (rest : Resting cfg T S) (config : cfg.Compacting) (ht : t < T)
    {size b : Nat} (ref : S.reference cfg t size = some b)
    (run : performWhole cfg S (.malloc t size) = .ok S') :
    Resting cfg T S' ∧ S.live b = none ∧ ∃ o, S'.live = update S.live b (some o) ∧
      o.size = size := by
  have outcome := cfMalloc_spec rest.good ht config size
  simp only [performWhole, perform, System.malloc] at run
  rw [System.reference] at ref
  generalize hr : cfMalloc cfg t size S.heap = r at outcome ref run
  cases outcome with
  | noClass => cases ref
  | noPage => cases ref
  | noAddress => cases ref
  | @named index p i a h2 h' taken nonempty made =>
      cases ref
      cases run
      refine ⟨⟨made.good, rest.calls⟩, ?_, _, rfl, rfl⟩
      by_contra alive
      exact made.fresh (.inl alive)

theorem Resting.freed (rest : Resting cfg T S) (config : cfg.Compacting) (ht : t < T) {b : Nat}
    (alive : S.live b ≠ none) (run : performWhole cfg S (.free t b) = .ok S') :
    Resting cfg T S' ∧ S'.live = update S.live b none := by
  constructor
  · rcases performWhole_spec rest config (.free t b) ⟨ht, rest.calls t, alive⟩ trivial with
      ⟨S'', run', rest', _⟩ | ⟨run', _⟩ | ⟨run', _⟩
    · rw [run] at run'
      cases run'
      exact rest'
    · rw [run] at run'
      cases run'
    · rw [run] at run'
      cases run'
  · obtain ⟨S1, freed, run⟩ := bind_eq_ok run
    rw [live_runToEnd _ run]
    obtain ⟨⟨call, h⟩, _, eq⟩ := bind_eq_ok freed
    cases eq
    rfl

theorem Resting.wrote (rest : Resting cfg T S) (config : cfg.Compacting) {b j : Nat} {x : UInt8}
    {o : Obj} (hlive : S.live b = some o) (user : j < View.userBytes cfg (blockSize o.sc))
    (run : performWhole cfg S (.write b j x) = .ok S') :
    Resting cfg T S' ∧
      S'.live = update S.live b (some { o with bytes := update o.bytes j x }) := by
  have still : ∀ t call, S.calls t = some call → call.comp.srcAa ≠ b := by
    intro t call hc
    rw [rest.calls t] at hc
    cases hc
  obtain ⟨S'', run', step⟩ := write_stepped (T := T) (x := x) rest.good rest.answers config still
    hlive user
  replace run : S.write cfg b j x = .ok S' := run
  rw [run] at run'
  cases run'
  refine ⟨⟨step.good, fun t => answers_none (step.answers t)⟩, ?_⟩
  simp only [System.write, hlive] at run
  obtain ⟨byte, _, eq⟩ := bind_eq_ok run
  cases eq
  rfl

end Moving

/-! ### The simulation -/

/-- The object is live in both runs, and what was written to it is where each mode looks. -/
structure Twin.Intact (cfg0 : Config) (S M : System π) (o : Twin) : Prop where
  still : ∃ s, S.live o.still = some s ∧ ∀ j x, o.written j = some x →
    4 * j < View.userBytes cfg0 (blockSize s.sc) ∧ S.heap.memory (o.still + 4 * j) = x
  moving : ∃ m, M.live o.moving = some m ∧ m.size = o.size ∧ ∀ j x, o.written j = some x →
    j < o.size ∧ m.bytes j = x

def Apart (ref : Twin → Nat) (objects : Nat → Option Twin) : Prop :=
  ∀ i i' o o', objects i = some o → objects i' = some o' → ref o = ref o' → i = i'

section Simulation
variable [LawfulAddressPool π] {cfg0 cfg1 : Config} {T : Nat} {M M' : Modes π}

structure Modes.Coupled (cfg0 cfg1 : Config) (T : Nat) (M : Modes π) : Prop where
  still : NonMoving cfg0 M.still
  moving : Resting cfg1 T M.moving
  sized : ∀ b o, M.moving.live b = some o → Sized cfg1 o
  intact : ∀ i o, M.objects i = some o → o.Intact cfg0 M.still M.moving
  still_inj : Apart Twin.still M.objects
  moving_inj : Apart Twin.moving M.objects

omit [AddressPool π] [LawfulAddressPool π] in
theorem toOption_eq_some {α : Type} {e : Except Fault α} {x : α} (h : e.toOption = some x) :
    e = .ok x := by
  cases e with
  | ok y =>
      cases h
      rfl
  | error => cases h

omit [AddressPool π] [LawfulAddressPool π] in
theorem objects_of_update {objects : Nat → Option Twin} {n i : Nat} {x : Option Twin} {o : Twin}
    (h : update objects n x i = some o) : i = n ∧ x = some o ∨ i ≠ n ∧ objects i = some o := by
  by_cases eq : i = n
  · subst eq
    rw [update_self] at h
    exact .inl ⟨rfl, h⟩
  · rw [update_of_ne eq] at h
    exact .inr ⟨eq, h⟩

omit [AddressPool π] [LawfulAddressPool π] in
theorem written_of_update {written : Nat → Option UInt8} {j k : Nat} {x y : UInt8}
    (h : update written j (some x) k = some y) : k = j ∧ x = y ∨ k ≠ j ∧ written k = some y := by
  by_cases eq : k = j
  · subst eq
    rw [update_self] at h
    exact .inl ⟨rfl, Option.some.inj h⟩
  · rw [update_of_ne eq] at h
    exact .inr ⟨eq, h⟩

omit [AddressPool π] [LawfulAddressPool π] in
theorem Apart.insert {ref : Twin → Nat} {objects : Nat → Option Twin} (apart : Apart ref objects)
    {n : Nat} {new : Twin} (fresh : ∀ i o, i ≠ n → objects i = some o → ref o ≠ ref new) :
    Apart ref (update objects n (some new)) := by
  intro i i' o o' ho ho' eq
  rcases objects_of_update ho with ⟨rfl, mine⟩ | ⟨ne, old⟩ <;>
    rcases objects_of_update ho' with ⟨rfl, mine'⟩ | ⟨ne', old'⟩
  · rfl
  · cases mine
    exact absurd eq.symm (fresh i' o' ne' old')
  · cases mine'
    exact absurd eq (fresh i o ne old)
  · exact apart i i' o o' old old' eq

omit [AddressPool π] [LawfulAddressPool π] in
theorem Apart.erase {ref : Twin → Nat} {objects : Nat → Option Twin} (apart : Apart ref objects)
    (n : Nat) : Apart ref (update objects n none) := by
  intro i i' o o' ho ho' eq
  rcases objects_of_update ho with ⟨_, none⟩ | ⟨_, old⟩
  · cases none
  rcases objects_of_update ho' with ⟨_, none⟩ | ⟨_, old'⟩
  · cases none
  exact apart i i' o o' old old' eq

theorem Modes.Coupled.malloc (coupled : M.Coupled cfg0 cfg1 T)
    (off : cfg0.partialCompactionBound = -1) (config : cfg1.Compacting) {t size : Nat}
    (enabled : M.Enabled cfg0 cfg1 T (.malloc t size))
    (run : M.perform cfg0 cfg1 (.malloc t size) = some M') : M'.Coupled cfg0 cfg1 T := by
  obtain ⟨ht, covered, covered'⟩ := enabled
  obtain ⟨a, refA, run⟩ := Option.bind_eq_some_iff.mp run
  obtain ⟨b, refB, run⟩ := Option.bind_eq_some_iff.mp run
  obtain ⟨S, runS, run⟩ := Option.bind_eq_some_iff.mp run
  obtain ⟨S', runS', run⟩ := Option.bind_eq_some_iff.mp run
  cases run
  replace runS : M.still.malloc cfg0 t size = .ok S := toOption_eq_some runS
  replace runS' := toOption_eq_some runS'
  -- without compaction the block is new, and no byte has changed
  rcases coupled.still.malloc (t := t) off covered.class.2 with
    ⟨null, _⟩ | ⟨a', o, S1, called, run1, still, fresh, live, _, sc, memory⟩
  · rw [System.reference, null] at refA
    cases refA
  rw [runS] at run1
  cases run1
  rw [System.reference, called] at refA
  cases refA
  obtain ⟨moving, fresh', o', live', size'⟩ := coupled.moving.reference config ht refB runS'
  have served : Served cfg1 M.moving (.malloc t size) := by
    refine ⟨covered', fun null => ?_⟩
    rw [System.reference] at refB
    generalize cfMalloc cfg1 t size M.moving.heap = r at null refB
    match r, null with
    | .ok (none, _), _ => cases refB
  have others : ∀ {c}, M.still.live c ≠ none → S.live c = M.still.live c := by
    intro c alive
    rw [live, update_of_ne]
    rintro rfl
    exact alive fresh
  have others' : ∀ {c}, M.moving.live c ≠ none → S'.live c = M.moving.live c := by
    intro c alive
    rw [live', update_of_ne]
    rintro rfl
    exact alive fresh'
  refine ⟨still, moving, performWhole_sized _ served runS' coupled.sized, ?_, ?_, ?_⟩
  · intro i w hw
    rcases objects_of_update hw with ⟨_, new⟩ | ⟨_, old⟩
    · cases new
      refine ⟨⟨o, by rw [live, update_self], fun _ _ none => (by cases none)⟩,
        ⟨o', by rw [live', update_self], size', fun _ _ none => (by cases none)⟩⟩
    · obtain ⟨⟨s, hs, found⟩, ⟨m, hm, rest⟩⟩ := coupled.intact i w old
      refine ⟨⟨s, (others (by rw [hs]; exact Option.some_ne_none _)).trans hs, ?_⟩,
        ⟨m, (others' (by rw [hm]; exact Option.some_ne_none _)).trans hm, rest⟩⟩
      intro j x hx
      rw [memory]
      exact found j x hx
  · refine coupled.still_inj.insert fun i w _ hw eq => ?_
    obtain ⟨⟨s, hs, _⟩, _⟩ := coupled.intact i w hw
    rw [eq, fresh] at hs
    cases hs
  · refine coupled.moving_inj.insert fun i w _ hw eq => ?_
    obtain ⟨_, ⟨m, hm, _⟩⟩ := coupled.intact i w hw
    rw [eq, fresh'] at hm
    cases hm

theorem Modes.Coupled.free (coupled : M.Coupled cfg0 cfg1 T)
    (off : cfg0.partialCompactionBound = -1) (config : cfg1.Compacting) {t i : Nat}
    (ht : t < T) (run : M.perform cfg0 cfg1 (.free t i) = some M') :
    M'.Coupled cfg0 cfg1 T := by
  obtain ⟨o, ho, run⟩ := Option.bind_eq_some_iff.mp run
  obtain ⟨S, runS, run⟩ := Option.bind_eq_some_iff.mp run
  obtain ⟨S', runS', run⟩ := Option.bind_eq_some_iff.mp run
  cases run
  replace runS := toOption_eq_some runS
  replace runS' := toOption_eq_some runS'
  obtain ⟨⟨s, hs, _⟩, ⟨m, hm, _⟩⟩ := coupled.intact i o ho
  obtain ⟨S1, run1, still, live, kept⟩ := coupled.still.free (t := t) off
    (a := o.still) (by rw [hs]; exact Option.some_ne_none _)
  have same : S = S1 := by
    simp only [performWhole, run1, ok_bind, System.remaining, still.calls t] at runS
    cases runS
    rfl
  subst same
  obtain ⟨moving, live'⟩ := coupled.moving.freed config ht
    (by rw [hm]; exact Option.some_ne_none _) runS'
  refine ⟨still, moving, performWhole_sized (.free t o.moving) trivial runS' coupled.sized,
    fun i' w hw => ?_, coupled.still_inj.erase i, coupled.moving_inj.erase i⟩
  rcases objects_of_update hw with ⟨_, new⟩ | ⟨ne, old⟩
  · cases new
  · obtain ⟨⟨s', hs', found⟩, ⟨m', hm', rest⟩⟩ := coupled.intact i' w old
    have neS : w.still ≠ o.still := fun eq => ne (coupled.still_inj _ _ _ _ old ho eq)
    have neM : w.moving ≠ o.moving := fun eq => ne (coupled.moving_inj _ _ _ _ old ho eq)
    have alive : S.live w.still = some s' := by rw [live, update_of_ne neS, hs']
    refine ⟨⟨s', alive, fun j x hx => ⟨(found j x hx).1, ?_⟩⟩,
      ⟨m', by rw [live', update_of_ne neM, hm'], rest⟩⟩
    rw [still.kept alive (found j x hx).1 kept]
    exact (found j x hx).2

theorem Modes.Coupled.write (coupled : M.Coupled cfg0 cfg1 T)
    (off : cfg0.partialCompactionBound = -1) (config : cfg1.Compacting)
    (reserves : ReservesAll cfg1.incrementalMemcpy) {i j : Nat} {x : UInt8}
      (enabled : M.Enabled cfg0 cfg1 T (.write i j x))
    (run : M.perform cfg0 cfg1 (.write i j x) = some M') : M'.Coupled cfg0 cfg1 T := by
  obtain ⟨o, ho, run⟩ := Option.bind_eq_some_iff.mp run
  obtain ⟨S, runS, run⟩ := Option.bind_eq_some_iff.mp run
  obtain ⟨S', runS', run⟩ := Option.bind_eq_some_iff.mp run
  cases run
  replace runS : M.still.write cfg0 o.still j x = .ok S := toOption_eq_some runS
  replace runS' := toOption_eq_some runS'
  obtain ⟨hj, inside⟩ := enabled o ho
  obtain ⟨⟨s, hs, found⟩, ⟨m, hm, size, rest⟩⟩ := coupled.intact i o ho
  obtain ⟨S1, run1, still, live, heap⟩ := coupled.still.write (x := x) off hs (inside s hs)
  rw [runS] at run1
  cases run1
  obtain ⟨moving, live'⟩ := coupled.moving.wrote config hm
    (Nat.lt_of_lt_of_le (size ▸ hj) ((coupled.sized _ m hm).room reserves)) runS'
  have memory : ∀ y, S.heap.memory y =
      if y = o.still + 4 * j then x else M.still.heap.memory y := by
    intro y
    rw [heap]
    rfl
  refine ⟨still, moving, performWhole_sized (.write o.moving j x) trivial runS' coupled.sized,
    ?_, ?_, ?_⟩
  · intro i' w hw
    rcases objects_of_update hw with ⟨_, new⟩ | ⟨ne, old⟩
    · cases new
      refine ⟨⟨{ s with bytes := update s.bytes j x }, by rw [live, update_self], fun k y hy => ?_⟩,
        ⟨{ m with bytes := update m.bytes j x }, by rw [live', update_self], size,
          fun k y hy => ?_⟩⟩
      · rcases written_of_update hy with ⟨rfl, rfl⟩ | ⟨ne, old⟩
        · exact ⟨inside s hs, by rw [memory, if_pos rfl]⟩
        · refine ⟨(found k y old).1, ?_⟩
          rw [memory, if_neg (by simp only; omega)]
          exact (found k y old).2
      · rcases written_of_update hy with ⟨rfl, rfl⟩ | ⟨ne, old⟩
        · exact ⟨hj, update_self ..⟩
        · exact ⟨(rest k y old).1, (update_of_ne ne ..).trans (rest k y old).2⟩
    · obtain ⟨⟨s', hs', found'⟩, ⟨m', hm', rest'⟩⟩ := coupled.intact i' w old
      have neS : w.still ≠ o.still := fun eq => ne (coupled.still_inj _ _ _ _ old ho eq)
      have neM : w.moving ≠ o.moving := fun eq => ne (coupled.moving_inj _ _ _ _ old ho eq)
      refine ⟨⟨s', by rw [live, update_of_ne neS, hs'], fun k y hy => ⟨(found' k y hy).1, ?_⟩⟩,
        ⟨m', by rw [live', update_of_ne neM, hm'], rest'⟩⟩
      rw [memory, if_neg]
      · exact (found' k y hy).2
      · intro eq
        exact neS (coupled.still.distinct hs' hs (found' k y hy).1 (inside s hs) eq).1
  · exact coupled.still_inj.insert fun i' w ne hw eq => ne (coupled.still_inj _ _ _ _ hw ho eq)
  · exact coupled.moving_inj.insert fun i' w ne hw eq => ne (coupled.moving_inj _ _ _ _ hw ho eq)

theorem Modes.Run.coupled {σ0 σ1 : π} (run : M.Run cfg0 cfg1 T σ0 σ1)
    (off : cfg0.partialCompactionBound = -1) (config : cfg1.Compacting)
    (reserves : ReservesAll cfg1.incrementalMemcpy)
    (valid : Valid cfg1.toAddressConfig T (fun _ => False) σ1) : M.Coupled cfg0 cfg1 T := by
  induction run with
  | init =>
      refine ⟨nonMoving_init cfg0 σ0, ⟨good_init cfg1 T valid, fun _ => rfl⟩, ?_, ?_, ?_, ?_⟩
      · intro b o hlive
        cases hlive
      · intro i o ho
        cases ho
      · intro i i' o o' ho
        cases ho
      · intro i i' o o' ho
        cases ho
  | step r _ enabled run ih =>
      cases r with
      | malloc t size => exact ih.malloc off config enabled run
      | free t i => exact ih.free off config enabled run
      | write i j x => exact ih.write off config reserves enabled run

/-- The modes agree about an access exactly at offset 0, but read back every byte written. -/
theorem Modes.Coupled.agrees_iff (coupled : M.Coupled cfg0 cfg1 T)
    (off : cfg0.partialCompactionBound = -1) (config : cfg1.Compacting)
    (reserves : ReservesAll cfg1.incrementalMemcpy) {i j : Nat} {o : Twin}
      (ho : M.objects i = some o) :
    (M.Agrees cfg0 cfg1 o j ↔ j = 0) ∧ M.ReadsBack cfg0 cfg1 o j := by
  obtain ⟨⟨s, hs, found⟩, ⟨m, hm, size, found'⟩⟩ := coupled.intact i o ho
  have moves : ¬ cfg1.partialCompactionBound = -1 := by
    have := config.bound
    omega
  have block : M.still.heap.pageBlock cfg0 o.still = o.still := if_neg (not_not.mpr off)
  have block' : M.moving.heap.pageBlock cfg1 o.moving = M.moving.heap.aaWord cfg1 o.moving :=
    if_pos moves
  have isAa := coupled.moving.good.isAa o.moving (.inl (by rw [hm]; exact Option.some_ne_none _))
  have deref : cfDereference cfg0 o.still j M.still.heap = .ok (o.still + 4 * j) := by
    rw [cfDereference, if_pos off]
  have deref' : cfDereference cfg1 o.moving j M.moving.heap =
      .ok (M.moving.heap.aaWord cfg1 o.moving + j) := by
    rw [cfDereference, if_neg moves, M.moving.heap.loadAa_ok isAa]
    simp only [Heap.view, isAa, if_true, ok_bind]
    rfl
  have value : M.ReadsBack cfg0 cfg1 o j := by
    intro x hx
    constructor
    · rw [System.read, deref]
      exact congrArg some (found j x hx).2
    · obtain ⟨inside, bytes⟩ := found' j x hx
      obtain ⟨b, at_, memory⟩ := (coupled.moving.integral config reserves hm
        (coupled.sized _ m hm)).bytes j
        (size ▸ inside)
      rw [System.read, at_]
      exact congrArg some (memory.trans bytes)
  refine ⟨⟨?_, ?_⟩, value⟩
  · rintro ⟨⟨d, at_, at', _⟩, _⟩
    rw [deref, block] at at_
    rw [deref', block'] at at'
    have words := Except.ok.inj at_
    have bytes := Except.ok.inj at'
    omega
  · rintro rfl
    have large : ∀ p, 0 < blockSize (M.still.heap.pages p).sc := fun p =>
      Nat.lt_of_lt_of_le (by decide) (blockSize_min (coupled.still.heap.page p).sc_lt)
    have large' : ∀ p, 0 < blockSize (M.moving.heap.pages p).sc := fun p =>
      Nat.lt_of_lt_of_le (by decide) (blockSize_min (coupled.moving.good.heap.page p).sc_lt)
    exact ⟨⟨0, by rw [deref, block], by rw [deref', block'], large _, large' _⟩, value⟩

end Simulation

/-- In every run whose writes do not leave their objects without compaction, both modes read back
what was written, and they agree about an access exactly when its offset is 0. -/
theorem modes_agree_iff (cfg0 cfg1 : Config) (off : cfg0.partialCompactionBound = -1)
    (bound : 1 ≤ cfg1.partialCompactionBound) (words : cfg1.incrementalMemcpy % 4 = 0) (T : Nat)
    (M : Modes AddressBuckets)
    (run : M.Run cfg0 cfg1 T (AddressBuckets.initFreeAaList cfg0.toAddressConfig)
      (AddressBuckets.initFreeAaList cfg1.toAddressConfig))
    (i : Nat) (o : Twin) (ho : M.objects i = some o) (j : Nat) :
    (M.Agrees cfg0 cfg1 o j ↔ j = 0) ∧ M.ReadsBack cfg0 cfg1 o j :=
  have config : cfg1.Compacting := ⟨bound, wholeCopies_of_multiple words⟩
  have reserves := reservesAll_of_multiple words
  (run.coupled off config reserves (AddressBuckets.valid_init _ T)).agrees_iff off config
    reserves ho

/-! ### Runs on concrete requests -/

instance (cfg : Config) (S : System π) (a j : Nat) : Decidable (InsideBlock cfg S a j) :=
  match h : S.live a with
  | none => isTrue fun o hlive => by cases h.symm.trans hlive
  | some o => decidable_of_iff (4 * j < View.userBytes cfg (blockSize o.sc))
      ⟨fun inside o' hlive => by cases h.symm.trans hlive; exact inside, fun inside => inside o h⟩

instance (cfg0 cfg1 : Config) (T : Nat) (M : Modes π) :
    (r : Request) → Decidable (M.Enabled cfg0 cfg1 T r)
  | .malloc t size => inferInstanceAs (Decidable (t < T ∧ Covered cfg0 size ∧ Covered cfg1 size))
  | .free t _ => inferInstanceAs (Decidable (t < T))
  | .write i j _ =>
      match h : M.objects i with
      | none => isTrue fun o ho => by cases h.symm.trans ho
      | some o => decidable_of_iff (j < o.size ∧ InsideBlock cfg0 M.still o.still j)
          ⟨fun inside o' ho => by cases h.symm.trans ho; exact inside, fun inside => inside o h⟩

def Modes.script (cfg0 cfg1 : Config) (T : Nat) : List Request → Modes π → Option (Modes π)
  | [], M => some M
  | r :: rs, M =>
      if M.Enabled cfg0 cfg1 T r then (M.perform cfg0 cfg1 r).bind (script cfg0 cfg1 T rs) else none

theorem Modes.Run.script {cfg0 cfg1 : Config} {T : Nat} {σ0 σ1 : π} {rs : List Request}
    {M M' : Modes π} (run : M.Run cfg0 cfg1 T σ0 σ1) (h : M.script cfg0 cfg1 T rs = some M') :
    M'.Run cfg0 cfg1 T σ0 σ1 := by
  induction rs generalizing M with
  | nil =>
      cases h
      exact run
  | cons r rs ih =>
      rw [Modes.script] at h
      split at h
      next enabled =>
        obtain ⟨M1, one, rest⟩ := Option.bind_eq_some_iff.mp h
        exact ih (.step r run enabled one) rest
      next => cases h

/-- `smallConfig` with copies in one piece, and the same without compaction. -/
def wholeConfig : Config :=
  { smallConfig with
    incrementalMemcpy := 0
    incrementalMemcpy_int := incrementalMemcpy_off }

def wholeStillConfig : Config :=
  { wholeConfig with
    partialCompactionBound := -1
    partialCompactionBound_int := partialCompactionBound_off }

/-- The two runs of a list of requests. -/
def wholeRun (rs : List Request) : Option (Modes AddressBuckets) :=
  Modes.script wholeStillConfig wholeConfig 1 rs (Modes.init wholeStillConfig wholeConfig
    (AddressBuckets.initFreeAaList wholeStillConfig.toAddressConfig)
    (AddressBuckets.initFreeAaList wholeConfig.toAddressConfig))

/-- Object 0 is moved in one of the runs, and both find what was written to its first byte. -/
theorem modes_agree_moved : ∃ (M : Modes AddressBuckets) (o : Twin), M.objects 0 = some o ∧
    o.written 0 = some 7 ∧
    pageOfBlock (M.still.heap.pageBlock wholeStillConfig o.still) = 8 ∧
    pageOfBlock (M.moving.heap.pageBlock wholeConfig o.moving) = 7 ∧
    M.Agrees wholeStillConfig wholeConfig o 0 := by
  have found : (wholeRun [.malloc 0 7000, .malloc 0 7000, .malloc 0 7000, .malloc 0 7000,
      .write 0 0 7, .free 0 1, .free 0 2]).any (fun M => (M.objects 0).any fun o =>
        o.written 0 = some 7 &&
        pageOfBlock (M.still.heap.pageBlock wholeStillConfig o.still) = 8 &&
        pageOfBlock (M.moving.heap.pageBlock wholeConfig o.moving) = 7) = true := by
    decide +kernel
  obtain ⟨M, run, found⟩ := (Option.any_eq_true _ _).mp found
  obtain ⟨o, ho, found⟩ := (Option.any_eq_true _ _).mp found
  simp only [Bool.and_eq_true, decide_eq_true_eq] at found
  exact ⟨M, o, ho, found.1.1, found.1.2, found.2,
    (modes_agree_iff wholeStillConfig wholeConfig rfl (by decide) (by decide) 1 M
      (Modes.Run.init.script run) 0 o ho 0).1.mpr rfl⟩

/-- The offset 1 of a new object lies at different places of its block. -/
theorem modes_disagree : ¬ ∀ M : Modes AddressBuckets,
    M.Run wholeStillConfig wholeConfig 1
      (AddressBuckets.initFreeAaList wholeStillConfig.toAddressConfig)
      (AddressBuckets.initFreeAaList wholeConfig.toAddressConfig) →
    ∀ i o, M.objects i = some o → ∀ j, j < o.size →
      M.Agrees wholeStillConfig wholeConfig o j := by
  intro all
  have found : (wholeRun [.malloc 0 100]).any (fun M => (M.objects 0).any fun o =>
      1 < o.size && cfDereference wholeStillConfig o.still 1 M.still.heap =
        .ok (M.still.heap.pageBlock wholeStillConfig o.still + 4) &&
      cfDereference wholeConfig o.moving 1 M.moving.heap =
        .ok (M.moving.heap.pageBlock wholeConfig o.moving + 1)) = true := by
    decide +kernel
  obtain ⟨M, run, found⟩ := (Option.any_eq_true _ _).mp found
  obtain ⟨o, ho, found⟩ := (Option.any_eq_true _ _).mp found
  simp only [Bool.and_eq_true, decide_eq_true_eq] at found
  obtain ⟨d, at_, at', _⟩ := (all M (Modes.Run.init.script run) 0 o ho 1 found.1.1).offset
  have words := Except.ok.inj (at_.symm.trans found.1.2)
  have bytes := Except.ok.inj (at'.symm.trans found.2)
  omega

end
end CompactFit
