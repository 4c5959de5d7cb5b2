import CompactFit.LockPageFree
import CompactFit.LockPageMalloc
import CompactFit.Safety

/-!
All runs of the build with page locks, for any number of threads. No thread waits for ever, no
assertion fails, a bitmap changes under the lock of its page only, live objects have blocks of
their own, and an object that is not being copied is complete in its block.
-/

namespace CompactFit
namespace LockPage
open Function ByteMemory AddressPool LawfulAddressPool Relation

section
variable {π : Type} [AddressPool π] [LawfulAddressPool π]

/-- The configurations of this build: `cf_init` sets `incremental_memcpy` to 0. -/
structure Build (cfg : Config) : Prop where
  bound : 1 ≤ cfg.partialCompactionBound
  whole : cfg.incrementalMemcpy = 0

theorem Build.moving {cfg : Config} (build : Build cfg) : compactionOn cfg := by
  have bound := build.bound
  intro off
  rw [off] at bound
  exact absurd bound (by decide)

/-! ### Every step keeps the invariant -/

section Steps
variable {cfg : Config} {T t a : Nat} {S S' : System π} {m : Mutex}

omit [AddressPool π] [LawfulAddressPool π] in
theorem copied_iff : S.Copied a ↔ Copied S.places a := by
  constructor
  · rintro ⟨t, f, m, here | here, eq⟩
    · exact ⟨t, f, m, by rw [here]; rfl, eq⟩
    · exact ⟨t, f, m, by rw [here]; rfl, eq⟩
  · rintro ⟨t, f, m, copying, eq⟩
    refine ⟨t, f, m, ?_, eq⟩
    cases hP : S.places t <;> rw [hP] at copying <;>
      simp only [Place.copying, reduceCtorEq, Option.some.injEq, Prod.mk.injEq] at copying <;>
      obtain ⟨rfl, rfl⟩ := copying <;> simp

namespace Invariant

theorem write_byte (inv : Invariant cfg T S) (moving : compactionOn cfg) {j : Nat} {x : UInt8}
    {o : Obj} (now : S.live a = some o) (still : ¬ Copied S.places a)
    (user : j < View.userBytes cfg (blockSize o.sc)) :
    ∃ byte, cfDereference cfg a j S.heap = .ok byte ∧ Invariant cfg T { S with
      heap := { S.heap with memory := writeByte S.heap.memory byte x }
      live := update S.live a (some { o with bytes := update o.bytes j x }) } := by
  have isAa := inv.isAa a (.inl (by rw [now]; simp))
  have kept : Kept S.live S.places a := .inl (by rw [now]; simp)
  obtain ⟨B, used, has⟩ := inv.owners.has (.address a) kept
  obtain ⟨sc, _⟩ := (inv.owners.complete a B kept still has).object o now
  have size : (S.heap.view cfg).size B = blockSize o.sc := congrArg blockSize sc
  have inside : j < (S.heap.view cfg).size B := by
    have bound : View.userBytes cfg (blockSize o.sc) ≤ blockSize o.sc := by
      simp only [View.userBytes]
      split <;> omega
    omega
  have page : pageOfBlock ((S.heap.view cfg).start B + j) = B.page :=
    has.placed.pageOfBlock (by omega) (by omega)
  refine ⟨(S.heap.view cfg).start B + j, ?_, ?_⟩
  · rw [cfDereference, if_neg moving, S.heap.loadAa_ok isAa, ok_bind]
    exact congrArg (fun w => Except.ok (w + j)) has.names
  have headers : HeadersOk cfg T
      { S.heap with memory := writeByte S.heap.memory ((S.heap.view cfg).start B + j) x }
      S.places := by
    refine inv.headers.congr (sameHeaders_memory S.heap fun y free => if_neg ?_)
    rintro rfl
    rw [show _ / pageSize = B.page from page] at free
    exact (inv.headers.used_listed used).1 free
  have out : ∀ b, Out (update S.live a (some { o with bytes := update o.bytes j x })) S.places b ↔
      Out S.live S.places b := by
    intro b
    by_cases eq : b = a
    · subst eq
      exact iff_of_true (.inl (by rw [update_self]; simp)) (.inl (by rw [now]; simp))
    · simp only [Out, update_of_ne eq]
  refine ⟨headers, inv.owner, ?_, fun t => (inv.relies t).congr (fun b c C _ hasC => ?_)
    fun _ _ _ => id, fun t b hb => ?_, inv.single, valid_congr inv.valid fun id => out _,
    fun b hb => inv.isAa b ((out b).mp hb)⟩
  · exact inv.owners.write now still has (by rw [size]; exact user)
      (fun u f m copying => inv.source_pinned copying) rfl rfl rfl rfl rfl
  · exact ⟨hasC.of_address rfl rfl, rfl⟩
  · have ne : b ≠ a := by
      rintro rfl
      rw [inv.dead t b hb] at now
      cases now
    simp only [update_of_ne ne]
    exact inv.dead t b hb

theorem unlock (inv : Invariant cfg T S) (moving : compactionOn cfg)
    (releases : (S.places t).releases = some m) : Invariant cfg T { S with
      owner := update S.owner m none
      places := update S.places t (S.places t).next
      live := S.returned cfg (S.places t) } := by
  by_cases returned : ∃ size c a, S.places t = .mallocUnlock size c (some a)
  · obtain ⟨size, c, a, hP⟩ := returned
    have inv' := inv.return_object moving hP
    rw [hP] at releases ⊢
    cases releases
    exact inv'
  · have silent : ∀ size c a, S.places t ≠ .mallocUnlock size c (some a) :=
      fun size c a hP => returned ⟨size, c, a, hP⟩
    have live : S.returned cfg (S.places t) = S.live := by
      cases hP : S.places t <;> try rfl
      case mallocUnlock size c address =>
        cases address with
        | none => rfl
        | some a => exact absurd hP (silent size c a)
    rw [live]
    exact inv.release releases silent

theorem code_spec (inv : Invariant cfg T S) (moving : compactionOn cfg) (busy : S.places t ≠ .idle)
    (acquires : (S.places t).acquires = none) (releases : (S.places t).releases = none)
    (clean : S.Clean cfg (.step t)) :
    Succeeds π cfg T (code cfg t S.heap (S.places t)) (Coded cfg T t S) := by
  cases hP : S.places t <;> rw [hP] at acquires releases <;>
    simp only [Place.acquires, Place.releases, reduceCtorEq] at acquires releases
  case idle => exact absurd hP busy
  case mallocPage size c => exact .inl (inv.code_mallocPage hP)
  case mallocBlock size c p => exact .inl (inv.code_mallocBlock hP)
  case mallocName size c p i => exact .inl (inv.code_mallocName moving hP (clean size c p i hP))
  case freeRead a => exact .inl (inv.code_freeRead hP)
  case freeClass a p => exact .inl (inv.code_freeClass hP)
  case freeCheck a c => exact .inl (inv.code_freeCheck hP)
  case dropBlock f next => exact .inl (inv.code_dropBlock hP)
  case dropMove f next => exact .inl (inv.code_dropMove hP)
  case compactSelect f p => exact .inl (inv.code_compactSelect hP)
  case compactCopy f m => exact .inl (inv.code_compactCopy hP)
  case compactRelease f p => exact .inl (inv.code_compactRelease hP)
  case freeClear a c => exact inv.code_freeClear hP

theorem step_spec (inv : Invariant cfg T S) (moving : compactionOn cfg)
    (enabled : S.Enabled cfg T (.step t)) (clean : S.Clean cfg (.step t)) :
    Succeeds π cfg T (S.step cfg t) fun S' => Invariant cfg T S' ∧
      ∀ p, (S'.heap.pages p).usedPageBlockBitmap ≠ (S.heap.pages p).usedPageBlockBitmap →
        S.owner (.page p) = some t := by
  obtain ⟨busy, running⟩ := enabled
  cases acquires : (S.places t).acquires with
  | some m =>
      have free : S.owner m = none := by
        cases owner : S.owner m with
        | none => rfl
        | some u => exact absurd ⟨m, acquires, owner⟩ (running u)
      rw [System.step, acquires]
      exact .ok ⟨inv.acquire acquires free, fun _ ne => absurd rfl ne⟩
  | none =>
      cases releases : (S.places t).releases with
      | some m =>
          rw [System.step, acquires, releases]
          exact .ok ⟨inv.unlock moving releases, fun _ ne => absurd rfl ne⟩
      | none =>
          rw [System.step, acquires, releases]
          refine (inv.code_spec moving busy acquires releases clean).bind ?_
          rintro ⟨place', h'⟩ ⟨invariant, bitmaps⟩
          exact .ok ⟨invariant, fun p ne => (inv.owner _ t).mpr (bitmaps p ne)⟩

theorem init {addresses : π} (valid : Valid cfg.toAddressConfig T (fun _ => False) addresses) :
    Invariant cfg T (System.init cfg addresses) := by
  obtain ⟨unused, entries, ok⟩ := initHeap_ok cfg addresses
  have notKept : ∀ a, ¬ Kept (fun _ => none) (fun _ => .idle) a := by
    rintro a (alive | ⟨t, ht⟩)
    · exact alive rfl
    · cases ht
  have notOut : ∀ a, ¬ Out (fun _ => none) (fun _ => .idle) a := by
    rintro a (alive | ⟨t, ht⟩)
    · exact alive rfl
    · cases ht
  have inactive : ∀ x : Holder, ¬ x.Active (fun _ => none) (fun _ => .idle) := by
    rintro (a | t)
    · exact notKept a
    · exact fun active => active rfl
  have headers : HeadersOk cfg T (initHeap cfg addresses) fun _ => .idle := by
    refine ⟨⟨ok.lists, ok.pool⟩, ok.range, fun p => .inl (ok.page p), fun _ => trivial,
      fun _ _ _ pin => (by cases pin), fun p => ?_, fun _ busy => absurd rfl busy⟩
    rw [entries, Finset.sum_eq_zero]
    exact fun _ _ => rfl
  have owners : Owners cfg ((initHeap cfg addresses).view cfg) (fun _ => none) fun _ => .idle :=
    ⟨fun x active => absurd active (inactive x), fun x _ _ active => absurd active (inactive x),
      fun B used => absurd used (unused B.page B.index), fun a _ kept => absurd kept (notKept a),
      fun _ _ _ copying => (by cases copying), fun _ _ _ _ _ _ copying => by cases copying⟩
  refine ⟨headers,
    fun m t => iff_of_false (by simp [System.init]) (by simp [System.init, Place.locks]),
    owners, fun _ => .none rfl, fun _ _ address => (by cases address),
    fun _ _ _ address => (by cases address), ?_, fun a out => absurd out (notOut a)⟩
  have pool := (initHeap_spec cfg addresses).2.2.2.2
  rw [show (System.init cfg addresses).heap.addresses = addresses from pool]
  exact valid_congr valid fun id => ⟨fun out => notOut _ out, fun h => h.elim⟩

end Invariant

/-- The outcomes of an action that is enabled. -/
theorem Invariant.performed (inv : Invariant cfg T S) (moving : compactionOn cfg) (act : Action)
    (enabled : S.Enabled cfg T act) (clean : S.Clean cfg act) :
    (∃ S', S.perform cfg act = .ok S' ∧ Invariant cfg T S' ∧
      ∀ p, (S'.heap.pages p).usedPageBlockBitmap ≠ (S.heap.pages p).usedPageBlockBitmap →
        ∃ t, act = .step t ∧ S.owner (.page p) = some t) ∨
    (S.perform cfg act = .error .noSizeClass ∧
      ∃ t size, act = .malloc t size ∧ adjustedSize cfg size = largestSc) ∨
    S.perform cfg act = .error .emptyBucket ∧ ¬ Robust (π := π) cfg.toAddressConfig T := by
  cases act with
  | malloc t size =>
      by_cases hc : requestClass cfg size < sizeClasses
      · refine .inl ⟨{ S with
            places := update S.places t (.mallocLock size (requestClass cfg size)) }, ?_,
          inv.call_malloc enabled.1 enabled.2 hc, fun _ ne => absurd rfl ne⟩
        rw [System.perform, ensure_true hc]
        rfl
      · refine .inr (.inl ⟨?_, t, size, rfl, (requestClass_lt cfg size).resolve_left hc⟩)
        rw [System.perform, ensure, if_neg hc]
        rfl
  | free t a =>
      exact .inl ⟨_, rfl, inv.call_free enabled.1 enabled.2.1 enabled.2.2,
        fun _ ne => absurd rfl ne⟩
  | step t =>
      rcases inv.step_spec moving enabled clean with ⟨S', run, inv', bitmaps⟩ | lacks
      · exact .inl ⟨S', run, inv', fun p ne => ⟨t, rfl, bitmaps p ne⟩⟩
      · exact .inr (.inr lacks)
  | write a j x =>
      obtain ⟨still, o, now, _, user⟩ := enabled
      obtain ⟨byte, run, inv'⟩ :=
        inv.write_byte (x := x) moving now (fun copied => still (copied_iff.mpr copied)) user
      refine .inl ⟨_, ?_, inv', fun _ ne => absurd rfl ne⟩
      simp only [System.perform, now, run, ok_bind]
      rfl

theorem Reachable.invariant {addresses : π} (moving : compactionOn cfg)
    (valid : Valid cfg.toAddressConfig T (fun _ => False) addresses)
    (reachable : Reachable cfg T addresses S) : Invariant cfg T S := by
  induction reachable with
  | init => exact .init valid
  | step act _ enabled clean run ih =>
      rcases ih.performed moving act enabled clean with
        ⟨S', run', inv, _⟩ | ⟨refused, _⟩ | ⟨lacks, _⟩
      · rw [run] at run'
        cases run'
        exact inv
      · rw [run] at refused
        cases refused
      · rw [run] at lacks
        cases lacks

end Steps

/-! ### No deadlock -/

section Waiting
variable {cfg : Config} {T t u q : Nat} {S : System π} {m : Mutex}

theorem Place.locks_of_wantsClass {place : Place} {c : Nat}
    (wants : place.acquires = some (.sizeClass c)) : place.locks = [] := by
  cases place <;> simp only [acquires, reduceCtorEq, Option.some.injEq] at wants <;> rfl

theorem Place.watches_of_wantsPage {place : Place} (wants : place.acquires = some (.page q)) :
    ∃ c, (q, c) ∈ place.watches := by
  cases place <;>
    simp only [acquires, reduceCtorEq, Option.some.injEq, Mutex.page.injEq] at wants <;>
    subst wants <;> simp [watches]

/-- A thread that waits relies on the headers of the pages it has locked. -/
theorem Place.watches_of_held {place : Place} (wants : place.acquires = some m)
    (lock : .page q ∈ place.locks) : ∃ c, (q, c) ∈ place.watches := by
  cases place <;> simp only [acquires, reduceCtorEq] at wants <;>
    simp only [locks, List.mem_cons, List.not_mem_nil, or_false, reduceCtorEq, false_or,
      Mutex.page.injEq] at lock
  subst lock
  simp [watches]

omit [AddressPool π] [LawfulAddressPool π] in
/-- A thread does not wait for a page it has locked. -/
theorem HeaderOk.wants_other {h : Heap π} {place : Place} (header : HeaderOk h place)
    (wants : place.acquires = some m) : m ∉ place.locks := by
  cases place <;> simp only [Place.acquires, reduceCtorEq, Option.some.injEq] at wants <;>
    subst wants <;> simp only [Place.locks, List.mem_cons, List.not_mem_nil, or_false,
      not_false_eq_true, reduceCtorEq, false_or, Mutex.page.injEq]
  rintro rfl
  have flags := header.2.2.flag
  rw [header.2.1] at flags
  simp at flags

/-- Who has the lock of a page that a thread waits for does not wait itself. -/
theorem Invariant.page_owner_runs (inv : Invariant cfg T S)
    (wants : (S.places t).acquires = some (.page q)) (owns : S.owner (.page q) = some u) :
    (S.places u).acquires = none := by
  have lock := (inv.owner _ u).mp owns
  by_contra waits
  obtain ⟨m, hm⟩ := Option.ne_none_iff_exists'.mp waits
  cases m with
  | sizeClass c =>
      rw [Place.locks_of_wantsClass hm] at lock
      cases lock
  | page r =>
      obtain ⟨c, watch⟩ := Place.watches_of_wantsPage wants
      obtain ⟨d, watch'⟩ := Place.watches_of_held hm lock
      have same : c = d := ((inv.headers.header t).watched watch).1.symm.trans
        ((inv.headers.header u).watched watch').1
      subst same
      have eq := inv.exclusive (Place.locks_of_class watch) (Place.locks_of_class watch')
      subst eq
      exact (inv.headers.header t).wants_other wants lock

/-- A thread that waits for a class can be behind one that waits for a page, but not conversely. -/
def waitRank (place : Place) : Nat :=
  match place.acquires with
  | some (.sizeClass _) => 2
  | some (.page _) => 1
  | none => 0

/-- Behind every thread in a call there is one that can take a step. -/
theorem Invariant.someone_runs (inv : Invariant cfg T S) (busy : S.places t ≠ .idle) :
    ∃ u, ReflTransGen S.Waits t u ∧ S.Enabled cfg T (.step u) := by
  have down : ∀ t u, S.Waits t u →
      WaitFor.Blocked (fun t => (S.places t).acquires) S.owner u →
      waitRank (S.places u) < waitRank (S.places t) := by
    rintro t u ⟨m, wants, owns⟩ ⟨v, n, wants', _⟩
    cases m with
    | sizeClass c =>
        have lock := (inv.owner _ u).mp owns
        cases n with
        | sizeClass d =>
            rw [Place.locks_of_wantsClass wants'] at lock
            cases lock
        | page r =>
            simp only [waitRank, wants, wants']
            exact Nat.one_lt_two
    | page r =>
        cases (inv.page_owner_runs wants owns).symm.trans wants'
  obtain ⟨u, path, running⟩ := WaitFor.exists_running _ down t
  refine ⟨u, path, ?_, fun v waits => running ⟨v, waits⟩⟩
  rcases WaitFor.Waits.path_end path with rfl | ⟨m, owns⟩
  · exact busy
  · intro idle
    have lock := (inv.owner m u).mp owns
    rw [idle] at lock
    cases lock

end Waiting

/-! ### Live objects -/

section Objects
variable {cfg : Config} {T a b : Nat} {S : System π} {o : Obj} {B : Block}

theorem Invariant.blockOf_eq (inv : Invariant cfg T S) (alive : S.live a ≠ none)
    (has : Holder.Has (S.heap.view cfg) S.places (.address a) B) : S.heap.blockOf cfg a = B := by
  have isAa := inv.isAa a (.inl alive)
  have word : S.heap.aaWord cfg a = (S.heap.view cfg).start B := by
    rw [← has.names]
    simp only [Heap.view, isAa, if_true]
  have size := has.placed.size_ge
  have page : pageOfBlock ((S.heap.view cfg).start B) = B.page :=
    has.placed.pageOfBlock le_rfl (by omega)
  have index : indexOfBlock B.page ((S.heap.view cfg).start B)
      (blockSize (S.heap.pages B.page).sc) = B.index := has.placed.indexOfBlock le_rfl (by omega)
  rw [Heap.blockOf, word, page, index]

theorem Invariant.blocks_differ (inv : Invariant cfg T S) (ha : S.live a ≠ none)
    (hb : S.live b ≠ none) (ne : a ≠ b) : S.heap.blockOf cfg a ≠ S.heap.blockOf cfg b := by
  obtain ⟨B, _, hasB⟩ := inv.owners.has (.address a) (.inl ha)
  obtain ⟨C, _, hasC⟩ := inv.owners.has (.address b) (.inl hb)
  rw [inv.blockOf_eq ha hasB, inv.blockOf_eq hb hasC]
  rintro rfl
  exact ne (Holder.address.inj (inv.owners.inj _ _ B (.inl ha) (.inl hb) hasB hasC))

theorem Invariant.intact (inv : Invariant cfg T S) (now : S.live a = some o)
    (still : ¬ S.Copied a) : ObjectIntact cfg S.heap a o := by
  have alive : S.live a ≠ none := by rw [now]; simp
  obtain ⟨B, _, has⟩ := inv.owners.has (.address a) (.inl alive)
  have whole := inv.owners.complete a B (.inl alive)
    (fun copied => still (copied_iff.mpr copied)) has
  obtain ⟨sc, stores⟩ := whole.object o now
  have size : (S.heap.view cfg).size B = blockSize o.sc := congrArg blockSize sc
  refine ⟨?_, ?_, ?_, ?_⟩ <;> rw [inv.blockOf_eq alive has]
  · exact sc
  · exact sc ▸ has.placed.index
  · rw [← size]
    exact whole.back
  · intro j hj user
    exact stores j hj (size ▸ user)

end Objects

/-- What an observer sees at any point of a run. An object that no `cf_free` is copying is
complete in the block its address leads to. -/
structure Safe (cfg : Config) (T : Nat) (S : System π) : Prop where
  running : ∀ t, S.places t ≠ .idle →
    ∃ u, ReflTransGen S.Waits t u ∧ S.Enabled cfg T (.step u)
  steps : ∀ act, S.Enabled cfg T act → S.Clean cfg act → (∃ S', S.perform cfg act = .ok S') ∨
    (S.perform cfg act = .error .noSizeClass ∧
      ∃ t size, act = .malloc t size ∧ adjustedSize cfg size = largestSc) ∨
    S.perform cfg act = .error .emptyBucket ∧ ¬ Robust (π := π) cfg.toAddressConfig T
  bitmaps : ∀ act S' p, S.Enabled cfg T act → S.Clean cfg act → S.perform cfg act = .ok S' →
    (S'.heap.pages p).usedPageBlockBitmap ≠ (S.heap.pages p).usedPageBlockBitmap →
    ∃ t, act = .step t ∧ S.owner (.page p) = some t
  apart : ∀ a b, S.live a ≠ none → S.live b ≠ none → a ≠ b →
    S.heap.blockOf cfg a ≠ S.heap.blockOf cfg b
  intact : ∀ a o, S.live a = some o → ¬ S.Copied a → ObjectIntact cfg S.heap a o

theorem Invariant.safe {cfg : Config} {T : Nat} {S : System π} (inv : Invariant cfg T S)
    (moving : compactionOn cfg) : Safe cfg T S := by
  refine ⟨fun t => inv.someone_runs, fun act enabled clean => ?_,
    fun act S' p enabled clean run ne => ?_, fun a b => inv.blocks_differ, fun a o => inv.intact⟩
  · exact (inv.performed moving act enabled clean).imp_left fun ⟨S', run, _⟩ => ⟨S', run⟩
  · rcases inv.performed moving act enabled clean with
      ⟨_, run', _, bitmaps⟩ | ⟨refused, _⟩ | ⟨lacks, _⟩
    · rw [run] at run'
      cases run'
      exact bitmaps p ne
    · rw [run] at refused
      cases refused
    · rw [run] at lacks
      cases lacks

/-- The build with page locks is safe, for any number of threads and any interleaving of their
steps. -/
theorem pageLocks_safe (cfg : Config) (build : Build cfg) (T : Nat) (addresses : π)
    (valid : Valid cfg.toAddressConfig T (fun _ => False) addresses) (S : System π)
    (reachable : Reachable cfg T addresses S) : Safe cfg T S :=
  (reachable.invariant build.moving valid).safe build.moving

end

/-! ### Runs given as lists of actions -/

section Script
variable {π : Type} [AddressPool π] {cfg : Config} {T : Nat} {addresses : π} {S S' : System π}

def Place.isIdle : Place → Bool
  | .idle => true
  | _ => false

theorem Place.isIdle_iff {place : Place} : place.isIdle = true ↔ place = .idle := by
  cases place <;> simp [isIdle]

/-- The lock that the thread takes next is free, and so is an abstract address if it needs one. -/
def unblocked (cfg : Config) (t : Nat) (S : System π) : Bool :=
  match S.places t with
  | .mallocName .. => (getFreeAa cfg.toAddressConfig t S.heap.addresses).1.isSome
  | place =>
      match place.acquires with
      | some m => (S.owner m).isNone
      | none => true

/-- The action is enabled and clean; writes of the application are not checked. -/
def ready (cfg : Config) (T : Nat) (S : System π) : Action → Bool
  | .malloc t _ => t < T && (S.places t).isIdle
  | .free t a => t < T && (S.places t).isIdle && (S.live a).isSome
  | .step t => !(S.places t).isIdle && unblocked cfg t S
  | .write .. => false

theorem unblocked_sound {t : Nat} (h : unblocked cfg t S = true) :
    (∀ u, ¬ S.Waits t u) ∧ S.Clean cfg (.step t) := by
  refine ⟨?_, fun size c p index hP => ?_⟩
  · rintro u ⟨m, wants, owns⟩
    cases hP : S.places t <;> simp only [hP, Place.acquires, reduceCtorEq] at wants <;>
      simp [unblocked, hP, Place.acquires, Option.some.inj wants, owns] at h
  · rw [unblocked, hP] at h
    exact Option.isSome_iff_ne_none.mp h

theorem ready_sound {act : Action} (h : ready cfg T S act = true) :
    S.Enabled cfg T act ∧ S.Clean cfg act := by
  cases act with
  | malloc t size =>
      simp only [ready, Bool.and_eq_true, decide_eq_true_eq, Place.isIdle_iff] at h
      exact ⟨h, trivial⟩
  | free t a =>
      simp only [ready, Bool.and_eq_true, decide_eq_true_eq, Place.isIdle_iff] at h
      exact ⟨⟨h.1.1, h.1.2, Option.isSome_iff_ne_none.mp h.2⟩, trivial⟩
  | step t =>
      simp only [ready, Bool.and_eq_true, Bool.not_eq_true', Bool.eq_false_iff, ne_eq,
        Place.isIdle_iff] at h
      obtain ⟨running, clean⟩ := unblocked_sound h.2
      exact ⟨⟨h.1, running⟩, clean⟩
  | write => cases h

def script (cfg : Config) (T : Nat) : List Action → System π → Option (System π)
  | [], S => some S
  | act :: acts, S =>
      if ready cfg T S act then
        match S.perform cfg act with
        | .ok S => script cfg T acts S
        | .error _ => none
      else none

/-- A list that passes the checks leads from one reachable state to another. -/
theorem Reachable.script {acts : List Action} (start : Reachable cfg T addresses S)
    (h : LockPage.script cfg T acts S = some S') : Reachable cfg T addresses S' := by
  induction acts generalizing S with
  | nil =>
      cases h
      exact start
  | cons act acts ih =>
      simp only [LockPage.script] at h
      split at h
      next ok =>
        split at h
        next S1 run =>
          obtain ⟨enabled, clean⟩ := ready_sound ok
          exact ih (start.step act enabled clean run) h
        next => cases h
      next => cases h

end Script

/-- The heap of `smallConfig` in this build. -/
def pageLockConfig : Config :=
  { smallConfig with incrementalMemcpy := 0, incrementalMemcpy_int := incrementalMemcpy_off }

def callSteps (t n : Nat) (act : Action) : List Action := act :: List.replicate n (.step t)

/-- One thread is copying the second of four objects of 7000 bytes. Another one has the lock of
their class and waits for the page of the copy, to free the fourth. -/
theorem pageLocks_safe_waiting : ∃ S : System SetPool,
    (S.Copied 1048580 ∧ S.Waits 1 0) ∧ Safe pageLockConfig 2 S := by
  have passed : ((script pageLockConfig 2
      (callSteps 0 7 (.malloc 0 7000) ++ callSteps 0 7 (.malloc 0 7000) ++
        callSteps 0 7 (.malloc 0 7000) ++ callSteps 0 7 (.malloc 0 7000) ++
        callSteps 0 10 (.free 0 1048576) ++ callSteps 0 9 (.free 0 1048584) ++
        callSteps 1 4 (.free 1 1048588))
      (System.init pageLockConfig (SetPool.init pageLockConfig.toAddressConfig fun _ => 0))).any
      fun S => match S.places 0, S.places 1 with
        | .compactCopy _ m, .dropLock g _ => m.srcAa = 1048580 && S.owner (.page g.page) = some 0
        | _, _ => false) = true := by decide +kernel
  obtain ⟨S, run, found⟩ := (Option.any_eq_true _ _).mp passed
  have reachable := (Reachable.init).script run
  refine ⟨S, ?_, pageLocks_safe pageLockConfig ⟨by decide, rfl⟩ 2 _ (SetPool.valid_init _ 2 _) S
    reachable⟩
  split at found
  next f m g next hP hQ =>
    simp only [Bool.and_eq_true, decide_eq_true_eq] at found
    exact ⟨⟨0, f, m, .inr hP, found.1⟩, .page g.page, by simp only [hQ]; rfl, found.2⟩
  next => cases found

end LockPage
end CompactFit
