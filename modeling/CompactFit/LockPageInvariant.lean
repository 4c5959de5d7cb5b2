import CompactFit.LockPageOwners

/-!
The joint invariant of the build with page locks: headers, locks, owners and the address pool.
Every place of a call has one lemma: its code succeeds and keeps the invariant.
-/

namespace CompactFit
namespace LockPage
open Function ByteMemory AddressPool LawfulAddressPool

section
variable {π : Type} [AddressPool π] [LawfulAddressPool π]

def Out (live : Live) (P : Nat → Place) (a : Nat) : Prop :=
  live a ≠ none ∨ ∃ t, (P t).address = some a

/-- What the rest of a call relies on about the block of its address. -/
structure Relies (v : View) (P : Nat → Place) (place : Place) : Prop where
  target : ∀ f, place.frees = some f → Holder.Has v P (.address f.address) f.target
  settled : ∀ a c, place.settled = some (a, c) → ∃ B,
    Holder.Has v P (.address a) B ∧ v.sc B.page = c
  fresh : ∀ size c a, place = .mallocUnlock size c (some a) → ¬ Copied P a

structure Invariant (cfg : Config) (T : Nat) (S : System π) : Prop where
  headers : HeadersOk cfg T S.heap S.places
  owner : ∀ m t, S.owner m = some t ↔ m ∈ (S.places t).locks
  owners : Owners cfg (S.heap.view cfg) S.live S.places
  relies : ∀ t, Relies (S.heap.view cfg) S.places (S.places t)
  dead : ∀ t a, (S.places t).address = some a → S.live a = none
  single : ∀ t u a, (S.places t).address = some a → (S.places u).address = some a → t = u
  valid : Valid cfg.toAddressConfig T (fun id => Out S.live S.places (aaPointer cfg id))
    S.heap.addresses
  isAa : ∀ a, Out S.live S.places a → IsAa cfg a

section Relies
variable {v v' : View} {P P' : Nat → Place} {place : Place}

theorem Relies.none (unsettled : place.settled = none) : Relies v P place := by
  refine ⟨fun f hf => ?_, fun a c hs => ?_, fun size c a eq => ?_⟩
  · rw [Place.settled_of_frees hf] at unsettled
    cases unsettled
  · rw [hs] at unsettled
    cases unsettled
  · rw [eq] at unsettled
    cases unsettled

/-- A `cf_free` relies on the block that it has found. -/
theorem Relies.of_frees {f : Freeing} (frees : place.frees = some f)
    (has : Holder.Has v P (.address f.address) f.target) (sc : v.sc f.page = f.sc) :
    Relies v P place := by
  refine ⟨fun g hg => ?_, fun a c hs => ?_, fun size c a eq => ?_⟩
  · cases frees.symm.trans hg
    exact has
  · cases (Place.settled_of_frees frees).symm.trans hs
    exact ⟨f.target, has, sc⟩
  · rw [eq] at frees
    cases frees

/-- A `cf_malloc` relies on the block that it returns. -/
theorem Relies.of_returns {size c a : Nat} {B : Block} (has : Holder.Has v P (.address a) B)
    (sc : v.sc B.page = c) (still : ¬ Copied P a) :
    Relies v P (.mallocUnlock size c (some a)) := by
  refine ⟨fun f hf => ?_, fun b d hs => ?_, fun size d b eq => ?_⟩
  · cases hf
  · cases hs
    exact ⟨B, has, sc⟩
  · cases eq
    exact still

/-- The block of the address stays where it is, and nobody starts to copy it. -/
theorem Relies.congr (relies : Relies v P place)
    (moved : ∀ a c B, place.settled = some (a, c) → Holder.Has v P (.address a) B →
      Holder.Has v' P' (.address a) B ∧ v'.sc B.page = v.sc B.page)
    (copied : ∀ a c, place.settled = some (a, c) → Copied P' a → Copied P a) :
    Relies v' P' place := by
  refine ⟨fun f hf => ?_, fun a c hs => ?_, fun size c a eq now => ?_⟩
  · exact (moved _ _ _ (Place.settled_of_frees hf) (relies.target f hf)).1
  · obtain ⟨B, has, sc⟩ := relies.settled a c hs
    obtain ⟨has', same⟩ := moved a c B hs has
    exact ⟨B, has', same.trans sc⟩
  · exact relies.fresh size c a eq (copied a c (by rw [eq]; rfl) now)

end Relies

section Headers
variable {cfg : Config} {T t p : Nat} {h h' : Heap π} {P : Nat → Place} {B : Block}

omit [LawfulAddressPool π] in
theorem HeadersOk.inUse_listed (ok : HeadersOk cfg T h P) (inUse : (h.view cfg).InUse p) :
    (h.pages p).listFlags ≠ .free ∧ (h.pages p).listFlags ≠ .none := by
  rcases ok.page p with page | ⟨u, loose⟩
  · have flag := page.flag
    have some : 0 < (h.pages p).nrUsedPageBlocks ∨ 0 < (h.pages p).sourceentries :=
      inUse.imp (fun ⟨_, used⟩ => page.used_pos used) id
    generalize (h.pages p).listFlags = f at flag ⊢
    cases f <;> simp only [FlagOk] at flag <;> simp <;> omega
  · exact ok.loosened_listed loose

omit [LawfulAddressPool π] in
theorem HeadersOk.used_listed (ok : HeadersOk cfg T h P) (used : (h.view cfg).used B) :
    (h.pages B.page).listFlags ≠ .free ∧ (h.pages B.page).listFlags ≠ .none :=
  ok.inUse_listed (View.used_inUse used)

omit [AddressPool π] [LawfulAddressPool π] in
theorem HeadersOk.free_empty (ok : HeadersOk cfg T h P) (free : (h.pages p).listFlags = .free) :
    PageOk (h.pages p) ∧ (h.pages p).nrUsedPageBlocks = 0 ∧ (h.pages p).sourceentries = 0 := by
  rcases ok.page p with page | ⟨u, loose⟩
  · have flag := page.flag
    rw [free] at flag
    exact ⟨page, flag⟩
  · exact absurd free (ok.loosened_listed loose).1

omit [LawfulAddressPool π] in
/-- A step on page `p` keeps classes and bytes of the pages in use. -/
theorem HeadersOk.keeps (ok : HeadersOk cfg T h' P) (others : ∀ q, q ≠ p → h'.pages q = h.pages q)
    (sc : (h'.pages p).sc = (h.pages p).sc ∨ ¬ (h'.view cfg).InUse p)
    (memory : ∀ a, (h'.pages (a / pageSize)).listFlags ≠ .free → h'.memory a = h.memory a) :
    (h.view cfg).Keeps (h'.view cfg) fun _ => False := by
  refine ⟨fun q inUse => ?_, fun B _ placed inUse j hj => memory _ ?_⟩
  · by_cases hq : q = p
    · subst hq
      exact sc.resolve_right fun not => not inUse
    · simp only [Heap.view, others q hq]
  · have page := placed.pageOfBlock (x := (h.view cfg).start B + j) (by omega) (by omega)
    rw [show ((h.view cfg).start B + j) / pageSize = B.page from page]
    exact (ok.inUse_listed inUse).1

end Headers

namespace Invariant
variable {cfg : Config} {T t u p c a : Nat} {S : System π} {B : Block} {m : Mutex} {n : Copy}
  {f : Freeing} {place' : Place} {h' : Heap π}

theorem kept_out {live : Live} {P : Nat → Place} (kept : Kept live P a) : Out live P a :=
  kept.imp_right fun ⟨u, hu⟩ => ⟨u, Place.address_of_keeps hu⟩

omit [LawfulAddressPool π] in
theorem entries_view (h : Heap π) (p : Nat) :
    (h.view cfg).entries p = (h.pages p).sourceentries := rfl

theorem exclusive (inv : Invariant cfg T S) (ht : m ∈ (S.places t).locks)
    (hu : m ∈ (S.places u).locks) : t = u :=
  Option.some.inj (((inv.owner m t).mpr ht).symm.trans ((inv.owner m u).mpr hu))

theorem mine (inv : Invariant cfg T S) (ht : m ∈ (S.places t).locks) :
    ∀ u, u ≠ t → m ∉ (S.places u).locks :=
  fun _ ne hu => ne (inv.exclusive hu ht)

theorem source_pinned (inv : Invariant cfg T S) (copying : (S.places u).copying = some (f, n)) :
    0 < (S.heap.pages n.srcPage).sourceentries :=
  inv.headers.pinned_pos (Place.locks_of_copying copying).2.2

/-- Nobody else copies an object into a page that the thread has locked. -/
theorem not_copied (inv : Invariant cfg T S)
    (has : Holder.Has (S.heap.view cfg) S.places (.address a) B)
    (lock : .page B.page ∈ (S.places t).locks) (free : (S.places t).copying = none) :
    ¬ Copied S.places a := by
  rintro ⟨u, g, n, copying, rfl⟩
  have same := (inv.owners.target_has copying).unique has
  have eq : u = t := by
    refine inv.exclusive (m := .page B.page) ?_ lock
    rw [← same]
    exact (Place.locks_of_copying copying).1
  rw [eq, free] at copying
  cases copying

theorem not_idle (inv : Invariant cfg T S) (busy : S.places t ≠ .idle) : t < T :=
  inv.headers.bounded t busy

/-- A step of thread `t` that keeps its address. What other threads rely on stays. -/
theorem advance (inv : Invariant cfg T S) {S' : System π}
    (places : S'.places = update S.places t place')
    (headers : HeadersOk cfg T S'.heap S'.places)
    (owner : ∀ m u, S'.owner m = some u ↔ m ∈ (S'.places u).locks)
    (owners : Owners cfg (S'.heap.view cfg) S'.live S'.places)
    (stays : ∀ u a c B, u ≠ t → (S.places u).settled = some (a, c) →
      Holder.Has (S.heap.view cfg) S.places (.address a) B → (S.heap.view cfg).used B →
      (S'.heap.pages B.page).sc = (S.heap.pages B.page).sc ∧
        (S'.heap.view cfg).word a = (S.heap.view cfg).word a)
    (relies : Relies (S'.heap.view cfg) S'.places place')
    (copied : ∀ u a c, u ≠ t → (S.places u).settled = some (a, c) → Copied S'.places a →
      Copied S.places a)
    (address : ∀ a, place'.address = some a → S'.live a = none ∧
      ∀ u, u ≠ t → (S.places u).address ≠ some a)
    (live : ∀ u a, u ≠ t → (S.places u).address = some a → S'.live a = none)
    (valid : Valid cfg.toAddressConfig T (fun id => Out S'.live S'.places (aaPointer cfg id))
      S'.heap.addresses)
    (isAa : ∀ a, Out S'.live S'.places a → IsAa cfg a) : Invariant cfg T S' := by
  have self : S'.places t = place' := by rw [places, update_self]
  have other : ∀ u, u ≠ t → S'.places u = S.places u := fun u hu => by rw [places, update_of_ne hu]
  refine ⟨headers, owner, owners, fun u => ?_, fun u a hu => ?_, fun u w a hu hw => ?_, valid,
    isAa⟩
  · by_cases hu : u = t
    · rw [hu, self]
      exact relies
    · rw [other u hu]
      refine (inv.relies u).congr (fun a c B hs has => ?_) fun a c hs => copied u a c hu hs
      have active : Holder.Active S.live S.places (.address a) :=
        .inr ⟨u, (Place.locks_of_settled hs).2.2⟩
      obtain ⟨sc, word⟩ := stays u a c B hu hs has (inv.owners.used active has)
      exact ⟨has.of_address sc word, sc⟩
  · by_cases eq : u = t
    · rw [eq, self] at hu
      exact (address a hu).1
    · rw [other u eq] at hu
      exact live u a eq hu
  · by_cases eq : u = t <;> by_cases eq' : w = t
    · rw [eq, eq']
    · rw [eq, self] at hu
      rw [other w eq'] at hw
      exact absurd hw ((address a hu).2 w eq')
    · rw [other u eq] at hu
      rw [eq', self] at hw
      exact absurd hu ((address a hw).2 u eq)
    · rw [other u eq] at hu
      rw [other w eq'] at hw
      exact inv.single u w a hu hw

theorem out_split (live : Live) (P : Nat → Place) (t b : Nat) : Out live P b ↔
    (live b ≠ none ∨ (P t).address = some b) ∨ ∃ u, u ≠ t ∧ (P u).address = some b := by
  simp only [Out, or_assoc]
  refine or_congr_right ⟨?_, ?_⟩
  · rintro ⟨u, hu⟩
    by_cases eq : u = t
    · exact .inl (eq ▸ hu)
    · exact .inr ⟨u, eq, hu⟩
  · rintro (ht | ⟨u, _, hu⟩)
    · exact ⟨t, ht⟩
    · exact ⟨u, hu⟩

theorem out_after (live : Live) (P : Nat → Place) (t b : Nat) (place' : Place) :
    Out live (update P t place') b ↔
      (live b ≠ none ∨ place'.address = some b) ∨ ∃ u, u ≠ t ∧ (P u).address = some b := by
  rw [out_split live _ t, update_self]
  refine or_congr_right (exists_congr fun u => and_congr_right fun hu => ?_)
  rw [update_of_ne hu]

theorem out_congr {live live' : Live} {P : Nat → Place} {b : Nat}
    (same : live' b ≠ none ∨ place'.address = some b ↔ live b ≠ none ∨ (P t).address = some b) :
    Out live' (update P t place') b ↔ Out live P b := by
  rw [out_after, out_split live P t]
  exact or_congr_left same

theorem out_update {live : Live} {P : Nat → Place} (address : place'.address = (P t).address)
    (a : Nat) : Out live (update P t place') a ↔ Out live P a :=
  out_congr (by rw [address])

/-- As `advance`, for a step inside a call. -/
theorem inside (inv : Invariant cfg T S) {h' : Heap π} {owner' : Mutex → Option Nat}
    (headers : HeadersOk cfg T h' (update S.places t place'))
    (owner : ∀ m u, owner' m = some u ↔ m ∈ (update S.places t place' u).locks)
    (owners : Owners cfg (h'.view cfg) S.live (update S.places t place'))
    (stays : ∀ u a c B, u ≠ t → (S.places u).settled = some (a, c) →
      Holder.Has (S.heap.view cfg) S.places (.address a) B → (S.heap.view cfg).used B →
      (h'.pages B.page).sc = (S.heap.pages B.page).sc ∧
        (h'.view cfg).word a = (S.heap.view cfg).word a)
    (relies : Relies (h'.view cfg) (update S.places t place') place')
    (copied : ∀ u a c, u ≠ t → (S.places u).settled = some (a, c) →
      Copied (update S.places t place') a → Copied S.places a)
    (address : place'.address = (S.places t).address)
    (valid : Valid cfg.toAddressConfig T (fun id => Out S.live S.places (aaPointer cfg id))
      h'.addresses) :
    Invariant cfg T { S with heap := h', owner := owner', places := update S.places t place' } := by
  refine inv.advance rfl headers owner owners stays relies copied ?_
    (fun u a _ hu => inv.dead u a hu) (valid_congr valid fun id => out_update address _)
    fun a out => inv.isAa a ((out_update address a).mp out)
  intro a ha
  rw [address] at ha
  exact ⟨inv.dead t a ha, fun u hu hu' => hu (inv.single u t a hu' ha)⟩

theorem update_same {α : Type} (g : Place → α) {P : Nat → Place} (same : g place' = g (P t))
    (u : Nat) : g (update P t place' u) = g (P u) := by
  by_cases hu : u = t
  · rw [hu, update_self, same]
  · rw [update_of_ne hu]

theorem copied_update {P : Nat → Place} (copying : place'.copying = (P t).copying) (a : Nat) :
    Copied (update P t place') a ↔ Copied P a := by
  simp only [Copied, update_same Place.copying copying]

/-- A thread that copies no other object than before. -/
theorem copied_sub {P : Nat → Place} (sub : ∀ f m, place'.copying = some (f, m) →
    ∃ g n, (P t).copying = some (g, n) ∧ n.srcAa = m.srcAa)
    (copied : Copied (update P t place') a) : Copied P a := by
  obtain ⟨u, f, m, copying, rfl⟩ := copied
  by_cases hu : u = t
  · rw [hu, update_self] at copying
    obtain ⟨g, n, copying', eq⟩ := sub f m copying
    exact ⟨t, g, n, copying', eq⟩
  · rw [update_of_ne hu] at copying
    exact ⟨u, f, m, copying, rfl⟩

/-- A step of thread `t` after which it and the others own what they owned. -/
theorem quiet (inv : Invariant cfg T S) {h' : Heap π} {owner' : Mutex → Option Nat}
    (headers : HeadersOk cfg T h' (update S.places t place'))
    (owner : ∀ m u, owner' m = some u ↔ m ∈ (update S.places t place' u).locks)
    (keeps : (S.heap.view cfg).Keeps (h'.view cfg) fun _ => False)
    (used : ∀ B, (h'.view cfg).used B ↔ (S.heap.view cfg).used B)
    (word : ∀ a, Kept S.live S.places a → (h'.view cfg).word a = (S.heap.view cfg).word a)
    (same : place'.keeps = (S.places t).keeps ∧ place'.taken = (S.places t).taken ∧
      place'.copying = (S.places t).copying ∧ place'.address = (S.places t).address)
    (relies : Relies (S.heap.view cfg) S.places place')
    (valid : Valid cfg.toAddressConfig T (fun id => Out S.live S.places (aaPointer cfg id))
      h'.addresses) :
    Invariant cfg T { S with heap := h', owner := owner', places := update S.places t place' } := by
  obtain ⟨sameKeeps, sameTaken, sameCopying, sameAddress⟩ := same
  have classes : ∀ B, (S.heap.view cfg).used B → (h'.pages B.page).sc = (S.heap.pages B.page).sc :=
    fun B usedB => keeps.sc _ (View.used_inUse ((used B).mpr usedB))
  have kept : ∀ a, Kept S.live (update S.places t place') a ↔ Kept S.live S.places a :=
    fun a => Owners.kept_update rfl (by rw [sameKeeps])
  refine inv.inside headers owner ?_ ?_ (relies.congr (fun a c B hs has => ?_) fun a _ _ => ?_) ?_
    sameAddress valid
  · refine inv.owners.congr keeps used kept (update_same Place.taken sameTaken)
      (update_same Place.copying sameCopying) word (fun u f m copying => .inr ?_) fun _ _ => id
    have copying' : (update S.places t place' u).copying = some (f, m) := by
      rw [update_same Place.copying sameCopying, copying]
    exact headers.pinned_pos (Place.locks_of_copying copying').2.2
  · intro u a c B _ hs _ usedB
    exact ⟨classes B usedB, word a (.inr ⟨u, (Place.locks_of_settled hs).2.2⟩)⟩
  · have keptA : Kept S.live S.places a := .inr ⟨t, sameKeeps ▸ (Place.locks_of_settled hs).2.2⟩
    have sc := classes B (inv.owners.used (x := .address a) keptA has)
    exact ⟨has.of_address sc (word a keptA), sc⟩
  · exact (copied_update sameCopying a).mp
  · intro u a c _ _
    exact (copied_update sameCopying a).mp

/-- A step of thread `t` that changes its place and its locks only. -/
theorem still (inv : Invariant cfg T S) (ht : t < T) {owner' : Mutex → Option Nat}
    (owner : ∀ m u, owner' m = some u ↔ m ∈ (update S.places t place' u).locks)
    (header : HeaderOk S.heap place')
    (loosens : ∀ q, (S.places t).loosens = some q →
      PageOk (S.heap.pages q) ∨ place'.loosens = some q)
    (pinned : place'.pinned = (S.places t).pinned)
    (same : place'.keeps = (S.places t).keeps ∧ place'.taken = (S.places t).taken ∧
      place'.copying = (S.places t).copying ∧ place'.address = (S.places t).address)
    (relies : Relies (S.heap.view cfg) S.places place') :
    Invariant cfg T { S with owner := owner', places := update S.places t place' } :=
  inv.quiet (inv.headers.move ht header loosens pinned) owner (Owns.keeps_refl _ _)
    (fun _ => Iff.rfl)
    (fun _ _ => rfl) same relies inv.valid

theorem owner_acquired (inv : Invariant cfg T S) (acquires : (S.places t).acquires = some m)
    (free : S.owner m = none) (m' : Mutex) (u : Nat) : update S.owner m (some t) m' = some u ↔
      m' ∈ (update S.places t (S.places t).next u).locks := by
  by_cases hu : u = t
  · subst hu
    rw [update_self, Place.locks_of_acquires acquires]
    by_cases hm : m' = m
    · simp [hm]
    · rw [update_of_ne hm, inv.owner]
      simp [hm]
  · rw [update_of_ne hu]
    by_cases hm : m' = m
    · subst hm
      rw [update_self, ← inv.owner, free]
      simp [Ne.symm hu]
    · rw [update_of_ne hm, inv.owner]

theorem owner_released (inv : Invariant cfg T S) (releases : (S.places t).releases = some m)
    (m' : Mutex) (u : Nat) : update S.owner m none m' = some u ↔
      m' ∈ (update S.places t (S.places t).next u).locks := by
  by_cases hu : u = t
  · subst hu
    rw [update_self, locks_of_releases (inv.headers.header u) releases]
    by_cases hm : m' = m
    · simp [hm]
    · rw [update_of_ne hm, inv.owner]
      simp [hm]
  · rw [update_of_ne hu]
    by_cases hm : m' = m
    · subst hm
      rw [update_self]
      simp only [reduceCtorEq, false_iff]
      exact inv.mine (Place.held_of_releases releases) u hu
    · rw [update_of_ne hm, inv.owner]

theorem acquire (inv : Invariant cfg T S) (acquires : (S.places t).acquires = some m)
    (free : S.owner m = none) : Invariant cfg T { S with
      owner := update S.owner m (some t), places := update S.places t (S.places t).next } := by
  obtain ⟨⟨address, keeps, taken, pinned, copying, loosens⟩, frees⟩ :=
    Place.alike_of_acquires acquires
  refine inv.still (inv.not_idle ?_) (inv.owner_acquired acquires free)
    ((inv.headers.header t).next (.inl (by simp [acquires]))) (fun q hq => .inr (loosens.trans hq))
    pinned ⟨keeps, taken, copying, address⟩ ⟨fun f hf => (inv.relies t).target f (frees ▸ hf),
      fun a c hs => (inv.relies t).settled a c (Place.settled_of_acquires acquires ▸ hs), ?_⟩
  · intro idle
    rw [idle] at acquires
    cases acquires
  · intro size c a eq
    cases hp : S.places t <;> rw [hp] at acquires eq <;>
      simp only [Place.acquires, reduceCtorEq] at acquires <;> cases eq

/-- A lock operation that gives a lock back and returns no object. -/
theorem release (inv : Invariant cfg T S) (releases : (S.places t).releases = some m)
    (silent : ∀ size c a, S.places t ≠ .mallocUnlock size c (some a)) :
    Invariant cfg T { S with
      owner := update S.owner m none, places := update S.places t (S.places t).next } := by
  obtain ⟨⟨address, keeps, taken, pinned, copying, loosens⟩, settled⟩ :=
    Place.alike_of_releases releases silent
  refine inv.still (inv.not_idle ?_) (inv.owner_released releases)
    ((inv.headers.header t).next (.inr (by simp [releases])))
    (fun q hq => .inr (loosens.trans hq)) pinned ⟨keeps, taken, copying, address⟩ (.none settled)
  intro idle
  rw [idle] at releases
  cases releases

/-! ### The code between two lock operations -/

/-- What the code at the place of thread `t` leaves. It changes the bitmaps of locked pages
only. -/
structure Coded (cfg : Config) (T t : Nat) (S : System π) (r : Place × Heap π) : Prop where
  invariant : Invariant cfg T { S with heap := r.2, places := update S.places t r.1 }
  bitmaps : ∀ p, (r.2.pages p).usedPageBlockBitmap ≠ (S.heap.pages p).usedPageBlockBitmap →
    .page p ∈ (S.places t).locks

theorem owner_same (inv : Invariant cfg T S) (locks : place'.locks = (S.places t).locks)
    (m : Mutex) (u : Nat) : S.owner m = some u ↔ m ∈ (update S.places t place' u).locks := by
  rw [inv.owner, update_same Place.locks locks]

theorem read (inv : Invariant cfg T S) (ht : t < T) (locks : place'.locks = (S.places t).locks)
    (header : HeaderOk S.heap place')
    (closed : (S.places t).loosens = none) (pinned : place'.pinned = (S.places t).pinned)
    (same : place'.keeps = (S.places t).keeps ∧ place'.taken = (S.places t).taken ∧
      place'.copying = (S.places t).copying ∧ place'.address = (S.places t).address)
    (relies : Relies (S.heap.view cfg) S.places place') :
    Coded cfg T t S (place', S.heap) :=
  ⟨inv.still ht (inv.owner_same locks) header (fun q hq => by rw [closed] at hq; cases hq) pinned
    same relies, fun _ ne => absurd rfl ne⟩

/-- Code that moves page `p` of class `c` between the lists and leaves the bitmaps. -/
theorem regroup (inv : Invariant cfg T S) (ht : t < T)
    (lock : .sizeClass c ∈ (S.places t).locks)
    (here : (S.heap.pages p).sc = c ∨ (S.heap.pages p).listFlags = .free)
    (registered : Registered cfg h') (others : ∀ q, q ≠ p → h'.pages q = S.heap.pages q)
    (sc : (h'.pages p).sc = (S.heap.pages p).sc ∨
      (S.heap.pages p).listFlags = .free ∧ (h'.pages p).sourceentries = 0)
    (listed : (S.heap.pages p).listFlags ≠ .none ∧ (h'.pages p).listFlags ≠ .none)
    (page : PageOk (h'.pages p) ∨ place'.loosens = some p)
    (loosens : ∀ q, q ≠ p → (S.places t).loosens = some q → place'.loosens = some q)
    (header : HeaderOk h' place')
    (pinned : ∀ q d, place'.pinned = some (q, d) → (h'.pages q).sc = d)
    (entries : ∀ q, (h'.pages q).sourceentries + (S.places t).entries q =
      (S.heap.pages q).sourceentries + place'.entries q)
    (bitmap : (h'.pages p).usedPageBlockBitmap = (S.heap.pages p).usedPageBlockBitmap)
    (memory : ∀ a, (h'.pages (a / pageSize)).listFlags ≠ .free →
      h'.memory a = S.heap.memory a)
    (addresses : h'.addresses = S.heap.addresses) (locks : place'.locks = (S.places t).locks)
    (same : place'.keeps = (S.places t).keeps ∧ place'.taken = (S.places t).taken ∧
      place'.copying = (S.places t).copying ∧ place'.address = (S.places t).address)
    (relies : Relies (S.heap.view cfg) S.places place') :
    Coded cfg T t S (place', h') := by
  have headers : HeadersOk cfg T h' (update S.places t place') :=
    inv.headers.step ht (inv.mine lock) here registered others (sc.imp_right And.left) listed page
      loosens header pinned entries
  have bitmaps : ∀ q, (h'.pages q).usedPageBlockBitmap = (S.heap.pages q).usedPageBlockBitmap :=
    field_same Page.usedPageBlockBitmap others bitmap
  have keeps : (S.heap.view cfg).Keeps (h'.view cfg) fun _ => False := by
    refine headers.keeps others (sc.imp_right ?_) memory
    rintro ⟨free, none⟩ (⟨i, used⟩ | pos)
    · obtain ⟨page, empty, _⟩ := inv.headers.free_empty free
      have used : (h'.pages p).usedPageBlockBitmap.Used i := used
      rw [bitmap] at used
      exact absurd (page.used_pos used) (by omega)
    · exact absurd pos (by rw [entries_view]; omega)
  refine ⟨inv.quiet headers (inv.owner_same locks) keeps (fun B => ?_) (fun a _ => ?_) same relies
    (addresses ▸ inv.valid), fun q ne => absurd (bitmaps q) ne⟩
  · simp only [Heap.view, bitmaps]
  · exact Good.word_congr addresses a

end Invariant

end
end LockPage
end CompactFit
