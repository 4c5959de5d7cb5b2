import CompactFit.ClassLock
import CompactFit.AbortFinality

/-!
The invariant of the calls with class locks. A lock is held by the thread whose place says so,
`workers` counts the threads that work on a class, and what a thread knows about its call stays
true while other threads run.
-/

namespace CompactFit
namespace ClassLock
open Function ByteMemory AddressPool LawfulAddressPool

section
variable {π : Type}

/-! ### What each place says -/

def Place.worker (c : Nat) (p : Place) : Nat := if p.counted = some c then 1 else 0

/-- The lock of every class is held by the thread whose place says so, if there is one. -/
def Held (holder : Nat → Option Nat) (places : Nat → Place) : Prop :=
  ∀ c t, holder c = some t ↔ (places t).holds = some c

/-- `workers` counts the threads that wait for the lock of a class or have it. -/
def Counted (cfg : Config) (T : Nat) (workers : Nat → Nat) (places : Nat → Place) : Prop :=
  ∀ c, workers c =
    if cfg.incrementalMemcpy ≠ 0 then ∑ t ∈ Finset.range T, (places t).worker c else 0

/-- What a thread at place `p` knows about the allocator. -/
structure PlaceOk (cfg : Config) (S : System π) (t : Nat) (p : Place) : Prop where
  suspended : S.calls t ≠ none ↔ p.job = some .resume
  request : ∀ size c, p.found = some (.malloc size, c) → c = requestClass cfg size
  resumed : ∀ c call, p.found = some (.resume, c) → S.calls t = some call → call.comp.sc = c
  claimed : ∀ a, p.job = some (.free a) → S.live a ≠ none
  read : ∀ a pageBlock, p = .read a pageBlock → InHeap cfg (pageOfBlock pageBlock)
  freeing : ∀ a c, p.found = some (.free a, c) → c < sizeClasses

structure Ok (cfg : Config) (T : Nat) (S : State π) : Prop where
  outside : ∀ t, T ≤ t → S.places t = .idle
  held : Held S.holder S.places
  counted : Counted cfg T S.workers S.places
  place : ∀ t, PlaceOk cfg S.sys t (S.places t)
  apart : ∀ t u a, (S.places t).job = some (.free a) → (S.places u).job = some (.free a) → t = u

/-! ### Locks and workers -/

section Locks
variable {cfg : Config} {T t c : Nat} {holder : Nat → Option Nat} {workers : Nat → Nat}
  {places : Nat → Place} {p : Place}

theorem Held.same (held : Held holder places) (same : p.holds = (places t).holds) :
    Held holder (update places t p) := by
  intro c u
  by_cases hu : u = t
  · subst hu
    rw [update_self, same]
    exact held c u
  · rw [update_of_ne hu]
    exact held c u

theorem Held.take (held : Held holder places) (free : holder c = none)
    (before : (places t).holds = none) (after : p.holds = some c) :
    Held (update holder c (some t)) (update places t p) := by
  intro d u
  by_cases hu : u = t
  · subst hu
    rw [update_self, after]
    by_cases hd : d = c
    · subst hd
      simp
    · rw [update_of_ne hd, held d u, before]
      simp [Ne.symm hd]
  · rw [update_of_ne hu]
    by_cases hd : d = c
    · subst hd
      rw [update_self]
      refine ⟨fun eq => absurd (Option.some.inj eq).symm hu, fun holds => ?_⟩
      rw [← held d u, free] at holds
      cases holds
    · rw [update_of_ne hd]
      exact held d u

theorem Held.drop (held : Held holder places) (before : (places t).holds = some c)
    (after : p.holds = none) : Held (update holder c none) (update places t p) := by
  intro d u
  by_cases hu : u = t
  · subst hu
    rw [update_self, after]
    by_cases hd : d = c
    · subst hd
      simp
    · rw [update_of_ne hd, held d u, before]
      simp [Ne.symm hd]
  · rw [update_of_ne hu]
    by_cases hd : d = c
    · subst hd
      rw [update_self]
      refine ⟨fun eq => (by cases eq), fun holds => ?_⟩
      rw [← held d u] at holds
      have mine := (held d t).mpr before
      rw [holds] at mine
      exact absurd (Option.some.inj mine) hu
    · rw [update_of_ne hd]
      exact held d u

/-- A move of one thread changes one summand of `workers`. -/
theorem Counted.move (counted : Counted cfg T workers places) (ht : t < T) {workers' : Nat → Nat}
    (step : cfg.incrementalMemcpy ≠ 0 → ∀ c, workers' c + (places t).worker c =
      workers c + p.worker c)
    (off : cfg.incrementalMemcpy = 0 → workers' = workers) :
    Counted cfg T workers' (update places t p) := by
  intro c
  have old := counted c
  by_cases inc : cfg.incrementalMemcpy ≠ 0
  · rw [if_pos inc] at old ⊢
    have sum := sum_update_add places (Place.worker c) ht p
    have one := step inc c
    omega
  · rw [if_neg inc] at old ⊢
    rw [off (not_not.mp inc), old]

theorem Counted.same (counted : Counted cfg T workers places) (ht : t < T)
    (same : p.counted = (places t).counted) : Counted cfg T workers (update places t p) := by
  refine counted.move ht (fun _ c => ?_) fun _ => rfl
  rw [Place.worker, Place.worker, same]

end Locks

/-! ### The move of one thread -/

section Move
variable {cfg : Config} {T t : Nat} {S S' : State π} {p : Place}

theorem PlaceOk.congr {S S' : System π} (ok : PlaceOk cfg S t p) (calls : S'.calls t = S.calls t)
    (live : ∀ a, p.job = some (.free a) → S.live a ≠ none → S'.live a ≠ none) :
    PlaceOk cfg S' t p := by
  refine ⟨by rw [calls]; exact ok.suspended, ok.request, ?_, fun a job => ?_, ok.read, ok.freeing⟩
  · rw [calls]
    exact ok.resumed
  · exact live a job (ok.claimed a job)

/-- Thread `t` moves to `p`; the others still know what they knew, and none of them frees the
object that `t` frees. -/
theorem Ok.move (ok : Ok cfg T S) (ht : t < T) (places : S'.places = update S.places t p)
    (held : Held S'.holder (update S.places t p))
    (counted : Counted cfg T S'.workers (update S.places t p))
    (others : ∀ u, u ≠ t → PlaceOk cfg S'.sys u (S.places u)) (own : PlaceOk cfg S'.sys t p)
    (claim : ∀ a, p.job = some (.free a) → (S.places t).job = some (.free a) ∨ S.Unclaimed a) :
    Ok cfg T S' := by
  have claimed : ∀ u a, u ≠ t → p.job = some (.free a) → (S.places u).job ≠ some (.free a) := by
    intro u a hu mine his
    rcases claim a mine with mine | unclaimed
    · exact hu (ok.apart u t a his mine)
    · exact unclaimed u his
  refine ⟨fun u ge => ?_, places ▸ held, places ▸ counted, fun u => ?_, fun u v a hu hv => ?_⟩
  · rw [places, update_of_ne (by omega)]
    exact ok.outside u ge
  · rw [places]
    by_cases hu : u = t
    · subst hu
      rwa [update_self]
    · rw [update_of_ne hu]
      exact others u hu
  · rw [places] at hu hv
    by_cases eu : u = t <;> by_cases ev : v = t
    · exact eu.trans ev.symm
    · subst eu
      rw [update_self] at hu
      rw [update_of_ne ev] at hv
      exact absurd hv (claimed v a ev hu)
    · subst ev
      rw [update_self] at hv
      rw [update_of_ne eu] at hu
      exact absurd hu (claimed u a eu hv)
    · rw [update_of_ne eu] at hu
      rw [update_of_ne ev] at hv
      exact ok.apart u v a hu hv

theorem Ok.thread_lt (ok : Ok cfg T S) (busy : S.places t ≠ .idle) : t < T := by
  by_contra ge
  exact busy (ok.outside t (by omega))

/-- Thread `t` moves to a place with the same lock and the same job. -/
theorem Ok.goTo (ok : Ok cfg T S) (ht : t < T)
    (holds : p.holds = (S.places t).holds) (counted : p.counted = (S.places t).counted)
    (job : p.job = (S.places t).job) (own : PlaceOk cfg S.sys t p) : Ok cfg T (S.goTo t p) :=
  ok.move ht rfl (ok.held.same holds) (ok.counted.same ht counted)
    (fun u _ => ok.place u) own fun _ mine => .inl (job ▸ mine)

end Move

/-! ### The code under a lock -/

section Body
variable [AddressPool π] {cfg : Config} {T t c : Nat} {S S' : System π} {job : Job}
  {next : Option Job}

def Job.action (t : Nat) : Job → Action
  | .malloc size => .malloc t size
  | .free a => .free t a
  | .resume => .resume t

/-- A body finds out that it has the wrong lock, or is the step of its job. -/
inductive Ran (cfg : Config) (t c : Nat) (S : System π) : Job → Option Job → System π → Prop where
  | retry {a : Nat} (wrong : rightLock cfg a c S.heap = .ok false) :
      Ran cfg t c S (.free a) (some (.free a)) S
  | done {job : Job} {S' : System π}
      (right : ∀ a, job = .free a → rightLock cfg a c S.heap = .ok true)
      (run : perform cfg S (job.action t) = .ok S') : Ran cfg t c S job (rest t S') S'

theorem malloc_calls {size : Nat} (run : S.malloc cfg t size = .ok S') : S'.calls = S.calls := by
  obtain ⟨⟨_ | a, h⟩, _, run⟩ := bind_eq_ok run <;> cases run <;> rfl

/-- `cf_malloc` is never suspended. -/
theorem runBody_ran (idle : ∀ size, job = .malloc size → S.calls t = none)
    (run : runBody cfg t c S job = .ok (next, S')) : Ran cfg t c S job next S' := by
  cases job with
  | malloc size =>
      obtain ⟨S₁, made, done⟩ := bind_eq_ok run
      cases done
      have none : rest t S' = none := by
        rw [rest, malloc_calls made, idle size rfl]
      exact none ▸ .done (fun _ eq => by cases eq) made
  | free a =>
      obtain ⟨right, check, run⟩ := bind_eq_ok run
      cases right with
      | false =>
          cases run
          exact .retry check
      | true =>
          obtain ⟨S₁, freed, done⟩ := bind_eq_ok run
          cases done
          exact .done (fun b eq => by cases eq; exact check) freed
  | resume =>
      obtain ⟨S₁, resumed, done⟩ := bind_eq_ok run
      cases done
      exact .done (fun _ eq => by cases eq) resumed

/-- A job changes the call of its thread only, and takes no object but the one it frees. -/
theorem perform_others (run : perform cfg S (job.action t) = .ok S') :
    (∀ u, u ≠ t → S'.calls u = S.calls u) ∧
      ∀ a, S.live a ≠ none → job ≠ .free a → S'.live a ≠ none := by
  cases job with
  | malloc size =>
      obtain ⟨⟨_ | b, h⟩, _, run⟩ := bind_eq_ok run
      · cases run
        exact ⟨fun _ _ => rfl, fun _ live _ => live⟩
      · cases run
        refine ⟨fun _ _ => rfl, fun a live _ => ?_⟩
        by_cases same : a = b
        · subst same
          simp
        · simpa [same] using live
  | free b =>
      obtain ⟨⟨call, h⟩, _, run⟩ := bind_eq_ok run
      cases run
      refine ⟨fun u hu => update_of_ne hu _ _, fun a live other => ?_⟩
      have same : a ≠ b := fun eq => other (eq ▸ rfl)
      simpa [same] using live
  | resume =>
      cases hc : S.calls t with
      | none =>
          simp only [Job.action, perform, System.resume, hc] at run
          cases run
          exact ⟨fun _ _ => rfl, fun _ live _ => live⟩
      | some call =>
          simp only [Job.action, perform, System.resume, hc] at run
          obtain ⟨_, _, run⟩ := bind_eq_ok run
          cases run
          exact ⟨fun u hu => update_of_ne hu _ _, fun _ live _ => live⟩

omit [AddressPool π] in
theorem rest_iff (S : System π) : rest t S = some .resume ↔ S.calls t ≠ none := by
  rw [rest]
  cases S.calls t <;> simp

omit [AddressPool π] in
theorem rest_free {a : Nat} : rest t S ≠ some (.free a) := by
  rw [rest]
  cases S.calls t <;> simp

end Body

/-! ### The steps of a thread -/

section Advance
variable [AddressPool π] {cfg : Config} {T t : Nat} {S S' : State π}

/-- `workers` as the locks change it. -/
def State.recount (cfg : Config) (c : Nat) (f : Nat → Nat) (S : State π) : State π :=
  { S with workers := if cfg.incrementalMemcpy ≠ 0 then update S.workers c (f (S.workers c))
      else S.workers }

/-- The steps of thread `t` in a call. -/
inductive Advanced (cfg : Config) (t : Nat) (S : State π) : State π → Prop where
  | request {size : Nat} (place : S.places t = .enter (.malloc size)) :
      Advanced cfg t S (S.goTo t (.count (.malloc size) (requestClass cfg size)))
  | load {a pageBlock : Nat} (place : S.places t = .enter (.free a))
      (load : pageBlockOf cfg a S.sys.heap = .ok pageBlock) :
      Advanced cfg t S (S.goTo t (.read a pageBlock))
  | resume {call : Suspended} (place : S.places t = .enter .resume)
      (suspended : S.sys.calls t = some call) :
      Advanced cfg t S (S.goTo t (.count .resume call.comp.sc))
  | look {a pageBlock : Nat} (place : S.places t = .read a pageBlock) :
      Advanced cfg t S (S.goTo t (.count (.free a) (S.sys.heap.pages (pageOfBlock pageBlock)).sc))
  | count {job : Job} {c : Nat} (place : S.places t = .count job c) :
      Advanced cfg t S ((S.recount cfg c (· + 1)).goTo t (.wait job c))
  | lock {job : Job} {c : Nat} (place : S.places t = .wait job c) (free : S.holder c = none) :
      Advanced cfg t S ({ S with holder := update S.holder c (some t) }.goTo t (.body job c))
  | body {job : Job} {c : Nat} {next : Option Job} {sys : System π}
      (place : S.places t = .body job c) (run : runBody cfg t c S.sys job = .ok (next, sys)) :
      Advanced cfg t S ({ S with sys := sys }.goTo t (.unlock c next))
  | unlock {c : Nat} {next : Option Job} (place : S.places t = .unlock c next) :
      Advanced cfg t S ({ S with holder := update S.holder c none }.goTo t (.discount c next))
  | discount {c : Nat} {next : Option Job} (place : S.places t = .discount c next) :
      Advanced cfg t S ((S.recount cfg c (· - 1)).goTo t (next.elim .idle .enter))

theorem advanced (run : S.advance cfg t = .ok (some S')) : Advanced cfg t S S' := by
  unfold State.advance at run
  cases place : S.places t with
  | idle =>
      rw [place] at run
      cases run
  | enter job =>
      rw [place] at run
      cases job with
      | malloc size =>
          cases run
          exact .request place
      | free a =>
          obtain ⟨pageBlock, load, run⟩ := bind_eq_ok run
          cases run
          exact .load place load
      | resume =>
          dsimp only at run
          split at run
          · cases run
          next suspended =>
            cases run
            exact .resume place suspended
  | read a pageBlock =>
      rw [place] at run
      cases run
      exact .look place
  | count job c =>
      rw [place] at run
      cases run
      exact .count place
  | wait job c =>
      rw [place] at run
      dsimp only at run
      split at run
      next free =>
        cases run
        exact .lock place free
      next => cases run
  | body job c =>
      rw [place] at run
      obtain ⟨⟨next, sys⟩, body, run⟩ := bind_eq_ok run
      cases run
      exact .body place body
  | unlock c next =>
      rw [place] at run
      cases run
      exact .unlock place
  | discount c next =>
      rw [place] at run
      cases run
      exact .discount place

theorem Advanced.places (step : Advanced cfg t S S') : ∃ p, S'.places = update S.places t p := by
  cases step <;> exact ⟨_, rfl⟩

/-- The step leaves the allocator alone, or is the code under a lock. -/
theorem Advanced.sys (step : Advanced cfg t S S') : S'.sys = S.sys ∨
    ∃ job c next, S.places t = .body job c ∧ runBody cfg t c S.sys job = .ok (next, S'.sys) ∧
      S'.places = update S.places t (.unlock c next) := by
  cases step with
  | body place run => exact .inr ⟨_, _, _, place, run, rfl⟩
  | request | load | resume | look | count | lock | unlock | discount => exact .inl rfl

end Advance

/-! ### One step -/

section Step
variable [AddressPool π] [LawfulAddressPool π] {cfg : Config} {T t : Nat}

theorem page_inHeap {h : Heap π} {live : Live} {F : Frames} (good : Good cfg T h live F) {a : Nat}
    (alive : live a ≠ none) : InHeap cfg (pageOfBlock (h.aaWord cfg a)) := by
  have inUse : ∀ {p}, (h.view cfg).InUse p → InHeap cfg p := by
    intro p inUse
    refine (good.heap.range p).mp fun none => ?_
    have flag := (good.heap.page p).flag
    rw [none] at flag
    obtain ⟨unused, without⟩ := flag
    rcases inUse with ⟨i, used⟩ | entries
    · have := (good.heap.page p).used_pos used
      omega
    · have pos : 0 < (h.pages p).sourceentries := entries
      omega
  have word : ∀ b, live b ≠ none → h.aaWord cfg b = (h.view cfg).word b := fun b hb => by
    simp only [Heap.view, good.isAa b (.inl hb), if_true]
  obtain ⟨o, hlive⟩ := Option.ne_none_iff_exists'.mp alive
  by_cases moving : Moving F a
  · obtain ⟨u, f, s, hF, source, rfl⟩ := moving
    obtain ⟨_, _, _, _, _, sok⟩ := good.owns.source_ok hF source
    have placed := sok.carries.placed
    have large := placed.size_ge
    rw [word _ alive, sok.word, placed.pageOfBlock (by omega) (by omega)]
    exact inUse (.inr ((good.owns.entries_pos hF).1 s source))
  · obtain ⟨B, ok⟩ := good.owns.still a o hlive moving
    have placed := ok.carries.placed
    have large := placed.size_ge
    rw [word a alive, ok.word, placed.pageOfBlock le_rfl (by omega)]
    exact inUse (View.used_inUse ok.used)

theorem compactionOn_of (config : cfg.Compacting) : compactionOn cfg := by
  have := config.bound
  simp only [compactionOn]
  omega

omit [AddressPool π] [LawfulAddressPool π] in
/-- A place where nothing is known but the job. -/
theorem PlaceOk.plain {S : System π} {p : Place} (found : p.found = none)
    (read : ∀ a pageBlock, p ≠ .read a pageBlock)
    (suspended : S.calls t ≠ none ↔ p.job = some .resume)
    (claimed : ∀ a, p.job = some (.free a) → S.live a ≠ none) : PlaceOk cfg S t p := by
  refine ⟨suspended, fun _ _ eq => ?_, fun _ _ eq => ?_, claimed,
    fun a pageBlock eq => absurd eq (read a pageBlock), fun _ _ eq => ?_⟩ <;>
  · rw [found] at eq
    cases eq

variable {S S' : State π}

omit [AddressPool π] [LawfulAddressPool π] in
/-- A thread in a body has a step of the allocator before it. -/
theorem Ok.enabled (ok : Ok cfg T S) {job : Job} {c : Nat} (place : S.places t = .body job c) :
    Enabled cfg T S.sys (job.action t) := by
  have here := ok.place t
  rw [place] at here
  have ht : t < T := ok.thread_lt (by rw [place]; exact fun eq => by cases eq)
  have idle : job ≠ .resume → S.sys.calls t = none := by
    intro other
    by_contra busy
    exact other (Option.some.inj (here.suspended.mp busy))
  cases job with
  | malloc size => exact ⟨ht, idle fun eq => by cases eq⟩
  | free a => exact ⟨ht, idle fun eq => (by cases eq), here.claimed a rfl⟩
  | resume => exact here.suspended.mpr rfl

omit [LawfulAddressPool π] in
theorem Ok.body (ok : Ok cfg T S) {job : Job} {c : Nat} (place : S.places t = .body job c)
    {next : Option Job} {sys : System π} (ran : Ran cfg t c S.sys job next sys) :
    Ok cfg T ({ S with sys := sys }.goTo t (.unlock c next)) := by
  have here := ok.place t
  rw [place] at here
  have ht : t < T := ok.thread_lt (by rw [place]; exact fun eq => by cases eq)
  have held : Held S.holder (update S.places t (.unlock c next)) :=
    ok.held.same (by rw [place]; rfl)
  have counted : Counted cfg T S.workers (update S.places t (.unlock c next)) :=
    ok.counted.same ht (by rw [place]; rfl)
  cases ran with
  | @retry a wrong =>
      refine ok.move ht rfl held counted (fun u _ => ok.place u) ?_ fun b mine => .inl ?_
      · exact .plain rfl (fun _ _ eq => by cases eq) here.suspended here.claimed
      · rw [place]
        exact mine
  | done right run =>
      obtain ⟨calls, live⟩ := perform_others run
      refine ok.move ht rfl held counted (fun u hu => ?_) ?_ fun b mine => absurd mine rest_free
      · refine (ok.place u).congr (calls u hu) fun a his alive => live a alive ?_
        rintro rfl
        exact hu (ok.apart u t a his (by rw [place]; rfl))
      · exact .plain rfl (fun _ _ eq => by cases eq) (rest_iff sys).symm
          fun _ mine => absurd mine rest_free

omit [AddressPool π] [LawfulAddressPool π] in
theorem Ok.count (ok : Ok cfg T S) {job : Job} {c : Nat} (place : S.places t = .count job c) :
    Ok cfg T ((S.recount cfg c (· + 1)).goTo t (.wait job c)) := by
  have here := ok.place t
  rw [place] at here
  have ht : t < T := ok.thread_lt (by rw [place]; exact fun eq => by cases eq)
  refine ok.move ht rfl (ok.held.same (by rw [place]; rfl)) ?_ (fun u _ => ok.place u) ?_
    fun a mine => .inl ?_
  · refine ok.counted.move ht (fun inc d => ?_) fun off => if_neg (not_not.mpr off)
    have before : (S.places t).worker d = 0 := by rw [place]; rfl
    have after : (Place.wait job c).worker d = if c = d then 1 else 0 := by
      simp only [Place.worker, Place.counted, Option.some.injEq]
    rw [State.goTo_workers, State.recount, if_pos inc, before, after]
    by_cases hd : d = c
    · subst hd
      simp
    · simp [hd, Ne.symm hd]
  · exact ⟨here.suspended, here.request, here.resumed, here.claimed,
      fun _ _ eq => (by cases eq), here.freeing⟩
  · rw [place]
    exact mine

omit [AddressPool π] [LawfulAddressPool π] in
/-- The thread is not counted any more; it goes on with its call or is done. -/
theorem Ok.discount (ok : Ok cfg T S) {c : Nat} {next : Option Job}
    (place : S.places t = .discount c next) :
    Ok cfg T ((S.recount cfg c (· - 1)).goTo t (next.elim .idle .enter)) := by
  have here := ok.place t
  rw [place] at here
  have ht : t < T := ok.thread_lt (by rw [place]; exact fun eq => by cases eq)
  obtain ⟨job, holds, counted, found⟩ : (next.elim Place.idle Place.enter).job = next ∧
      (next.elim Place.idle Place.enter).holds = none ∧
      (next.elim Place.idle Place.enter).counted = none ∧
      (next.elim Place.idle Place.enter).found = none := by
    cases next <;> exact ⟨rfl, rfl, rfl, rfl⟩
  refine ok.move ht rfl (ok.held.same (by rw [place]; exact holds)) ?_ (fun u _ => ok.place u)
    ?_ fun a mine => .inl ?_
  · refine ok.counted.move ht (fun inc d => ?_) fun off => if_neg (not_not.mpr off)
    have before : (S.places t).worker d = if c = d then 1 else 0 := by
      simp only [place, Place.worker, Place.counted, Option.some.injEq]
    have after : (next.elim Place.idle Place.enter).worker d = 0 := by
      rw [Place.worker, counted]
      rfl
    rw [State.goTo_workers, State.recount, if_pos inc, before, after]
    by_cases hd : d = c
    · subst hd
      -- the thread is one of the workers
      have mine := Finset.single_le_sum (f := fun u => (S.places u).worker d)
        (fun _ _ => Nat.zero_le _) (Finset.mem_range.mpr ht)
      have count := ok.counted d
      rw [if_pos inc] at count
      simp only [before, if_true] at mine
      simp only [update_self, if_true]
      omega
    · simp [hd, Ne.symm hd]
  · refine .plain found (fun a pageBlock eq => ?_) (by rw [job]; exact here.suspended)
      (by rw [job]; exact here.claimed)
    cases next <;> cases eq
  · rw [place]
    exact job ▸ mine

theorem Ok.advance (ok : Ok cfg T S) (sound : Sound cfg T S.sys) (config : cfg.Compacting)
    (step : Advanced cfg t S S') : Ok cfg T S' := by
  have here := ok.place t
  obtain ⟨F, good, _⟩ := sound
  have lt : ∀ {p}, S.places t = p → p ≠ .idle → t < T := fun place busy =>
    ok.thread_lt (place ▸ busy)
  cases step with
  | request place =>
      rw [place] at here
      refine ok.goTo (lt place fun eq => by cases eq) (by rw [place]; rfl) (by rw [place]; rfl)
        (by rw [place]; rfl) ⟨here.suspended, fun _ _ eq => by cases eq; rfl, fun _ _ eq => ?_,
          fun _ eq => ?_, fun _ _ eq => ?_, fun _ _ eq => ?_⟩ <;> cases eq
  | @load a pageBlock place load =>
      rw [place] at here
      have alive := here.claimed a rfl
      have isAa := good.isAa a (.inl alive)
      rw [pageBlockOf, if_pos (compactionOn_of config), Heap.loadAa, if_pos isAa] at load
      cases load
      refine ok.goTo (lt place fun eq => by cases eq) (by rw [place]; rfl) (by rw [place]; rfl)
        (by rw [place]; rfl) ⟨here.suspended, fun _ _ eq => ?_, fun _ _ eq => ?_, here.claimed,
          fun _ _ eq => ?_, fun _ _ eq => ?_⟩ <;> cases eq
      exact page_inHeap good alive
  | @resume call place hc =>
      rw [place] at here
      refine ok.goTo (lt place fun eq => by cases eq) (by rw [place]; rfl) (by rw [place]; rfl)
        (by rw [place]; rfl) ⟨here.suspended, fun _ _ eq => ?_, fun c call' eq hc' => ?_,
          fun _ eq => ?_, fun _ _ eq => ?_, fun _ _ eq => ?_⟩ <;> cases eq
      rw [hc] at hc'
      cases hc'
      rfl
  | look place =>
      rw [place] at here
      refine ok.goTo (lt place fun eq => by cases eq) (by rw [place]; rfl) (by rw [place]; rfl)
        (by rw [place]; rfl) ⟨here.suspended, fun _ _ eq => ?_, fun _ _ eq => ?_, here.claimed,
          fun _ _ eq => ?_, fun _ _ eq => ?_⟩ <;> cases eq
      exact (good.heap.page _).sc_lt
  | count place => exact ok.count place
  | lock place free =>
      rw [place] at here
      have ht := lt place fun eq => by cases eq
      refine ok.move ht rfl (ok.held.take free (by rw [place]; rfl) rfl)
        (ok.counted.same ht (by rw [place]; rfl)) (fun u _ => ok.place u) ?_ fun a mine => .inl ?_
      · exact ⟨here.suspended, here.request, here.resumed, here.claimed,
          fun _ _ eq => (by cases eq), here.freeing⟩
      · rw [place]
        exact mine
  | body place run =>
      refine ok.body place (runBody_ran ?_ run)
      rintro size rfl
      exact (ok.enabled place).2
  | unlock place =>
      rw [place] at here
      have ht := lt place fun eq => by cases eq
      refine ok.move ht rfl (ok.held.drop (by rw [place]; rfl) rfl)
        (ok.counted.same ht (by rw [place]; rfl)) (fun u _ => ok.place u) ?_ fun a mine => .inl ?_
      · exact .plain rfl (fun _ _ eq => (by cases eq)) here.suspended here.claimed
      · rw [place]
        exact mine
  | discount place => exact ok.discount place

end Step
end
end ClassLock
end CompactFit
