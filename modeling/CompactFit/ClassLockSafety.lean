import CompactFit.ClassLockInvariant

/-!
Safety of the calls with class locks. Every state of the allocator that they reach is one that
calls without locks reach, where each call is a single step up to the points where a compaction
gives its lock up. A `cf_free` that has taken the lock of another class goes back, at most as
often as its object has moved.
-/

namespace CompactFit
namespace ClassLock
open Function ByteMemory AddressPool LawfulAddressPool AddressBuckets

section
variable {π : Type} [AddressPool π]

/-! ### Steps -/

section Step
variable {cfg : Config} {T t : Nat} {S S' : State π} {e : Option Event}

omit [AddressPool π] in
theorem ok_init (cfg : Config) (T : Nat) (addresses : π) : Ok cfg T (State.init cfg addresses) := by
  refine ⟨fun _ _ => rfl, fun c t => ?_, fun c => ?_, fun t => ?_, fun t u a mine => by cases mine⟩
  · exact ⟨fun eq => (by cases eq), fun eq => (by cases eq)⟩
  · have none : ∑ t ∈ Finset.range T, Place.worker c .idle = 0 :=
      Finset.sum_eq_zero fun _ _ => rfl
    simp only [State.init, none, ite_self]
  · exact .plain rfl (fun _ _ eq => by cases eq)
      ⟨fun busy => absurd rfl busy, fun eq => by cases eq⟩
      fun _ eq => by cases eq

/-- A write keeps the calls, and the objects with their classes. -/
theorem write_same {S S' : System π} {a j : Nat} {x : UInt8} (run : S.write cfg a j x = .ok S') :
    S'.calls = S.calls ∧ ∀ b, (S'.live b).map Obj.sc = (S.live b).map Obj.sc := by
  cases hlive : S.live a with
  | none =>
      simp only [System.write, hlive] at run
      cases run
      exact ⟨rfl, fun _ => rfl⟩
  | some o =>
      simp only [System.write, hlive] at run
      obtain ⟨_, _, run⟩ := bind_eq_ok run
      cases run
      refine ⟨rfl, fun b => ?_⟩
      by_cases same : b = a
      · subst same
        simp [hlive]
      · simp [same]

variable [LawfulAddressPool π]

theorem Ok.step (ok : Ok cfg T S) (sound : Sound cfg T S.sys) (config : cfg.Compacting)
    (step : Step cfg T S e S') : Ok cfg T S' := by
  cases step with
  | @call t job ht idle proper =>
      have here := ok.place t
      rw [idle] at here
      have calm : S.sys.calls t = none := by
        by_contra busy
        cases here.suspended.mp busy
      refine ok.move ht rfl (ok.held.same (by rw [idle]; rfl))
        (ok.counted.same ht (by rw [idle]; rfl)) (fun u _ => ok.place u) ?_ ?_
      · refine .plain rfl (fun _ _ eq => by cases eq) ?_ ?_
        · refine ⟨fun busy => absurd calm busy, fun eq => ?_⟩
          cases eq
          exact proper.elim
        · rintro a ⟨⟩
          exact proper.1
      · rintro a ⟨⟩
        exact .inr proper.2
  | advance run => exact ok.advance sound config (advanced run)
  | read => exact ok
  | write access run =>
      obtain ⟨calls, live⟩ := write_same run
      refine ⟨ok.outside, ok.held, ok.counted, fun u => (ok.place u).congr (by rw [calls]) ?_,
        ok.apart⟩
      intro a _ alive dead
      have same := live a
      rw [dead] at same
      exact alive (Option.map_eq_none_iff.mp same.symm)

omit [LawfulAddressPool π] in
theorem Ok.atomic (ok : Ok cfg T S) (step : Step cfg T S e S') : S'.sys = S.sys ∨
    ∃ a, Enabled cfg T S.sys a ∧ CompactFit.Clean cfg S.sys a ∧
      perform cfg S.sys a = .ok S'.sys := by
  cases step with
  | call | read => exact .inl rfl
  | @advance _ t run clean =>
      rcases (advanced run).sys with same | ⟨job, c, next, place, body, _⟩
      · exact .inl same
      · have idle : ∀ size, job = .malloc size → S.sys.calls t = none := by
          rintro size rfl
          exact (ok.enabled place).2
        generalize S'.sys = sys at body
        cases runBody_ran idle body with
        | retry => exact .inl rfl
        | done right done =>
            refine .inr ⟨_, ok.enabled place, ?_, done⟩
            cases job with
            | malloc size => exact clean size c place
            | free | resume => trivial
  | @write sys a j x access run => exact .inr ⟨.write a j x, access.2, trivial, run⟩

end Step

section Reached
variable [LawfulAddressPool π] {cfg : Config} {T t : Nat} {addresses : π} {S : State π}
  {es : List Event}

/-- The calls with locks reach no state of the allocator but those that atomic calls reach. -/
theorem reached_ok (config : cfg.Compacting) (once : cfg.memcpyMultiplicator = 1)
    (valid : Valid cfg.toAddressConfig T (fun _ => False) addresses)
    (reached : (machine cfg T addresses).Reached es S) :
    Reachable cfg T addresses S.sys ∧ Ok cfg T S := by
  refine reached.invariant (I := fun S => Reachable cfg T addresses S.sys ∧ Ok cfg T S) ?_
    fun S e S' ⟨run, ok⟩ step => ⟨?_, ?_⟩
  · rintro _ rfl
    exact ⟨.init, ok_init cfg T addresses⟩
  · rcases ok.atomic step with same | ⟨a, enabled, clean, done⟩
    · rwa [same]
    · exact .step a run enabled clean done
  · exact ok.step (run.sound config once valid) config step

theorem malloc_fresh {h h' : Heap π} {live : Live} {F : Frames} (good : Good cfg T h live F)
    (config : cfg.Compacting) (ht : t < T) {size a : Nat}
    (run : cfMalloc cfg t size h = .ok (some a, h')) : ¬ Out live F a := by
  have outcome := cfMalloc_spec good ht config size
  rw [run] at outcome
  cases outcome with
  | named _ _ _ allocated => exact allocated.fresh

/-- A job leaves the objects alone that it does not free. -/
theorem job_live {S S' : System π} (sound : Sound cfg T S) (config : cfg.Compacting) {job : Job}
    (enabled : Enabled cfg T S (job.action t)) (run : perform cfg S (job.action t) = .ok S')
    {a : Nat}
    (alive : S.live a ≠ none) (other : job ≠ .free a) : S'.live a = S.live a := by
  obtain ⟨F, good, _⟩ := sound
  cases job with
  | malloc size =>
      obtain ⟨⟨_ | b, h⟩, made, run⟩ := bind_eq_ok run
      · cases run
        rfl
      · cases run
        refine update_of_ne ?_ _ _
        rintro rfl
        exact malloc_fresh good config enabled.1 made (.inl alive)
  | free b =>
      obtain ⟨⟨call, h⟩, _, run⟩ := bind_eq_ok run
      cases run
      have ne : a ≠ b := fun eq => other (eq ▸ rfl)
      exact update_of_ne ne _ _
  | resume =>
      obtain ⟨call, hc⟩ := Option.ne_none_iff_exists'.mp enabled
      simp only [Job.action, perform, System.resume, hc] at run
      obtain ⟨_, _, run⟩ := bind_eq_ok run
      cases run
      rfl

omit [LawfulAddressPool π] in
theorem rightLock_iff {S : System π} (config : cfg.Compacting) {a c : Nat} {right : Bool}
    (run : rightLock cfg a c S.heap = .ok right) : right = decide (freeClass cfg a S.heap = c) := by
  rw [rightLock, if_pos (compactionOn_of config)] at run
  obtain ⟨pageBlock, load, run⟩ := bind_eq_ok run
  cases run
  rw [Heap.loadAa] at load
  split at load
  · cases load
    rfl
  · cases load

/-- The code under the lock of class `c` changes the lists and counters of class `c` only. -/
theorem Ok.own_class (ok : Ok cfg T S) (sound : Sound cfg T S.sys) (config : cfg.Compacting)
    (once : cfg.memcpyMultiplicator = 1) {job : Job} {c : Nat} (place : S.places t = .body job c)
    {next : Option Job} {sys : System π} (body : runBody cfg t c S.sys job = .ok (next, sys))
    {d : Nat} (hd : d ≠ c) : sys.heap.classes d = S.sys.heap.classes d := by
  have here := ok.place t
  rw [place] at here
  have enabled := ok.enabled place
  obtain ⟨F, good, answers⟩ := sound
  cases runBody_ran (by rintro size rfl; exact enabled.2) body with
  | retry => rfl
  | done right step =>
      cases job with
      | malloc size =>
          have same : c = requestClass cfg size := here.request size c rfl
          subst same
          have outcome := cfMalloc_spec good enabled.1 config size
          obtain ⟨r, made, step⟩ := bind_eq_ok step
          rw [made] at outcome
          cases outcome with
          | noPage =>
              cases step
              rfl
          | noAddress _ _ taken =>
              cases step
              exact taken.classes d hd
          | named _ taken _ allocated =>
              cases step
              exact (congrFun allocated.classes d).trans (taken.classes d hd)
      | free a =>
          have same := rightLock_iff config (right a rfl)
          obtain ⟨o, hlive⟩ := Option.ne_none_iff_exists'.mp enabled.2.2
          obtain ⟨r, freed, step⟩ := bind_eq_ok step
          cases step
          obtain ⟨_, done⟩ := (cfFree_spec good (answers_idle answers enabled.2.1) enabled.1
            (answers_parked answers t) config hlive).of_ok freed
          exact done.charged.other d fun eq => hd (eq.trans (of_decide_eq_true same.symm))
      | resume =>
          obtain ⟨call, hc⟩ := Option.ne_none_iff_exists'.mp enabled
          simp only [Job.action, perform, System.resume, hc] at step
          obtain ⟨r, resumed, step⟩ := bind_eq_ok step
          cases step
          obtain ⟨f, hF, waiting⟩ := answers_call answers hc
          obtain ⟨_, done⟩ := (resumeFree_spec good hF waiting config fun _ => once).of_ok resumed
          exact done.returned.other d (here.resumed c call rfl hc ▸ hd)

/-- The thread has a next step, it has just looked up a size that is not in the table, or it
returns an identifier and has no empty bucket for it. -/
def Goes (cfg : Config) (T t : Nat) (S : State π) : Prop :=
  (∃ S', S.advance cfg t = .ok (some S')) ∨
    (S.advance cfg t = .error .noSizeClass ∧
      ∃ size c, S.places t = .body (.malloc size) c ∧ adjustedSize cfg size = largestSc) ∨
    (S.advance cfg t = .error .emptyBucket ∧ ¬ Robust (π := π) cfg.toAddressConfig T)

structure Safe (cfg : Config) (T : Nat) (S : State π) : Prop where
  exclusive : ∀ c t u, (S.places t).holds = some c → (S.places u).holds = some c → t = u
  workers : Counted cfg T S.workers S.places
  goes : ∀ t, S.places t ≠ .idle → Goes cfg T t S ∨
    ∃ job c u, S.places t = .wait job c ∧ S.holder c = some u ∧ Goes cfg T u S
  own : ∀ t job c next sys, S.places t = .body job c →
    runBody cfg t c S.sys job = .ok (next, sys) →
      ∀ d, d ≠ c → sys.heap.classes d = S.sys.heap.classes d
  lock : ∀ t a c, (S.places t).found = some (.free a, c) → c < sizeClasses
  read : ∀ t a pageBlock, S.places t = .read a pageBlock → InHeap cfg (pageOfBlock pageBlock)

/-- The code under a lock fails only for a size that is not in the table, and for the lack of
an address bucket. -/
theorem Ok.body_goes (ok : Ok cfg T S) (sound : Sound cfg T S.sys) (config : cfg.Compacting)
    (once : cfg.memcpyMultiplicator = 1) {job : Job} {c : Nat}
    (place : S.places t = .body job c) : Goes cfg T t S := by
  have enabled := ok.enabled place
  have done : ∀ {r}, runBody cfg t c S.sys job = .ok r → Goes cfg T t S := fun {r} run => by
    refine .inl ⟨({ S with sys := r.2 } : State π).goTo t (.unlock c r.1), ?_⟩
    simp only [State.advance, place, run]
    rfl
  have lacks : runBody cfg t c S.sys job = .error .emptyBucket →
      ¬ Robust (π := π) cfg.toAddressConfig T → Goes cfg T t S := fun run robust => by
    refine .inr (.inr ⟨?_, robust⟩)
    simp only [State.advance, place, run]
    rfl
  have steps := sound.steps config once _ enabled
  obtain ⟨F, good, _⟩ := sound
  cases job with
  | malloc size =>
      rcases steps with ⟨S', run⟩ | ⟨run, _, _, eq, adjusted⟩ | ⟨run, robust⟩ <;>
        simp only [Job.action, perform] at run
      · refine done (r := (none, S')) ?_
        simp only [runBody, run, ok_bind]
        rfl
      · cases eq
        refine .inr (.inl ⟨?_, size, c, place, adjusted⟩)
        simp only [State.advance, place, runBody, run]
        rfl
      · refine lacks ?_ robust
        simp only [runBody, run]
        rfl
  | free a =>
      have isAa := good.isAa a (.inl enabled.2.2)
      have test : rightLock cfg a c S.sys.heap =
          .ok (decide ((S.sys.heap.pages (pageOfBlock (S.sys.heap.aaWord cfg a))).sc = c)) := by
        rw [rightLock, if_pos (compactionOn_of config), Heap.loadAa, if_pos isAa]
        rfl
      by_cases right : (S.sys.heap.pages (pageOfBlock (S.sys.heap.aaWord cfg a))).sc = c
      · rcases steps with ⟨S', run⟩ | ⟨_, _, _, eq, _⟩ | ⟨run, robust⟩
        · simp only [Job.action, perform] at run
          refine done (r := (rest t S', S')) ?_
          simp only [runBody, test, right, ok_bind, decide_true, if_true, run]
          rfl
        · cases eq
        · simp only [Job.action, perform] at run
          refine lacks ?_ robust
          simp only [runBody, test, right, ok_bind, decide_true, if_true, run]
          rfl
      · refine done (r := (some (.free a), S.sys)) ?_
        simp only [runBody, test, right, ok_bind, decide_false]
        rfl
  | resume =>
      rcases steps with ⟨S', run⟩ | ⟨_, _, _, eq, _⟩ | ⟨run, robust⟩
      · simp only [Job.action, perform] at run
        refine done (r := (rest t S', S')) ?_
        simp only [runBody, run, ok_bind]
        rfl
      · cases eq
      · simp only [Job.action, perform] at run
        refine lacks ?_ robust
        simp only [runBody, run]
        rfl

/-- Only the lock of a class holds a thread up, and its holder goes on. -/
theorem Ok.goes (ok : Ok cfg T S) (sound : Sound cfg T S.sys) (config : cfg.Compacting)
    (once : cfg.memcpyMultiplicator = 1) (busy : S.places t ≠ .idle) : Goes cfg T t S ∨
      ∃ job c u, S.places t = .wait job c ∧ S.holder c = some u ∧ Goes cfg T u S := by
  have here := ok.place t
  cases place : S.places t with
  | idle => exact absurd place busy
  | enter job =>
      rw [place] at here
      refine .inl (.inl ?_)
      cases job with
      | malloc size => exact ⟨_, by rw [State.advance, place]⟩
      | free a =>
          obtain ⟨F, good, _⟩ := sound
          have isAa := good.isAa a (.inl (here.claimed a rfl))
          refine ⟨S.goTo t (.read a (S.sys.heap.aaWord cfg a)), ?_⟩
          simp only [State.advance, place, pageBlockOf, compactionOn_of config, if_true,
            Heap.loadAa, isAa, ok_bind]
          rfl
      | resume =>
          obtain ⟨call, hc⟩ := Option.ne_none_iff_exists'.mp (here.suspended.mpr rfl)
          exact ⟨_, by simp only [State.advance, place, hc]; rfl⟩
  | read | count | unlock | discount => exact .inl (.inl ⟨_, by rw [State.advance, place]⟩)
  | wait job c =>
      cases holder : S.holder c with
      | none => exact .inl (.inl ⟨_, by simp only [State.advance, place, holder, if_true]; rfl⟩)
      | some u =>
          refine .inr ⟨job, c, u, rfl, holder, ?_⟩
          have holds := (ok.held c u).mp holder
          cases at_ : S.places u with
          | body job d => exact ok.body_goes sound config once at_
          | unlock => exact .inl ⟨_, by rw [State.advance, at_]⟩
          | idle | enter | read | count | wait | discount =>
              rw [at_] at holds
              cases holds
  | body => exact .inl (ok.body_goes sound config once place)

theorem Ok.safe (ok : Ok cfg T S) (sound : Sound cfg T S.sys) (config : cfg.Compacting)
    (once : cfg.memcpyMultiplicator = 1) : Safe cfg T S := by
  refine ⟨fun c t u mine his => ?_, ok.counted, fun t => ok.goes sound config once,
    fun t job c next sys place run d hd => ok.own_class sound config once place run hd,
    fun t a c found => (ok.place t).freeing a c found, fun t a b at_ => (ok.place t).read a b at_⟩
  have mine := (ok.held c t).mpr mine
  have his := (ok.held c u).mpr his
  rw [mine] at his
  exact Option.some.inj his

end Reached

/-! ### Runs given as lists -/

/-- A call of the application, a step of a thread, or an access to an object. -/
inductive Move where
  | call (t : Nat) (job : Job)
  | advance (t : Nat)
  | read (a j : Nat)
  | write (a j : Nat) (x : UInt8)

/-- A call with its first `k` steps. -/
def Move.run (t : Nat) (job : Job) (k : Nat) : List Move :=
  .call t job :: List.replicate k (.advance t)

section Script
variable {cfg : Config} {T t a j : Nat} {addresses : π} {S S' : State π}

def unclaimedFor (T a : Nat) (S : State π) : Bool :=
  (List.range T).all fun u => (S.places u).job ≠ some (.free a)

def properFor (T : Nat) (S : State π) : Job → Bool
  | .malloc _ => true
  | .free a => (S.sys.live a).isSome && unclaimedFor T a S
  | .resume => false

def cleanFor (cfg : Config) (T t : Nat) (S : State π) : Bool :=
  match S.places t with
  | .body (.malloc size) _ => ready cfg T S.sys (.malloc t size)
  | _ => true

def accessibleFor (cfg : Config) (T a j : Nat) (S : State π) : Bool :=
  unclaimedFor T a S &&
    ((List.range T).all fun t => (S.sys.calls t).all fun call => call.comp.srcAa ≠ a) &&
    (S.sys.live a).any fun o => j < o.size && j < View.userBytes cfg (blockSize o.sc)

def State.move (cfg : Config) (T : Nat) (S : State π) : Move → Option (Option Event × State π)
  | .call t job =>
      if t < T && S.places t = .idle && properFor T S job then some (none, S.goTo t (.enter job))
      else none
  | .advance t =>
      if cleanFor cfg T t S then
        match S.advance cfg t with
        | .ok (some S') => some (S.event cfg t, S')
        | _ => none
      else none
  | .read a j =>
      if accessibleFor cfg T a j S then
        match cfDereference cfg a j S.sys.heap with
        | .ok byte => some (some (.read a j (S.sys.heap.memory byte)), S)
        | .error _ => none
      else none
  | .write a j x =>
      if accessibleFor cfg T a j S then
        match S.sys.write cfg a j x with
        | .ok sys => some (some (.write a j x), { S with sys := sys })
        | .error _ => none
      else none

def script (cfg : Config) (T : Nat) (moves : List Move) (start : List Event × State π) :
    Option (List Event × State π) :=
  moves.foldlM (fun now move => (now.2.move cfg T move).map fun next =>
    (now.1 ++ next.1.toList, next.2)) start

omit [AddressPool π] in
theorem unclaimedFor_sound (ok : Ok cfg T S) (h : unclaimedFor T a S = true) : S.Unclaimed a := by
  intro u mine
  by_cases hu : u < T
  · simp only [unclaimedFor, List.all_eq_true, decide_eq_true_eq] at h
    exact h u (List.mem_range.mpr hu) mine
  · rw [ok.outside u (by omega)] at mine
    cases mine

omit [AddressPool π] in
theorem properFor_sound (ok : Ok cfg T S) {job : Job} (h : properFor T S job = true) :
    S.Proper job := by
  cases job with
  | malloc => trivial
  | free a =>
      simp only [properFor, Bool.and_eq_true] at h
      exact ⟨Option.isSome_iff_ne_none.mp h.1, unclaimedFor_sound ok h.2⟩
  | resume => cases h

theorem cleanFor_sound (h : cleanFor cfg T t S = true) : S.Clean cfg t := by
  intro size c place
  rw [cleanFor, place] at h
  exact (ready_sound h).2

omit [AddressPool π] in
theorem accessibleFor_sound (ok : Ok cfg T S) (h : accessibleFor cfg T a j S = true) :
    S.Accessible cfg T a j := by
  simp only [accessibleFor, Bool.and_eq_true, List.all_eq_true, List.mem_range,
    Option.all_eq_true, Option.any_eq_true, decide_eq_true_eq] at h
  obtain ⟨⟨unclaimed, still⟩, o, hlive, inside, user⟩ := h
  refine ⟨unclaimedFor_sound ok unclaimed, fun t call hc => ?_, o, hlive, inside, user⟩
  refine still t ?_ call hc
  by_contra ge
  have here := ok.place t
  rw [ok.outside t (by omega)] at here
  cases here.suspended.mp (by rw [hc]; simp)

theorem move_sound (ok : Ok cfg T S) {move : Move} {e : Option Event}
    (h : S.move cfg T move = some (e, S')) : Step cfg T S e S' := by
  cases move with
  | call t job =>
      simp only [State.move] at h
      split at h
      next possible =>
        simp only [Bool.and_eq_true, decide_eq_true_eq] at possible
        obtain ⟨⟨ht, idle⟩, proper⟩ := possible
        cases h
        exact .call ht idle (properFor_sound ok proper)
      next => cases h
  | advance t =>
      simp only [State.move] at h
      split at h
      next clean =>
        split at h
        next run =>
          cases h
          exact .advance run (cleanFor_sound clean)
        next => cases h
      next => cases h
  | read a j =>
      simp only [State.move] at h
      split at h
      next access =>
        split at h
        next run =>
          cases h
          exact .read (accessibleFor_sound ok access) run
        next => cases h
      next => cases h
  | write a j x =>
      simp only [State.move] at h
      split at h
      next access =>
        split at h
        next run =>
          cases h
          exact .write (accessibleFor_sound ok access) run
        next => cases h
      next => cases h

variable [LawfulAddressPool π]

theorem reached_of_script (config : cfg.Compacting) (once : cfg.memcpyMultiplicator = 1)
    (valid : Valid cfg.toAddressConfig T (fun _ => False) addresses) {moves : List Move}
    {start now : List Event × State π}
    (reached : (machine cfg T addresses).Reached start.1 start.2)
    (h : script cfg T moves start = some now) :
    (machine cfg T addresses).Reached now.1 now.2 := by
  induction moves generalizing start with
  | nil =>
      cases h
      exact reached
  | cons move moves ih =>
      rw [script, List.foldlM_cons] at h
      obtain ⟨next, first, h⟩ := Option.bind_eq_some_iff.mp h
      obtain ⟨⟨e, S⟩, made, rfl⟩ := Option.map_eq_some_iff.mp first
      have step := move_sound (reached_ok config once valid reached).2 made
      obtain ⟨S₀, init, run⟩ := reached
      exact ih ⟨S₀, init, run.step step⟩ h

end Script

/-- Calls with class locks are safe, for any number of threads. -/
theorem class_locks_safe (cfg : Config) (config : cfg.Compacting)
    (once : cfg.memcpyMultiplicator = 1) (T : Nat) (es : List Event) (S : State AddressBuckets)
    (reached : (machine cfg T (initFreeAaList cfg.toAddressConfig)).Reached es S) :
    Reachable cfg T (initFreeAaList cfg.toAddressConfig) S.sys ∧ Safe cfg T S := by
  obtain ⟨run, ok⟩ := reached_ok config once (valid_init _ T) reached
  exact ⟨run, ok.safe (run.sound config once (valid_init _ T)) config once⟩

theorem script_any (cfg : Config) (config : cfg.Compacting)
    (once : cfg.memcpyMultiplicator = 1) (T : Nat) (moves : List Move)
    {p : List Event × State AddressBuckets → Bool}
    (h : (script cfg T moves
      ([], State.init cfg (initFreeAaList cfg.toAddressConfig))).any p = true) :
    ∃ es S, (machine cfg T (initFreeAaList cfg.toAddressConfig)).Reached es S ∧
      p (es, S) = true := by
  obtain ⟨⟨es, S⟩, run, ok⟩ := (Option.any_eq_true _ _).mp h
  exact ⟨es, S, reached_of_script config once (valid_init _ T) ⟨_, rfl, .refl _⟩ run, ok⟩

/-- A thread waits for the lock of a class, and another thread is in the body of a `cf_free`. -/
theorem class_locks_safe_waiting : ∃ S : State AddressBuckets,
    S.places 0 = .wait (.free 1048828) 48 ∧ S.places 1 = .body (.free 1048812) 48 ∧
      Safe smallConfig 2 S := by
  obtain ⟨es, S, reached, found⟩ := script_any smallConfig smallConfig_compacting rfl 2
    (Move.run 0 (.malloc 7000) 6 ++ Move.run 0 (.malloc 7000) 6 ++ Move.run 0 (.malloc 7000) 6 ++
      Move.run 0 (.malloc 7000) 6 ++ Move.run 0 (.malloc 7000) 6 ++ Move.run 1 (.free 1048812) 4 ++
      Move.run 0 (.free 1048828) 3)
    (p := fun now => now.2.places 0 = .wait (.free 1048828) 48 ∧
      now.2.places 1 = .body (.free 1048812) 48)
    (by decide +kernel)
  obtain ⟨waiting, body⟩ := of_decide_eq_true found
  exact ⟨S, waiting, body, (class_locks_safe smallConfig smallConfig_compacting rfl 2 es S
    reached).2⟩

end
end ClassLock
end CompactFit
