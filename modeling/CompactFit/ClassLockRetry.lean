import CompactFit.ClassLockSafety

/-!
How often a `cf_free` takes the lock of a wrong class. It reads the class of the page its
object was in, and the page may have been given to another class in the meantime. Each time
this happens the object has moved to another page since the class was read.
-/

namespace CompactFit
namespace ClassLock
open Function ByteMemory AddressPool LawfulAddressPool AddressBuckets

section
variable {π : Type} [AddressPool π]

def State.pageOf (cfg : Config) (a : Nat) (S : State π) : Nat :=
  pageOfBlock (S.sys.heap.aaWord cfg a)

def moved (cfg : Config) (a : Nat) (S S' : State π) : Nat :=
  if S'.pageOf cfg a = S.pageOf cfg a then 0 else 1

omit [AddressPool π] in
/-- 1 if thread `t` finds out that it has the wrong lock. -/
def retried (t : Nat) (S S' : State π) : Nat :=
  match S.places t, S'.places t with
  | .body .., .unlock _ (some (.free _)) => 1
  | _, _ => 0

/-- A `cf_free` of the object at `a` by thread `t` that has not freed it yet, with the number
of wrong locks it took and of the moves of the object since a time at its start. -/
inductive Tried (cfg : Config) (T : Nat) (addresses : π) (t a : Nat) :
    State π → Nat → Nat → Prop where
  | start {S : State π} {es : List Event} (reached : (machine cfg T addresses).Reached es S)
      (place : S.places t = .enter (.free a)) : Tried cfg T addresses t a S 0 0
  | step {S S' : State π} {e : Option Event} {r m : Nat} (before : Tried cfg T addresses t a S r m)
      (step : Step cfg T S e S') (still : (S'.places t).job = some (.free a)) :
      Tried cfg T addresses t a S' (r + retried t S S') (m + moved cfg a S S')

/-- What the thread has read is still right, or the object has moved once more than the thread
has noticed. -/
structure Informed (cfg : Config) (t a : Nat) (S : State π) (r m : Nat) : Prop where
  job : (S.places t).job = some (.free a)
  le : r ≤ m
  read : ∀ b pageBlock, S.places t = .read b pageBlock →
    pageOfBlock pageBlock = S.pageOf cfg a ∨ r < m
  found : ∀ job c, (S.places t).found = some (job, c) →
    (S.sys.live a).map Obj.sc = some c ∨ r < m

section Step
variable {cfg : Config} {T t a r m : Nat} {S S' : State π} {e : Option Event}

/-- A step moves one thread, which makes the step. -/
theorem Step.place (step : Step cfg T S e S') (busy : S.places t ≠ .idle) :
    S'.places t = S.places t ∨ Advanced cfg t S S' := by
  cases step with
  | @call u job ht idle proper =>
      have ne : t ≠ u := fun eq => busy (eq ▸ idle)
      exact .inl (update_of_ne ne _ _)
  | @advance _ u run clean =>
      by_cases ne : t = u
      · exact .inr (ne ▸ advanced run)
      · obtain ⟨p, places⟩ := (advanced run).places
        exact .inl (by rw [places, update_of_ne ne])
  | read | write => exact .inl rfl

variable [LawfulAddressPool π]

/-- The object of a `cf_free` that goes on keeps its class. -/
theorem Step.class_same (step : Step cfg T S e S') (ok : Ok cfg T S) (sound : Sound cfg T S.sys)
    (config : cfg.Compacting) (mine : (S.places t).job = some (.free a))
    (still : (S'.places t).job = some (.free a)) :
    (S'.sys.live a).map Obj.sc = (S.sys.live a).map Obj.sc := by
  cases step with
  | call | read => rfl
  | write access run => exact (write_same run).2 a
  | @advance _ u run clean =>
      rcases (advanced run).sys with same | ⟨job, c, next, place, body, places⟩
      · rw [same]
      · have enabled := ok.enabled place
        have alive := (ok.place t).claimed a mine
        generalize S'.sys = sys at body
        cases runBody_ran (by rintro size rfl; exact enabled.2) body with
        | retry => rfl
        | done right done =>
            rw [job_live sound config enabled done alive]
            rintro rfl
            have same : u = t := ok.apart u t a (by rw [place]; rfl) mine
            subst same
            rw [places, update_self] at still
            exact rest_free still

theorem pageOf_class (sound : Sound cfg T S.sys) {c : Nat}
    (hc : (S.sys.live a).map Obj.sc = some c) : (S.sys.heap.pages (S.pageOf cfg a)).sc = c := by
  obtain ⟨F, good, _⟩ := sound
  obtain ⟨o, hlive, rfl⟩ := Option.map_eq_some_iff.mp hc
  exact (good.intact hlive).sc

theorem rightLock_of_class (sound : Sound cfg T S.sys) (config : cfg.Compacting) {c : Nat}
    (hc : (S.sys.live a).map Obj.sc = some c) : rightLock cfg a c S.sys.heap = .ok true := by
  have sc : (S.sys.heap.pages (pageOfBlock (S.sys.heap.aaWord cfg a))).sc = c :=
    pageOf_class sound hc
  obtain ⟨F, good, _⟩ := sound
  obtain ⟨o, hlive, _⟩ := Option.map_eq_some_iff.mp hc
  have isAa := good.isAa a (.inl (by rw [hlive]; simp))
  rw [rightLock, if_pos (compactionOn_of config), Heap.loadAa, if_pos isAa, ok_bind, sc,
    decide_eq_true rfl]
  rfl

omit [AddressPool π] [LawfulAddressPool π] in
theorem retried_of_same (same : S'.places t = S.places t) : retried t S S' = 0 := by
  rw [retried, same]
  split
  next body unlock =>
    rw [body] at unlock
    cases unlock
  next => rfl

omit [LawfulAddressPool π] in
theorem Informed.stay (informed : Informed cfg t a S r m) (same : S'.places t = S.places t)
    (live : (S'.sys.live a).map Obj.sc = (S.sys.live a).map Obj.sc) :
    Informed cfg t a S' (r + retried t S S') (m + moved cfg a S S') := by
  rw [retried_of_same same]
  have le := informed.le
  refine ⟨by rw [same]; exact informed.job, by omega, fun b pageBlock at_ => ?_,
    fun job c at_ => ?_⟩
  · rw [same] at at_
    rw [moved]
    split
    next page =>
      rw [page]
      exact (informed.read b pageBlock at_).imp_right (by omega)
    next => exact .inr (by omega)
  · rw [same] at at_
    rw [live]
    exact (informed.found job c at_).imp_right (by omega)

omit [LawfulAddressPool π] in
/-- A step of the thread outside the code under the lock: the allocator is not touched, and
nothing is retried. -/
theorem Informed.plain (informed : Informed cfg t a S r m)
    (still : (S'.places t).job = some (.free a)) {p : Place}
    (places : S'.places = update S.places t p) (sys : S'.sys = S.sys)
    (noUnlock : ∀ c next, p ≠ .unlock c next)
    (read : ∀ b pageBlock, p = .read b pageBlock → pageOfBlock pageBlock = S.pageOf cfg a)
    (found : ∀ job c, p.found = some (job, c) → (S.sys.live a).map Obj.sc = some c ∨ r < m) :
    Informed cfg t a S' (r + retried t S S') (m + moved cfg a S S') := by
  have zero : retried t S S' = 0 := by
    rw [retried, places, update_self]
    split
    next => exact absurd rfl (noUnlock _ _)
    next => rfl
  have page : S'.pageOf cfg a = S.pageOf cfg a := by rw [State.pageOf, sys, State.pageOf]
  rw [zero, moved, if_pos page]
  refine ⟨still, informed.le, fun b pageBlock at_ => ?_, fun job c at_ => ?_⟩
  · rw [places, update_self] at at_
    exact .inl ((read b pageBlock at_).trans page.symm)
  · rw [places, update_self] at at_
    rw [sys]
    exact found job c at_

/-- The thread itself moves, and has not freed its object. -/
theorem Informed.advance (informed : Informed cfg t a S r m) (ok : Ok cfg T S)
    (sound : Sound cfg T S.sys) (config : cfg.Compacting) (step : Advanced cfg t S S')
    (still : (S'.places t).job = some (.free a)) :
    Informed cfg t a S' (r + retried t S S') (m + moved cfg a S S') := by
  have mine := informed.job
  cases step with
  | request place | resume place =>
      rw [place] at mine
      cases mine
  | @load b pageBlock place load =>
      rw [place] at mine
      cases mine
      refine informed.plain still rfl rfl (fun _ _ eq => by cases eq) (fun _ _ eq => ?_)
        fun _ _ eq => by cases eq
      cases eq
      rw [pageBlockOf, if_pos (compactionOn_of config), Heap.loadAa] at load
      split at load
      · cases load
        rfl
      · cases load
  | @look b pageBlock place =>
      rw [place] at mine
      cases mine
      refine informed.plain still rfl rfl (fun _ _ eq => by cases eq)
        (fun _ _ eq => by cases eq) fun _ _ eq => ?_
      cases eq
      refine (informed.read a pageBlock place).imp_left fun page => ?_
      obtain ⟨o, hlive⟩ := Option.ne_none_iff_exists'.mp
        ((ok.place t).claimed a (by rw [place]; rfl))
      have sc : (S.sys.live a).map Obj.sc = some o.sc := by rw [hlive]; rfl
      rw [page, pageOf_class sound sc, sc]
  | count place | lock place =>
      refine informed.plain still rfl rfl (fun _ _ eq => by cases eq)
        (fun _ _ eq => by cases eq) fun _ _ eq => ?_
      cases eq
      exact informed.found _ _ (by rw [place]; rfl)
  | unlock place =>
      exact informed.plain still rfl rfl (fun _ _ eq => by cases eq) (fun _ _ eq => by cases eq)
        fun _ _ eq => by cases eq
  | @discount c next place =>
      refine informed.plain still rfl rfl (fun _ _ eq => ?_) (fun _ _ eq => ?_) fun _ _ eq => ?_ <;>
        cases next <;> cases eq
  | @body job c next sys place run =>
      cases runBody_ran (by rintro size rfl; exact (ok.enabled place).2) run with
      | done right done =>
          rw [State.goTo_places, update_self] at still
          exact absurd still rest_free
      | @retry b wrong =>
          rw [place] at mine
          cases mine
          have one : retried t S (({ S with sys := S.sys } : State π).goTo t
              (.unlock c (some (.free a)))) = 1 := by
            rw [retried, place, State.goTo_places, update_self]
          have stays : moved cfg a S (({ S with sys := S.sys } : State π).goTo t
              (.unlock c (some (.free a)))) = 0 := if_pos rfl
          have missed : r < m := by
            refine (informed.found _ c (by rw [place]; rfl)).resolve_left fun sc => ?_
            have test := rightLock_iff config wrong
            have right : freeClass cfg a S.sys.heap = c := pageOf_class sound sc
            rw [right, decide_eq_true rfl] at test
            cases test
          rw [one, stays]
          refine ⟨still, by omega, fun _ _ at_ => ?_, fun _ _ at_ => ?_⟩ <;>
          · rw [State.goTo_places, update_self] at at_
            cases at_

end Step

section Tried
variable [LawfulAddressPool π] {cfg : Config} {T t a r m : Nat} {addresses : π} {S : State π}

omit [LawfulAddressPool π] in
theorem Tried.reached (tried : Tried cfg T addresses t a S r m) :
    ∃ es, (machine cfg T addresses).Reached es S := by
  induction tried with
  | start reached => exact ⟨_, reached⟩
  | step _ step _ ih =>
      obtain ⟨es, S₀, init, run⟩ := ih
      exact ⟨_, S₀, init, .step run step⟩

theorem Tried.informed (tried : Tried cfg T addresses t a S r m) (config : cfg.Compacting)
    (once : cfg.memcpyMultiplicator = 1)
    (valid : Valid cfg.toAddressConfig T (fun _ => False) addresses) :
    Informed cfg t a S r m := by
  induction tried with
  | start _ place =>
      refine ⟨by rw [place]; rfl, le_rfl, fun _ _ at_ => ?_, fun _ _ at_ => ?_⟩ <;>
      · rw [place] at at_
        cases at_
  | @step S S' e r m before step still ih =>
      obtain ⟨es, reached⟩ := before.reached
      obtain ⟨run, ok⟩ := reached_ok config once valid reached
      have sound := run.sound config once valid
      have busy : S.places t ≠ .idle := fun idle => by
        have job := ih.job
        rw [idle] at job
        cases job
      rcases step.place busy with same | moves
      · exact ih.stay same (step.class_same ok sound config ih.job still)
      · exact ih.advance ok sound config moves still

/-- A script of the time of a `cf_free`, with the two counts. -/
def tally (cfg : Config) (T t a : Nat) (moves : List Move) (start : State π × Nat × Nat) :
    Option (State π × Nat × Nat) :=
  moves.foldlM (fun now move => (now.1.move cfg T move).bind fun next =>
    if (next.2.places t).job = some (.free a) then
      some (next.2, now.2.1 + retried t now.1 next.2, now.2.2 + moved cfg a now.1 next.2)
    else none) start

theorem tried_of_tally (config : cfg.Compacting) (once : cfg.memcpyMultiplicator = 1)
    (valid : Valid cfg.toAddressConfig T (fun _ => False) addresses) {moves : List Move}
    {start now : State π × Nat × Nat}
    (before : Tried cfg T addresses t a start.1 start.2.1 start.2.2)
    (h : tally cfg T t a moves start = some now) :
    Tried cfg T addresses t a now.1 now.2.1 now.2.2 := by
  induction moves generalizing start with
  | nil =>
      cases h
      exact before
  | cons move moves ih =>
      rw [tally, List.foldlM_cons] at h
      obtain ⟨next, first, h⟩ := Option.bind_eq_some_iff.mp h
      obtain ⟨⟨e, S⟩, made, first⟩ := Option.bind_eq_some_iff.mp first
      obtain ⟨es, reached⟩ := before.reached
      have step := move_sound (reached_ok config once valid reached).2 made
      split at first
      next still =>
        cases first
        exact ih (before.step step still) h
      next => cases first

end Tried
end

/-- A `cf_free` takes a wrong lock at most as often as its object moves to another page, and
while it has done so as often as that, the lock it takes is the right one. -/
theorem retries_le_moves (cfg : Config) (config : cfg.Compacting)
    (once : cfg.memcpyMultiplicator = 1) (T t a r m : Nat) (S : State AddressBuckets)
    (tried : Tried cfg T (initFreeAaList cfg.toAddressConfig) t a S r m) :
    r ≤ m ∧ (r = m → ∀ c, S.places t = .body (.free a) c →
      rightLock cfg a c S.sys.heap = .ok true) := by
  have informed := tried.informed config once (valid_init _ T)
  obtain ⟨es, reached⟩ := tried.reached
  obtain ⟨run, ok⟩ := reached_ok config once (valid_init _ T) reached
  refine ⟨informed.le, fun as_often c place => ?_⟩
  have sc := (informed.found (.free a) c (by rw [place]; rfl)).resolve_right (by omega)
  exact rightLock_of_class (run.sound config once (valid_init _ T)) config sc

/-- The page that a `cf_free` has read is released and given to another class: the `cf_free`
takes the lock of that class, goes back, and takes the right lock. -/
theorem retries_le_moves_once : ∃ S : State AddressBuckets, Tried smallConfig 2
    (initFreeAaList smallConfig.toAddressConfig) 1 1048812 S 1 1 ∧
    S.places 1 = .body (.free 1048812) 48 ∧
      rightLock smallConfig 1048812 48 S.sys.heap = .ok true := by
  obtain ⟨es, S, reached, found⟩ := script_any smallConfig smallConfig_compacting rfl 2
    (Move.run 0 (.malloc 7000) 6 ++ Move.run 0 (.malloc 7000) 6 ++ Move.run 0 (.malloc 7000) 6 ++
      Move.run 0 (.malloc 7000) 6 ++ Move.run 0 (.malloc 7000) 6 ++ Move.run 1 (.free 1048812) 0)
    (p := fun now => now.2.places 1 = .enter (.free 1048812) &&
      (tally smallConfig 2 1 1048812 (.advance 1 :: Move.run 0 (.free 1048828) 13 ++
        Move.run 0 (.malloc 100) 6 ++ List.replicate 10 (.advance 1)) (now.2, 0, 0)).any
          fun now => now.2 = (1, 1) ∧ now.1.places 1 = .body (.free 1048812) 48)
    (by decide +kernel)
  simp only [Bool.and_eq_true, decide_eq_true_eq] at found
  obtain ⟨place, counts⟩ := found
  obtain ⟨⟨S', r, m⟩, run, eq⟩ := (Option.any_eq_true _ _).mp counts
  obtain ⟨eq, body⟩ := of_decide_eq_true eq
  obtain ⟨rfl, rfl⟩ := Prod.mk.inj eq
  have tried := tried_of_tally smallConfig_compacting rfl (valid_init _ 2)
    (.start reached place) run
  exact ⟨S', tried, body, (retries_le_moves smallConfig smallConfig_compacting rfl 2 1 1048812 1 1
    S' tried).2 rfl 48 body⟩

end ClassLock
end CompactFit
