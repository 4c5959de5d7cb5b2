import CompactFit.ClassLockSafety

/-!
The allocator is a store of objects. Calls with class locks show the application nothing that
atomic calls do not show, and atomic calls nothing that a store does not show: no lock, no
compaction and no suspended copy can be seen from outside.
-/

namespace CompactFit
open Function ByteMemory AddressPool LawfulAddressPool AddressBuckets ClassLock

section
variable {π : Type} [AddressPool π]

/-- The steps of the allocator with the events they show; every access looks the address up. -/
inductive System.Step (cfg : Config) (T : Nat) : System π → Option Event → System π → Prop where
  | malloc {S S' : System π} {t size : Nat} {address : Option Nat} {h : Heap π}
      (enabled : Enabled cfg T S (.malloc t size)) (clean : Clean cfg S (.malloc t size))
      (made : cfMalloc cfg t size S.heap = .ok (address, h))
      (run : perform cfg S (.malloc t size) = .ok S') :
      System.Step cfg T S (some (.malloc t size address)) S'
  | free {S S' : System π} {t a : Nat} (enabled : Enabled cfg T S (.free t a))
      (run : perform cfg S (.free t a) = .ok S') : System.Step cfg T S (some (.free t a)) S'
  | resume {S S' : System π} {t : Nat} (enabled : Enabled cfg T S (.resume t))
      (run : perform cfg S (.resume t) = .ok S') : System.Step cfg T S none S'
  | read {S : System π} {a j byte : Nat} (enabled : Enabled cfg T S (.write a j 0))
      (run : cfDereference cfg a j S.heap = .ok byte) :
      System.Step cfg T S (some (.read a j (S.heap.memory byte))) S
  | write {S S' : System π} {a j : Nat} {x : UInt8} (enabled : Enabled cfg T S (.write a j x))
      (run : perform cfg S (.write a j x) = .ok S') : System.Step cfg T S (some (.write a j x)) S'

def System.machine (cfg : Config) (T : Nat) (addresses : π) :
    Simulation.Machine (System π) Event where
  init S := S = System.init cfg addresses
  step := System.Step cfg T

def storeOf (live : Live) : ObjectStore.Store := fun a =>
  (live a).map fun o => { size := o.size, bytes := o.bytes }

theorem storeOf_update (live : Live) (a : Nat) (o : Option Obj) : storeOf (update live a o) =
    update (storeOf live) a (o.map fun o => { size := o.size, bytes := o.bytes }) := by
  funext b
  by_cases same : b = a
  · subst same
    simp only [storeOf, update_self]
  · simp only [storeOf, update_of_ne same]

variable [LawfulAddressPool π] {cfg : Config} {T : Nat} {addresses : π}

/-- A read of an object that no compaction is moving gets the byte of the object. -/
theorem read_byte {S : System π} (sound : Sound cfg T S) (config : cfg.Compacting) {a j byte : Nat}
    (enabled : Enabled cfg T S (.write a j 0)) (run : cfDereference cfg a j S.heap = .ok byte) :
    ∃ o, S.live a = some o ∧ j < o.size ∧ S.heap.memory byte = o.bytes j := by
  obtain ⟨F, good, answers⟩ := sound
  obtain ⟨still, o, hlive, inside, user⟩ := enabled
  have notMoving : ¬ Moving F a := fun moving => by
    obtain ⟨t, call, hc, source⟩ := moving_call good answers moving
    exact still t call hc source
  obtain ⟨B, ok⟩ := good.owns.still a o hlive notMoving
  have isAa := good.isAa a (.inl (by rw [hlive]; simp))
  have size : (S.heap.view cfg).size B = blockSize o.sc := by rw [View.size, ok.sc]
  have moving : ¬ cfg.partialCompactionBound = -1 := by have := config.bound; omega
  rw [cfDereference, if_neg moving, S.heap.loadAa_ok isAa] at run
  cases run
  refine ⟨o, hlive, inside, ?_⟩
  rw [ok.word]
  exact ok.stores j inside (size ▸ user)

theorem store_simulates (config : cfg.Compacting) (once : cfg.memcpyMultiplicator = 1)
    (valid : Valid cfg.toAddressConfig T (fun _ => False) addresses) :
    Simulation.Simulates (System.machine cfg T addresses) ObjectStore.machine fun S store =>
      Reachable cfg T addresses S ∧ store = storeOf S.live := by
  refine ⟨?_, ?_⟩
  · rintro _ rfl
    exact ⟨_, fun _ => rfl, .init, rfl⟩
  · rintro S _ e S' ⟨reachable, rfl⟩ step
    have sound := reachable.sound config once valid
    cases step with
    | @malloc _ t size address h enabled clean made run =>
        refine ⟨storeOf S'.live, ?_, .step _ reachable enabled clean run, rfl⟩
        simp only [perform, System.malloc, made, ok_bind] at run
        obtain ⟨F, good, _⟩ := sound
        cases address with
        | none =>
            cases run
            exact .single .null
        | some a =>
            have fresh : S.live a = none := by
              by_contra alive
              exact ClassLock.malloc_fresh good config enabled.1 made (.inl alive)
            cases run
            refine .single ?_
            rw [storeOf_update]
            refine .malloc ?_
            rw [storeOf, fresh]
            rfl
    | @free _ t a enabled run =>
        refine ⟨storeOf S'.live, ?_, .step _ reachable enabled trivial run, rfl⟩
        obtain ⟨⟨call, h⟩, _, run⟩ := bind_eq_ok run
        cases run
        refine .single ?_
        rw [storeOf_update]
        refine .free ?_
        rw [storeOf]
        exact fun none => enabled.2.2 (Option.map_eq_none_iff.mp none)
    | @resume _ t enabled run =>
        refine ⟨storeOf S'.live, ?_, .step _ reachable enabled trivial run, rfl⟩
        obtain ⟨call, hc⟩ := Option.ne_none_iff_exists'.mp enabled
        simp only [perform, System.resume, hc] at run
        obtain ⟨_, _, run⟩ := bind_eq_ok run
        cases run
        exact .refl _
    | @read a j byte enabled run =>
        obtain ⟨o, hlive, inside, value⟩ := read_byte sound config enabled run
        refine ⟨storeOf S.live, .single ?_, reachable, rfl⟩
        rw [value]
        exact .read (o := { size := o.size, bytes := o.bytes })
          (by rw [storeOf, hlive]; rfl) inside
    | @write _ a j x enabled run =>
        refine ⟨storeOf S'.live, ?_, .step _ reachable enabled trivial run, rfl⟩
        obtain ⟨_, o, hlive, inside, _⟩ := enabled
        simp only [perform, System.write, hlive] at run
        obtain ⟨_, _, run⟩ := bind_eq_ok run
        cases run
        refine .single ?_
        rw [storeOf_update]
        exact .write (o := { size := o.size, bytes := o.bytes })
          (by rw [storeOf, hlive]; rfl) inside

/-- Calls with class locks show nothing that atomic calls do not show. -/
theorem calls_simulate (config : cfg.Compacting) (once : cfg.memcpyMultiplicator = 1)
    (valid : Valid cfg.toAddressConfig T (fun _ => False) addresses) :
    Simulation.Simulates (ClassLock.machine cfg T addresses) (System.machine cfg T addresses)
      fun L S => L.sys = S ∧ Reachable cfg T addresses S ∧ ClassLock.Ok cfg T L := by
  refine ⟨?_, ?_⟩
  · rintro _ rfl
    exact ⟨_, rfl, rfl, .init, ClassLock.ok_init cfg T addresses⟩
  · rintro L _ e L' ⟨rfl, reachable, ok⟩ step
    have ok' := ok.step (reachable.sound config once valid) config step
    have silent : e = none → L'.sys = L.sys → ∃ S, (System.machine cfg T addresses).Moves L.sys
        e.toList S ∧ L'.sys = S ∧ Reachable cfg T addresses S ∧ ClassLock.Ok cfg T L' := by
      rintro rfl same
      exact ⟨L.sys, .refl _, same, reachable, ok'⟩
    have visible : ∀ a, Enabled cfg T L.sys a → Clean cfg L.sys a →
        perform cfg L.sys a = .ok L'.sys → System.Step cfg T L.sys e L'.sys →
          ∃ S, (System.machine cfg T addresses).Moves L.sys e.toList S ∧ L'.sys = S ∧
            Reachable cfg T addresses S ∧ ClassLock.Ok cfg T L' := fun a enabled clean run step =>
      ⟨_, .single step, rfl, .step a reachable enabled clean run, ok'⟩
    cases step with
    | call => exact silent rfl rfl
    | read access run => exact ⟨_, .single (.read access.2 run), rfl, reachable, ok'⟩
    | @write sys a j x access run =>
        exact visible (.write a j x) access.2 trivial run (.write access.2 run)
    | @advance _ t run clean =>
        cases advanced run with
        | request place | load place | resume place | look place | count place | lock place
        | unlock place | discount place => exact silent (by rw [State.event, place]) rfl
        | @body job c next sys place body =>
            have enabled := ok.enabled place
            cases runBody_ran (by rintro size rfl; exact enabled.2) body with
            | retry wrong => exact silent (by rw [State.event, place]; simp only [wrong]) rfl
            | done right run =>
                cases job with
                | malloc size =>
                    have clean : Clean cfg L.sys (.malloc t size) := clean size c place
                    obtain ⟨⟨address, h⟩, made, _⟩ := bind_eq_ok run
                    have event : L.event cfg t = some (.malloc t size address) := by
                      rw [State.event, place]
                      simp only [made]
                    refine visible _ enabled clean run ?_
                    rw [event]
                    exact .malloc enabled clean made run
                | free a =>
                    have event : L.event cfg t = some (.free t a) := by
                      rw [State.event, place]
                      simp only [right a rfl]
                    refine visible _ enabled trivial run ?_
                    rw [event]
                    exact .free enabled run
                | resume =>
                    have event : L.event cfg t = none := by rw [State.event, place]
                    refine visible _ enabled trivial run ?_
                    rw [event]
                    exact .resume enabled run

end

/-- What the application gets to see of the calls with class locks is what a store of objects
shows: every read gets what was written last, and no address is given out twice. -/
theorem class_locks_store (cfg : Config) (config : cfg.Compacting)
    (once : cfg.memcpyMultiplicator = 1) (T : Nat) (es : List Event)
    (shown : (ClassLock.machine cfg T (initFreeAaList cfg.toAddressConfig)).Shows es) :
    ObjectStore.machine.Shows es ∧ ReadsLast es ∧ NoReuse es := by
  have calls := calls_simulate config once (valid_init cfg.toAddressConfig T)
  have store : ObjectStore.machine.Shows es :=
    (calls.trans (store_simulates config once (valid_init _ T))).shows shown
  exact ⟨store, ObjectStore.readsLast store, ObjectStore.noReuse store⟩

/-- An object is written, moved to another page and read again. -/
theorem class_locks_store_moved : ObjectStore.machine.Shows
    [.malloc 0 7000 (some 1048828), .malloc 0 7000 (some 1048824), .malloc 0 7000 (some 1048820),
      .write 1048820 3 77, .free 1 1048828, .read 1048820 3 77] := by
  obtain ⟨es, S, reached, found⟩ := script_any smallConfig smallConfig_compacting rfl 2
    (Move.run 0 (.malloc 7000) 6 ++ Move.run 0 (.malloc 7000) 6 ++ Move.run 0 (.malloc 7000) 6 ++
      [.write 1048820 3 77] ++ Move.run 1 (.free 1048828) 13 ++ [.read 1048820 3])
    (p := fun now => now.1 = [.malloc 0 7000 (some 1048828), .malloc 0 7000 (some 1048824),
      .malloc 0 7000 (some 1048820), .write 1048820 3 77, .free 1 1048828, .read 1048820 3 77] ∧
      pageOfBlock (now.2.sys.heap.aaWord smallConfig 1048820) = 8) (by decide +kernel)
  obtain ⟨rfl, _⟩ := of_decide_eq_true found
  exact (class_locks_store smallConfig smallConfig_compacting rfl 2 _ ⟨S, reached⟩).1

end CompactFit
