import CompactFit.Safety
import CompactFit.ObjectStore

/-!
The build with size-class locks, with the locks themselves. A call takes one step for
each access it makes without a lock, for each lock operation and for each update of the
count of workers; the code between `lock_sizeClass` and `unlock_sizeClass` is one step.
`cf_free` takes the lock of its class optimistically: it reads the class without a lock
and tries again if the object has left the class's pages in the meantime.
-/

namespace CompactFit
namespace ClassLock
open Function ByteMemory AddressPool

/-- What a thread takes the lock of a size class for. -/
inductive Job where
  | malloc (size : Nat)
  | free (address : Nat)
  | resume
deriving DecidableEq

/-- Where a thread is in `cf_malloc` or `cf_free`. After an unlock the call goes on with
`next`, or it is over. -/
inductive Place where
  | idle
  | enter (job : Job)
  | read (address pageBlock : Nat)
  | count (job : Job) (c : Nat)
  | wait (job : Job) (c : Nat)
  | body (job : Job) (c : Nat)
  | unlock (c : Nat) (next : Option Job)
  | discount (c : Nat) (next : Option Job)
deriving DecidableEq

namespace Place

def holds : Place → Option Nat
  | body _ c | unlock c _ => some c
  | _ => none

/-- The class the thread is counted in as a worker. -/
def counted : Place → Option Nat
  | wait _ c | body _ c | unlock c _ | discount c _ => some c
  | _ => none

def job : Place → Option Job
  | enter job | count job _ | wait job _ | body job _ => some job
  | read a _ => some (.free a)
  | unlock _ next | discount _ next => next
  | idle => none

def found : Place → Option (Job × Nat)
  | count job c | wait job c | body job c => some (job, c)
  | _ => none

end Place

/-- The allocator, the holder of each class lock, `workers` of each class and the places of
the threads. -/
structure State (π : Type) where
  sys : System π
  holder : Nat → Option Nat
  workers : Nat → Nat
  places : Nat → Place

section Code
variable {π : Type} [AddressPool π]

def State.init (cfg : Config) (addresses : π) : State π :=
  { sys := System.init cfg addresses
    holder := fun _ => none
    workers := fun _ => 0
    places := fun _ => .idle }

omit [AddressPool π] in
def State.goTo (t : Nat) (p : Place) (S : State π) : State π :=
  { S with places := update S.places t p }

section
variable (t : Nat) (p : Place) (S : State π)

omit [AddressPool π] in
@[simp] theorem State.goTo_sys : (S.goTo t p).sys = S.sys := rfl

omit [AddressPool π] in
@[simp] theorem State.goTo_holder : (S.goTo t p).holder = S.holder := rfl

omit [AddressPool π] in
@[simp] theorem State.goTo_workers : (S.goTo t p).workers = S.workers := rfl

omit [AddressPool π] in
@[simp] theorem State.goTo_places : (S.goTo t p).places = update S.places t p := rfl

end

/-- `page_block = *address`, or the address itself without compaction. -/
def pageBlockOf (cfg : Config) (a : Nat) (h : Heap π) : Except Fault Nat :=
  if compactionOn cfg then h.loadAa cfg a else .ok a

/-- The test of `cf_free` under the lock of class `c`; without compaction there is none. -/
def rightLock (cfg : Config) (a c : Nat) (h : Heap π) : Except Fault Bool := do
  if compactionOn cfg then
    let pageBlock ← h.loadAa cfg a
    return decide ((h.pages (pageOfBlock pageBlock)).sc = c)
  else return true

omit [AddressPool π] in
/-- What follows the body of a `cf_free`: the rest of its compaction, if that gave the lock up. -/
def rest (t : Nat) (S : System π) : Option Job :=
  match S.calls t with
  | none => none
  | some _ => some .resume

def runBody (cfg : Config) (t c : Nat) (S : System π) : Job → Except Fault (Option Job × System π)
  | .malloc size => do
      let S ← S.malloc cfg t size
      return (none, S)
  | .free a => do
      if ← rightLock cfg a c S.heap then
        let S ← S.free cfg t a
        return (rest t S, S)
      else return (some (.free a), S)
  | .resume => do
      let S ← S.resume cfg t
      return (rest t S, S)

/-- The next step of a thread; `none` if it has no call or its lock is not free. -/
def State.advance (cfg : Config) (t : Nat) (S : State π) : Except Fault (Option (State π)) :=
  match S.places t with
  | .idle => .ok none
  | .enter (.malloc size) => .ok (some (S.goTo t (.count (.malloc size) (requestClass cfg size))))
  | .enter (.free a) => do
      return some (S.goTo t (.read a (← pageBlockOf cfg a S.sys.heap)))
  | .enter .resume =>
      match S.sys.calls t with
      | none => .ok none
      | some call => .ok (some (S.goTo t (.count .resume call.comp.sc)))
  | .read a pageBlock =>
      .ok (some (S.goTo t (.count (.free a) (S.sys.heap.pages (pageOfBlock pageBlock)).sc)))
  | .count job c =>
      let workers := if cfg.incrementalMemcpy ≠ 0 then update S.workers c (S.workers c + 1)
        else S.workers
      .ok (some ({ S with workers := workers }.goTo t (.wait job c)))
  | .wait job c =>
      if S.holder c = none then
        .ok (some ({ S with holder := update S.holder c (some t) }.goTo t (.body job c)))
      else .ok none
  | .body job c => do
      let (next, sys) ← runBody cfg t c S.sys job
      return some ({ S with sys := sys }.goTo t (.unlock c next))
  | .unlock c next =>
      .ok (some ({ S with holder := update S.holder c none }.goTo t (.discount c next)))
  | .discount c next =>
      let workers := if cfg.incrementalMemcpy ≠ 0 then update S.workers c (S.workers c - 1)
        else S.workers
      .ok (some ({ S with workers := workers }.goTo t (next.elim .idle .enter)))

/-- What the application sees of the next step of a thread. -/
def State.event (cfg : Config) (t : Nat) (S : State π) : Option Event :=
  match S.places t with
  | .body (.malloc size) _ =>
      match cfMalloc cfg t size S.sys.heap with
      | .ok (address, _) => some (.malloc t size address)
      | .error _ => none
  | .body (.free a) c =>
      match rightLock cfg a c S.sys.heap with
      | .ok true => some (.free t a)
      | _ => none
  | _ => none

omit [AddressPool π] in
/-- The application frees an object once, and does not use it once it is being freed. -/
def State.Unclaimed (a : Nat) (S : State π) : Prop := ∀ t, (S.places t).job ≠ some (.free a)

omit [AddressPool π] in
def State.Proper (S : State π) : Job → Prop
  | .malloc _ => True
  | .free a => S.sys.live a ≠ none ∧ S.Unclaimed a
  | .resume => False

/-- The next step of the thread is not an allocation that runs out of addresses. -/
def State.Clean (cfg : Config) (t : Nat) (S : State π) : Prop :=
  ∀ size c, S.places t = .body (.malloc size) c → ¬ AddressExhausted cfg t size S.sys.heap

/-- The application may access byte `j` of the object at `a`: it is live, it is not being
freed, and no suspended call is moving it. -/
def State.Accessible (cfg : Config) (T a j : Nat) (S : State π) : Prop :=
  S.Unclaimed a ∧ Enabled cfg T S.sys (.write a j 0)

/-- The steps: a call of the application, a step of a thread in a call, or an access of the
application to a live object. -/
inductive Step (cfg : Config) (T : Nat) : State π → Option Event → State π → Prop where
  | call {S : State π} {t : Nat} {job : Job} (ht : t < T) (idle : S.places t = .idle)
      (proper : S.Proper job) : Step cfg T S none (S.goTo t (.enter job))
  | advance {S S' : State π} {t : Nat} (run : S.advance cfg t = .ok (some S'))
      (clean : S.Clean cfg t) : Step cfg T S (S.event cfg t) S'
  | read {S : State π} {a j byte : Nat} (access : S.Accessible cfg T a j)
      (run : cfDereference cfg a j S.sys.heap = .ok byte) :
      Step cfg T S (some (.read a j (S.sys.heap.memory byte))) S
  | write {S : State π} {sys : System π} {a j : Nat} {x : UInt8} (access : S.Accessible cfg T a j)
      (run : S.sys.write cfg a j x = .ok sys) :
      Step cfg T S (some (.write a j x)) { S with sys := sys }

def machine (cfg : Config) (T : Nat) (addresses : π) : Simulation.Machine (State π) Event where
  init S := S = State.init cfg addresses
  step := Step cfg T

end Code
end ClassLock
end CompactFit
