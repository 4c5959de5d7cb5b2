import CompactFit.CallInvariant
import CompactFit.Library.WaitFor

/-!
The build with page locks. A size class has a lock for its lists and counters, a page has one
for its bitmap and for copies from and to its blocks. A call takes one step for each lock
operation, for each piece of code between two of them, for each access that it makes without
the lock of the class, and for each byte of a copy. Compaction is on, and blocks are copied in
one piece: this build has `incremental_memcpy` 0.
-/

namespace CompactFit
namespace LockPage
open Function ByteMemory AddressPool

inductive Mutex where
  | sizeClass (c : Nat)
  | page (p : Nat)
deriving DecidableEq

/-- A `cf_free` that has the lock of its size class and has found its block. -/
structure Freeing where
  address : Nat
  sc : Nat
  page : Nat
  index : Nat

/-- What `do_free` does with the page after `free_used_page_block`. -/
inductive Regroup where
  | full | last | other
deriving DecidableEq

/-- The variables of `do_compaction` from the choice of the source block on. -/
structure Copy where
  srcPage : Nat
  srcIndex : Nat
  srcAa : Nat
  targetAaVal : Nat
  copied : Nat

/-- Where a thread is in `cf_malloc` or `cf_free`. -/
inductive Place where
  | idle
  | mallocLock (size c : Nat)
  | mallocPage (size c : Nat)
  | mallocLockPage (size c p : Nat)
  | mallocBlock (size c p : Nat)
  | mallocUnlockPage (size c p index : Nat)
  | mallocName (size c p index : Nat)
  | mallocUnlock (size c : Nat) (address : Option Nat)
  | freeRead (a : Nat)
  | freeClass (a p : Nat)
  | freeLock (a c : Nat)
  | freeCheck (a c : Nat)
  | freeRetry (a c : Nat)
  | dropLock (f : Freeing) (next : Regroup)
  | dropBlock (f : Freeing) (next : Regroup)
  | dropUnlock (f : Freeing) (next : Regroup)
  | dropMove (f : Freeing) (next : Regroup)
  | compactLockTarget (f : Freeing) (srcPage : Nat)
  | compactLockSource (f : Freeing) (srcPage : Nat)
  | compactSelect (f : Freeing) (srcPage : Nat)
  | compactUnlock (f : Freeing) (m : Copy)
  | compactCopy (f : Freeing) (m : Copy)
  | compactUnlockTarget (f : Freeing) (srcPage : Nat)
  | compactUnlockSource (f : Freeing) (srcPage : Nat)
  | compactLock (f : Freeing) (srcPage : Nat)
  | compactRelease (f : Freeing) (srcPage : Nat)
  | freeClear (a c : Nat)
  | freeUnlock (c : Nat)

namespace Place

def acquires : Place → Option Mutex
  | mallocLock _ c | freeLock _ c => some (.sizeClass c)
  | compactLock f _ => some (.sizeClass f.sc)
  | mallocLockPage _ _ p | compactLockSource _ p => some (.page p)
  | dropLock f _ | compactLockTarget f _ => some (.page f.page)
  | _ => none

def releases : Place → Option Mutex
  | mallocUnlock _ c _ | freeRetry _ c | freeUnlock c => some (.sizeClass c)
  | compactUnlock f _ => some (.sizeClass f.sc)
  | mallocUnlockPage _ _ p _ | compactUnlockSource _ p => some (.page p)
  | dropUnlock f _ | compactUnlockTarget f _ => some (.page f.page)
  | _ => none

def next : Place → Place
  | mallocLock size c => mallocPage size c
  | mallocLockPage size c p => mallocBlock size c p
  | mallocUnlockPage size c p index => mallocName size c p index
  | mallocUnlock .. | freeUnlock _ => idle
  | freeLock a c => freeCheck a c
  | freeRetry a _ => freeRead a
  | dropLock f next => dropBlock f next
  | dropUnlock f next => dropMove f next
  | compactLockTarget f srcPage => compactLockSource f srcPage
  | compactLockSource f srcPage => compactSelect f srcPage
  | compactUnlock f m => compactCopy f m
  | compactUnlockTarget f srcPage => compactUnlockSource f srcPage
  | compactUnlockSource f srcPage => compactLock f srcPage
  | compactLock f srcPage => compactRelease f srcPage
  | place => place

end Place

section Code
variable {π : Type} [AddressPool π]

/-- `do_free`, up to the lock of the page. -/
def doFreeLock (f : Freeing) (h : Heap π) : Place :=
  if isPageFull f.page (blockSize f.sc) h then .dropLock f .full
  else if (h.pages f.page).nrUsedPageBlocks = 1 then .dropLock f .last
  else .dropLock f .other

/-- `do_free` from the unlock of the page on. -/
def doFreeRegroup (cfg : Config) (t : Nat) (f : Freeing) (h : Heap π) :
    Regroup → Except Fault (Heap π)
  | .full => regroupFull cfg t f.sc f.page h
  | .last => regroupLast cfg t f.sc f.page h
  | .other => .ok h

/-- `cf_free` with the lock of class `c`: it retries if that is not the class of its page. In
the full state `do_free_full_state` is called without a look at the page. -/
def checkFree (cfg : Config) (a c : Nat) (h : Heap π) : Except Fault (Place × Heap π) := do
  let pageBlock ← h.loadAa cfg a
  let p := pageOfBlock pageBlock
  if (h.pages p).sc ≠ c then return (.freeRetry a c, h)
  else
    let f : Freeing :=
      { address := a, sc := c, page := p, index := indexOfBlock p pageBlock (blockSize c) }
    if inFullState c h then return (.dropLock f .full, h)
    else if validNfullPagesRatio cfg c 1 h then return (doFreeLock f h, h)
    else if isPageFull p (blockSize c) h then
      let (nfPage, h) ← getSourcePage c h
      return (.compactLockTarget f nfPage, h)
    else return (doFreeLock f h, h)

/-- `do_compaction` with both page locks: the source block is chosen, and the address of its
object designates the target block before the copy starts. -/
def selectBlock (cfg : Config) (f : Freeing) (srcPage : Nat) (h : Heap π) :
    Except Fault (Place × Heap π) :=
  match (h.pages srcPage).usedPageBlockBitmap.findUsed with
  | none => .error .noBit
  | some srcIndex => do
      let h := h.modifyPage srcPage fun pg =>
        { pg with usedPageBlockBitmap := pg.usedPageBlockBitmap.clear srcIndex }
      let srcAa := readWord h.memory (addressField srcPage srcIndex (blockSize f.sc))
      ensure (srcAa ≠ 0) .nullAddress
      let h ← h.flagAa cfg srcAa abortCompactFlag
      let targetAa := readWord h.memory (addressField f.page f.index (blockSize f.sc))
      ensure (targetAa ≠ 0) .nullAddress
      let targetAaVal ← h.loadAa cfg targetAa
      let h ← h.storeAa cfg srcAa targetAaVal
      return (.compactUnlock f
        { srcPage := srcPage
          srcIndex := srcIndex
          srcAa := srcAa
          targetAaVal := targetAaVal
          copied := 0 }, h)

/-- The next byte of `memcpy(dest, src, size)`. -/
def copyByte (f : Freeing) (m : Copy) (h : Heap π) : Heap π :=
  let dest := blockStart f.page f.index (blockSize f.sc)
  let src := blockStart m.srcPage m.srcIndex (blockSize f.sc)
  { h with memory := writeByte h.memory (dest + m.copied) (h.memory (src + m.copied)) }

/-- The code at a place that is no lock operation, up to the next one. -/
def code (cfg : Config) (t : Nat) (h : Heap π) : Place → Except Fault (Place × Heap π)
  | .mallocPage size c => do
      match ← getNfullPage cfg t c h with
      | (none, h) => return (.mallocUnlock size c none, h)
      | (some p, h) => return (.mallocLockPage size c p, h)
  | .mallocBlock size c p => do
      let (index, h) ← getFreePageBlock p h
      return (.mallocUnlockPage size c p index, h)
  | .mallocName size c p index => do
      let h ← regroupTaken c p h
      let (address, h) := nameBlock cfg t c p index h
      return (.mallocUnlock size c address, h)
  | .freeRead a => do
      let pageBlock ← h.loadAa cfg a
      return (.freeClass a (pageOfBlock pageBlock), h)
  | .freeClass a p => .ok (.freeLock a (h.pages p).sc, h)
  | .freeCheck a c => checkFree cfg a c h
  | .dropBlock f next => do
      let h ← freeUsedPageBlock f.page f.index h
      return (.dropUnlock f next, h)
  | .dropMove f next => do
      let h ← doFreeRegroup cfg t f h next
      return (.freeClear f.address f.sc, h)
  | .compactSelect f srcPage => selectBlock cfg f srcPage h
  | .compactCopy f m =>
      if m.copied < blockSize f.sc then
        .ok (.compactCopy f { m with copied := m.copied + 1 }, copyByte f m h)
      else do
        let h ← h.storeAa cfg m.srcAa m.targetAaVal
        return (.compactUnlockTarget f m.srcPage, h)
  | .compactRelease f srcPage => do
      let h ← releaseSource cfg t f.sc srcPage h
      return (.freeClear f.address f.sc, h)
  | .freeClear a c => do
      let h ← clearAbstractAddress cfg t a h
      return (.freeUnlock c, h)
  | place => .ok (place, h)

end Code

/-- The heap, the owner of each lock, the threads, and the live objects. -/
structure System (π : Type) where
  heap : Heap π
  owner : Mutex → Option Nat
  places : Nat → Place
  live : Live

inductive Action where
  | malloc (t size : Nat)
  | free (t address : Nat)
  | step (t : Nat)
  | write (address j : Nat) (x : UInt8)

section
variable {π : Type} [AddressPool π]

/-- The state after `cf_init`. -/
def System.init (cfg : Config) (addresses : π) : System π :=
  { heap := initHeap cfg addresses, owner := fun _ => none, places := fun _ => .idle,
    live := fun _ => none }

/-- An object is live from the return of `cf_malloc` on. -/
def System.returned (cfg : Config) (S : System π) : Place → Live
  | .mallocUnlock size c (some a) => update S.live a (some (newObj cfg a c size S.heap))
  | _ => S.live

def System.step (cfg : Config) (S : System π) (t : Nat) : Except Fault (System π) :=
  match (S.places t).acquires, (S.places t).releases with
  | some m, _ => .ok { S with
      owner := update S.owner m (some t)
      places := update S.places t (S.places t).next }
  | none, some m => .ok { S with
      owner := update S.owner m none
      places := update S.places t (S.places t).next
      live := S.returned cfg (S.places t) }
  | none, none => do
      let (place, h) ← code cfg t S.heap (S.places t)
      return { S with heap := h, places := update S.places t place }

def System.perform (cfg : Config) (S : System π) : Action → Except Fault (System π)
  | .malloc t size => do
      ensure (requestClass cfg size < sizeClasses) .noSizeClass
      return { S with
        places := update S.places t (.mallocLock size (requestClass cfg size)) }
  | .free t a => .ok { S with
      places := update S.places t (.freeRead a)
      live := update S.live a none }
  | .step t => S.step cfg t
  | .write a j x =>
      match S.live a with
      | none => .ok S
      | some o => do
          let byte ← cfDereference cfg a j S.heap
          return { S with
            heap := { S.heap with memory := writeByte S.heap.memory byte x }
            live := update S.live a (some { o with bytes := update o.bytes j x }) }

def System.Waits (S : System π) : Nat → Nat → Prop :=
  WaitFor.Waits (fun t => (S.places t).acquires) S.owner

def System.Copied (S : System π) (a : Nat) : Prop :=
  ∃ t f m, (S.places t = .compactUnlock f m ∨ S.places t = .compactCopy f m) ∧ m.srcAa = a

/-- What the application does: a thread makes one call at a time, only live objects are freed,
and an object that is being copied is not written. A thread that waits for a lock does not
run. -/
def System.Enabled (cfg : Config) (T : Nat) (S : System π) : Action → Prop
  | .malloc t _ => t < T ∧ S.places t = .idle
  | .free t a => t < T ∧ S.places t = .idle ∧ S.live a ≠ none
  | .step t => S.places t ≠ .idle ∧ ∀ u, ¬ S.Waits t u
  | .write a j _ => ¬ S.Copied a ∧
      ∃ o, S.live a = some o ∧ j < o.size ∧ j < View.userBytes cfg (blockSize o.sc)

/-- `cf_malloc` does not run out of abstract addresses. -/
def System.Clean (cfg : Config) (S : System π) : Action → Prop
  | .step t => ∀ size c p index, S.places t = .mallocName size c p index →
      (getFreeAa cfg.toAddressConfig t S.heap.addresses).1 ≠ none
  | _ => True

/-- The states that the first `T` threads can reach. -/
inductive Reachable (cfg : Config) (T : Nat) (addresses : π) : System π → Prop where
  | init : Reachable cfg T addresses (System.init cfg addresses)
  | step {S S' : System π} (a : Action) : Reachable cfg T addresses S → S.Enabled cfg T a →
      S.Clean cfg a → S.perform cfg a = .ok S' → Reachable cfg T addresses S'

end
end LockPage
end CompactFit
