import CompactFit.Compaction

/-!
`cf_malloc`, `cf_free` and `cf_dereference` under the class lock. A `cf_free`
whose compaction releases the lock is a `Suspended` call; what it does after
`do_compaction` returns is `finishFree`.
-/

namespace CompactFit
open Function ByteMemory AddressPool

section
variable {π : Type} [AddressPool π]

def compactionOn (cfg : Config) : Prop := cfg.partialCompactionBound ≠ -1

instance (cfg : Config) : Decidable (compactionOn cfg) := inferInstanceAs (Decidable (_ ≠ _))

def inFullState (c : Nat) (h : Heap π) : Prop :=
  (h.classes c).nfullentries = 0 ∧ (h.classes c).lists .source = []

instance (c : Nat) (h : Heap π) : Decidable (inFullState c h) :=
  inferInstanceAs (Decidable (_ ∧ _))

/-- `valid_nfull_pages_ratio`; the comparison is unsigned. -/
def validNfullPagesRatio (cfg : Config) (c add : Nat) (h : Heap π) : Prop :=
  ((h.classes c).nfullentries + add) % 4294967296 ≤
    (cfg.partialCompactionBound % 4294967296).toNat

instance (cfg : Config) (c add : Nat) (h : Heap π) :
    Decidable (validNfullPagesRatio cfg c add h) := inferInstanceAs (Decidable (_ ≤ _))

/-- The words `cf_malloc` adds to a request, in `size_t` arithmetic. -/
def adjustedSize (cfg : Config) (size : Nat) : Nat :=
  let size := (size + 4) % 4294967296
  if cfg.incrementalMemcpy ≠ 0 ∧ cfg.incrementalMemcpy < size then (size + 4) % 4294967296
  else size

/-- The page `cf_malloc` allocates from: a new one for a class without not-full
pages, else the last of the list. -/
def getNfullPage (cfg : Config) (t c : Nat) (h : Heap π) :
    Except Fault (Option Nat × Heap π) := do
  if (h.classes c).lists .nfull = [] then
    match ← getFreePage cfg t h with
    | (none, h) => return (none, h)
    | (some p, h) =>
        let h := h.modifyPage p fun pg => { pg with nrUsedPageBlocks := 0, sc := c }
        let h ← addPageToNfullList c p h
        return (some p, h)
  else return (getNfullPagesTail c h, h)

/-- The block `cf_malloc` marks as used; a page that is now full changes list. -/
def takePageBlock (c p : Nat) (h : Heap π) : Except Fault (Nat × Heap π) := do
  let (index, h) ← getFreePageBlock p h
  if isPageFull p (blockSize c) h then
    let h ← removePageFromNfullList c p h
    let h ← addPageToFullList c p h
    return (index, h)
  else return (index, h)

/-- The reference `cf_malloc` returns for its block; `none` is NULL. -/
def nameBlock (cfg : Config) (t c p index : Nat) (h : Heap π) : Option Nat × Heap π :=
  let pageBlockSize := blockSize c
  if ¬ compactionOn cfg then (some (blockStart p index pageBlockSize), h)
  else
    match getAbstractAddress cfg t (blockStart p index pageBlockSize) h with
    | (none, h) => (none, h)
    | (some address, h) =>
        let h := h.writeMemory (addressField p index pageBlockSize) address
        let h := if Incremental cfg pageBlockSize
          then h.writeMemory (partitionField p index pageBlockSize) 0 else h
        (some address, h)

def cfMalloc (cfg : Config) (t size : Nat) (h : Heap π) : Except Fault (Option Nat × Heap π) := do
  let c := getSizeClassIndex cfg.past (adjustedSize cfg size)
  ensure (c < sizeClasses) .noSizeClass
  match ← getNfullPage cfg t c h with
  | (none, h) => return (none, h)
  | (some p, h) =>
      let (index, h) ← takePageBlock c p h
      return nameBlock cfg t c p index h

/-- A `cf_free` whose compaction has released the class lock. `held` is its own
`src_page`, of which it gives up one entry in the end. -/
structure Suspended where
  address : Nat
  held : Option Nat
  comp : Compaction

/-- `cf_free` from the return of the free operation on. -/
def finishFree (cfg : Config) (t c address : Nat) (held : Option Nat) (abort : Nat)
    (h : Heap π) : Except Fault (Heap π) := do
  let h ← match held with
    | some p => releaseSource cfg t c p h
    | none => .ok h
  if 0 ≤ cfg.partialCompactionBound ∧ abort = 0 then clearAbstractAddress cfg t address h
  else return h

/-- What becomes of a `cf_free` with the outcome of its compaction. -/
def settleFree (cfg : Config) (t address : Nat) (held : Option Nat) (c : Nat) :
    Outcome × Heap π → Except Fault (Option Suspended × Heap π)
  | (.unlocked comp, h) => .ok (some { address := address, held := held, comp := comp }, h)
  | (.returned abort, h) => do
      let h ← finishFree cfg t c address held abort h
      return (none, h)

/-- The branch of `cf_free` in the full state. -/
def freeInFullState (cfg : Config) (t c address targetPage size index : Nat) (h : Heap π) :
    Except Fault (Option Suspended × Heap π) := do
  let partition := readWord h.memory (partitionField targetPage index size)
  if Incremental cfg size ∧ partition ≠ 0 then
    ensure ((h.pages targetPage).listFlags = .emptying) .listFlags
    let srcPage := targetPage
    let targetBlock := partition
    let targetAa := readWord h.memory (targetBlock + (size - 4))
    let h ← h.flagAa cfg targetAa abortFreeFlag
    let targetPage := pageOfBlock targetBlock
    let targetIndex := indexOfBlock targetPage targetBlock size
    let h ← doFreeFullState cfg t c targetPage targetIndex h
    let h := h.modifyPage srcPage fun pg => { pg with sourceentries := decrement pg.sourceentries }
    let h ← if (h.pages srcPage).sourceentries = 0 then do
        let h ← removePageFromEmptyingList c srcPage h
        addFreePage cfg t srcPage h
      else .ok h
    let h ← finishFree cfg t c address none 0 h
    return (none, h)
  else
    let h ← doFreeFullState cfg t c targetPage index h
    let h ← finishFree cfg t c address none 0 h
    return (none, h)

/-- The branch of `cf_free` for a block that a suspended compaction is moving:
its target block is freed, or becomes the target of a compaction of its own. -/
def freeMoving (cfg : Config) (t c address srcPage targetBlock size : Nat) (h : Heap π) :
    Except Fault (Option Suspended × Heap π) := do
  let targetAa := readWord h.memory (targetBlock + (size - 4))
  let h ← h.flagAa cfg targetAa abortFreeFlag
  let targetPage := pageOfBlock targetBlock
  let targetIndex := indexOfBlock targetPage targetBlock size
  if validNfullPagesRatio cfg c 1 h then
    let h ← doFree cfg t c targetPage size targetIndex h
    settleFree cfg t address (some srcPage) c (.returned 0, h)
  else if isPageFull targetPage size h then
    let (nfPage, h) ← getSourcePage c h
    let h := h.writeMemory (targetBlock + (size - 4)) address
    let h ← h.storeAa cfg address targetBlock
    let r ← doCompaction cfg t c targetPage targetIndex nfPage size h
    settleFree cfg t address (some srcPage) c r
  else
    let h ← doFreeNfullState cfg t c targetPage targetIndex h
    settleFree cfg t address (some srcPage) c (.returned 0, h)

/-- The branch of `cf_free` for a block no compaction is moving. -/
def freeStill (cfg : Config) (t c address targetPage size index : Nat) (h : Heap π) :
    Except Fault (Option Suspended × Heap π) := do
  if validNfullPagesRatio cfg c 1 h then
    let h ← doFree cfg t c targetPage size index h
    settleFree cfg t address none c (.returned 0, h)
  else if isPageFull targetPage size h then
    let (nfPage, h) ← getSourcePage c h
    let r ← doCompaction cfg t c targetPage index nfPage size h
    settleFree cfg t address none c r
  else
    let h ← doFreeNfullState cfg t c targetPage index h
    settleFree cfg t address none c (.returned 0, h)

/-- `cf_free` up to its end or the first release of the class lock. -/
def cfFree (cfg : Config) (t address : Nat) (h : Heap π) :
    Except Fault (Option Suspended × Heap π) := do
  if ¬ compactionOn cfg then
    let p := pageOfBlock address
    let c := (h.pages p).sc
    let h ← doFree cfg t c p (blockSize c) (indexOfBlock p address (blockSize c)) h
    let h ← finishFree cfg t c address none 0 h
    return (none, h)
  else
    let pageBlock ← h.loadAa cfg address
    let p := pageOfBlock pageBlock
    let c := (h.pages p).sc
    let size := blockSize c
    let index := indexOfBlock p pageBlock size
    if inFullState c h then freeInFullState cfg t c address p size index h
    else
      let partition := readWord h.memory (partitionField p index size)
      if Incremental cfg size ∧ partition ≠ 0 then freeMoving cfg t c address p partition size h
      else freeStill cfg t c address p size index h

/-- A suspended `cf_free` takes the class lock again. -/
def resumeFree (cfg : Config) (t : Nat) (call : Suspended) (h : Heap π) :
    Except Fault (Option Suspended × Heap π) := do
  let r ← resumeCompaction cfg t call.comp h
  settleFree cfg t call.address call.held call.comp.sc r

/-- `cf_dereference`; `void *` arithmetic counts bytes, and `address + index` of
the non-moving mode counts pointers. -/
def cfDereference (cfg : Config) (address index : Nat) (h : Heap π) : Except Fault Nat :=
  if cfg.partialCompactionBound = -1 then .ok (address + 4 * index)
  else do
    let w ← h.loadAa cfg address
    return w + index

end
end CompactFit
