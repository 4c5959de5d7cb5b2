import CompactFit.AddressPool
import CompactFit.PagePoolInit

/-!
The free operations on page blocks and `do_compaction` of the build with
size-class locks. A compaction runs under the class lock up to the next point
where the source releases it between two increments; its local variables are
then a `Compaction` record, and `resumeCompaction` goes on from there.
-/

namespace CompactFit
open Function ByteMemory AddressPool

section
variable {π : Type} [AddressPool π]

/-- A pointer to a word of the abstract address space. -/
def IsAa (cfg : Config) (a : Nat) : Prop :=
  cfg.aaSpace ≤ a ∧ (a - cfg.aaSpace) % 4 = 0 ∧ (a - cfg.aaSpace) / 4 < cfg.nrAas

instance (cfg : Config) : DecidablePred (IsAa cfg) := fun a =>
  inferInstanceAs (Decidable (cfg.aaSpace ≤ a ∧ _ ∧ _))

def aaPointer (cfg : Config) (id : Nat) : Nat := cfg.aaSpace + 4 * id

namespace Heap

/-- The word behind a pointer into the abstract address space. -/
def aaWord (cfg : Config) (a : Nat) (h : Heap π) : Nat :=
  word h.addresses ((a - cfg.aaSpace) / 4)

def loadAa (cfg : Config) (a : Nat) (h : Heap π) : Except Fault Nat :=
  if IsAa cfg a then .ok (h.aaWord cfg a) else .error .wildAddress

def storeAa (cfg : Config) (a w : Nat) (h : Heap π) : Except Fault (Heap π) :=
  if IsAa cfg a then .ok { h with addresses := setWord ((a - cfg.aaSpace) / 4) w h.addresses }
  else .error .wildAddress

def flagAa (cfg : Config) (a flag : Nat) (h : Heap π) : Except Fault (Heap π) := do
  let w ← h.loadAa cfg a
  h.storeAa cfg a (w ||| flag)

end Heap

/-- `get_abstract_address`; `none` is NULL. -/
def getAbstractAddress (cfg : Config) (t pageBlock : Nat) (h : Heap π) :
    Option Nat × Heap π :=
  match getFreeAa cfg.toAddressConfig t h.addresses with
  | (none, addresses) => (none, { h with addresses := addresses })
  | (some id, addresses) =>
      if id < cfg.nrAas then
        (some (aaPointer cfg id), { h with addresses := setWord id pageBlock addresses })
      else (none, { h with addresses := addresses })

def clearAbstractAddress (cfg : Config) (t a : Nat) (h : Heap π) : Except Fault (Heap π) := do
  let addresses ← putFreeAa cfg.toAddressConfig t ((a - cfg.aaSpace) / 4) h.addresses
  return { h with addresses := addresses }

def isPageFull (p pageBlockSize : Nat) (h : Heap π) : Prop :=
  (h.pages p).nrUsedPageBlocks = pageDataSize / pageBlockSize

instance (p size : Nat) (h : Heap π) : Decidable (isPageFull p size h) :=
  inferInstanceAs (Decidable (_ = _))

def freeUsedPageBlock (p index : Nat) (h : Heap π) : Except Fault (Heap π) := do
  let h := h.modifyPage p fun pg =>
    { pg with usedPageBlockBitmap := pg.usedPageBlockBitmap.clear index }
  ensure (0 < (h.pages p).nrUsedPageBlocks) .usedPageBlocks
  return h.dropUsed p

def getFreePageBlock (p : Nat) (h : Heap π) : Except Fault (Nat × Heap π) :=
  match (h.pages p).usedPageBlockBitmap.findUnused with
  | none => .error .noBit
  | some index => .ok (index, h.modifyPage p fun pg =>
      { pg with
        usedPageBlockBitmap := pg.usedPageBlockBitmap.mark index
        nrUsedPageBlocks := pg.nrUsedPageBlocks + 1 })

def doFreeSourceState (cfg : Config) (t c p : Nat) (h : Heap π) : Except Fault (Heap π) := do
  if (h.pages p).sourceentries = 0 then
    if (h.pages p).nrUsedPageBlocks = 0 then
      let h ← removePageFromEmptyingList c p h
      addFreePage cfg t p h
    else
      let h ← removePageFromSourceList c p h
      addPageToNfullList c p h
  else return h

/-- `--p->sourceentries; do_free_source_state(sc, p)`. -/
def releaseSource (cfg : Config) (t c p : Nat) (h : Heap π) : Except Fault (Heap π) :=
  doFreeSourceState cfg t c p
    (h.modifyPage p fun pg => { pg with sourceentries := decrement pg.sourceentries })

def doFreeFullState (cfg : Config) (t c p index : Nat) (h : Heap π) : Except Fault (Heap π) := do
  let h ← freeUsedPageBlock p index h
  let h ← removePageFromFullList c p h
  if (h.pages p).nrUsedPageBlocks = 0 then addFreePage cfg t p h
  else addPageToNfullList c p h

def doFreeNfullState (cfg : Config) (t c p index : Nat) (h : Heap π) : Except Fault (Heap π) := do
  if (h.pages p).nrUsedPageBlocks = 1 then
    let h ← freeUsedPageBlock p index h
    if (h.pages p).sourceentries = 0 then
      let h ← removePageFromNfullList c p h
      addFreePage cfg t p h
    else
      let h ← removePageFromSourceList c p h
      addPageToEmptyingList c p h
  else freeUsedPageBlock p index h

def doFree (cfg : Config) (t c p pageBlockSize index : Nat) (h : Heap π) :
    Except Fault (Heap π) :=
  if isPageFull p pageBlockSize h then doFreeFullState cfg t c p index h
  else doFreeNfullState cfg t c p index h

/-- Whether blocks of this size are copied in increments and have a partition field. -/
def Incremental (cfg : Config) (size : Nat) : Prop :=
  cfg.incrementalMemcpy ≠ 0 ∧ cfg.incrementalMemcpy < size

instance (cfg : Config) (size : Nat) : Decidable (Incremental cfg size) :=
  inferInstanceAs (Decidable (_ ∧ _))

/-- No copy increment ends inside the last word of a block of a class that is compacted: its
pages have more than one block. -/
def WholeCopies (inc : Nat) : Prop :=
  ∀ c, c < sizeClasses → 1 < capacity c → ∀ n, n * inc + 4 ≤ blockSize c ∨ blockSize c ≤ n * inc

theorem wholeCopies_of_multiple {inc : Nat} (word : inc % 4 = 0) : WholeCopies inc := by
  intro c hc _ n
  have size := blockSize_word hc
  have copied : n * inc % 4 = 0 := by rw [Nat.mul_mod, word, Nat.mul_zero, Nat.zero_mod]
  omega

/-- The local variables of `do_compaction` while the class lock is released. -/
structure Compaction where
  sc : Nat
  targetPage : Nat
  targetIndex : Nat
  srcPage : Nat
  srcIndex : Nat
  size : Nat
  remSize : Nat
  j : Nat
  dest : Nat
  src : Nat
  srcPartField : Nat
  targetPartField : Nat
  targetAa : Nat
  targetAaVal : Nat
  srcAa : Nat

/-- `do_compaction` has returned its abort flag, or has released the lock. -/
inductive Outcome where
  | returned (abort : Nat)
  | unlocked (comp : Compaction)

/-- The choice of the source block: the first used block of the source page, or
the source of the compaction that block is the target of. -/
def selectSource (cfg : Config) (t c srcPage size : Nat) (h : Heap π) :
    Except Fault (Nat × Nat × Heap π) :=
  match (h.pages srcPage).usedPageBlockBitmap.findUsed with
  | none => .error .noBit
  | some srcIndex => do
      let h := h.modifyPage srcPage fun pg =>
        { pg with usedPageBlockBitmap := pg.usedPageBlockBitmap.clear srcIndex }
      let srcPartField := partitionField srcPage srcIndex size
      if Incremental cfg size ∧ readWord h.memory srcPartField ≠ 0 then
        -- my source is a target block of a concurrent compaction operation
        let aa := readWord h.memory (srcPartField + 4)
        let h ← h.flagAa cfg aa abortCompactFlag
        let w ← h.loadAa cfg aa
        ensure (cfg.firstPage * pageSize < w) .heapBounds
        let src := readWord h.memory srcPartField
        let h ← releaseSource cfg t c srcPage h
        let h := h.writeMemory srcPartField 0
        let srcPage := pageOfBlock src
        ensure (0 < (h.pages srcPage).sourceentries) .sourceEntries
        ensure ((h.pages srcPage).listFlags = .source ∨ (h.pages srcPage).listFlags = .emptying)
          .listFlags
        return (srcPage, indexOfBlock srcPage src size, h)
      else return (srcPage, srcIndex, h)

/-- The end of `do_compaction` when the copy is complete. -/
def finishCompaction (cfg : Config) (t : Nat) (comp : Compaction) (h : Heap π) :
    Except Fault (Outcome × Heap π) := do
  let h ← h.storeAa cfg comp.srcAa comp.targetAaVal
  let h := if Incremental cfg comp.size then h.writeMemory comp.targetPartField 0 else h
  let h ← releaseSource cfg t comp.sc comp.srcPage h
  return (.returned 0, h)

/-- The end of `do_compaction` when the copy was aborted. -/
def abortCompaction (cfg : Config) (t : Nat) (comp : Compaction) (h : Heap π) :
    Except Fault (Outcome × Heap π) := do
  let w ← h.loadAa cfg comp.targetAa
  if w &&& abortCompactFlag ≠ 0 then
    let h ← clearAbstractAddress cfg t comp.targetAa h
    return (.returned abortCompactFlag, h)
  else if w &&& abortFreeFlag ≠ 0 then
    let h ← clearAbstractAddress cfg t comp.targetAa h
    return (.returned abortFreeFlag, h)
  else .error .reportBug

/-- One round of the copy loop, up to the release of the class lock or the end. -/
def copyIncrement (cfg : Config) (t : Nat) (comp : Compaction) (h : Heap π) :
    Except Fault (Outcome × Heap π) :=
  let cpySize :=
    if cfg.incrementalMemcpy ≠ 0 then min comp.remSize cfg.incrementalMemcpy else comp.remSize
  let h := { h with memory := memcpy h.memory comp.dest comp.src cpySize }
  let comp := { comp with
    remSize := comp.remSize - cpySize
    dest := comp.dest + cpySize
    src := comp.src + cpySize }
  if 0 < comp.remSize then
    let h := h.writeMemory comp.targetPartField (blockStart comp.srcPage comp.srcIndex comp.size)
    let h := h.writeMemory comp.srcPartField
      (blockStart comp.targetPage comp.targetIndex comp.size)
    .ok (.unlocked comp, h)
  else finishCompaction cfg t comp h

/-- `do_compaction` up to the first release of the class lock. -/
def doCompaction (cfg : Config) (t c targetPage targetIndex srcPage size : Nat) (h : Heap π) :
    Except Fault (Outcome × Heap π) := do
  let (srcPage, srcIndex, h) ← selectSource cfg t c srcPage size h
  let srcAa := readWord h.memory (addressField srcPage srcIndex size)
  ensure (srcAa ≠ 0) .nullAddress
  let h ← h.flagAa cfg srcAa abortCompactFlag
  let targetAa := readWord h.memory (addressField targetPage targetIndex size)
  ensure (targetAa ≠ 0) .nullAddress
  let targetAaVal ← h.loadAa cfg targetAa
  copyIncrement cfg t
    { sc := c
      targetPage := targetPage
      targetIndex := targetIndex
      srcPage := srcPage
      srcIndex := srcIndex
      size := size
      remSize := size
      j := 0
      dest := blockStart targetPage targetIndex size
      src := blockStart srcPage srcIndex size
      srcPartField := partitionField srcPage srcIndex size
      targetPartField := partitionField targetPage targetIndex size
      targetAa := targetAa
      targetAaVal := targetAaVal
      srcAa := srcAa } h

/-- `do_compaction` after the class lock is taken again. The outer loop tries the
rest of the copy once more for each of its remaining rounds. -/
def resumeCompaction (cfg : Config) (t : Nat) (comp : Compaction) (h : Heap π) :
    Except Fault (Outcome × Heap π) := do
  let w ← h.loadAa cfg comp.targetAa
  if w = comp.targetAaVal then copyIncrement cfg t comp h
  else if comp.j + 1 < cfg.memcpyMultiplicator then
    copyIncrement cfg t { comp with j := comp.j + 1 } h
  else abortCompaction cfg t comp h

end
end CompactFit
