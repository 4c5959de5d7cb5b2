import CompactFit.PageLists
import CompactFit.Library.BucketPool
import CompactFit.Library.LinkedChain

/-!
The pool of free pages. Both link fields of a free page lie in its own memory:
`next` in the first word, `local_pages` in the second. The code is related to a
bucketed pool of page numbers, so that a client of the pool sees a set of pages.
-/

namespace CompactFit
open Function ByteMemory LinkedChain

section PagePool
variable {π : Type}

def pageAddress (p : Nat) : Nat := p * pageSize

def pagePut (p last : Nat) (h : Heap π) : Heap π :=
  { h.writeMemory last h.freePageHead with freePageHead := p }

/-- `page_get(&free_page_head)`; 0 is the empty stack. -/
def pageGet (h : Heap π) : Nat × Heap π :=
  if h.freePageHead = 0 then (0, h)
  else (h.freePageHead, { h with freePageHead := readWord h.memory h.freePageHead })

/-- The refill step of `get_free_page`; `none` is its early `return NULL`. -/
def refillPages (cfg : Config) (t : Nat) (h : Heap π) : Option (Heap π) :=
  if (h.threads t).pagesCount = 0 then
    if (h.threads t).pbucketsCount = 0 then
      let (mp, h) := pageGet h
      if mp ≠ 0 then
        some (h.modifyThread t fun d => { d with pagesCount := cfg.nrLocalPages, pages := mp })
      else none
    else
      some (h.modifyThread t fun d =>
        { d with
          pages := d.pbuckets
          pagesCount := cfg.nrLocalPages
          pbuckets := readWord h.memory d.pbuckets
          pbucketsCount := d.pbucketsCount - 1 })
  else some h

def getFreePage (cfg : Config) (t : Nat) (h : Heap π) : Except Fault (Option Nat × Heap π) :=
  match refillPages cfg t h with
  | none => .ok (none, h)
  | some h => do
      let p := (h.threads t).pages
      let h := h.modifyThread t fun d =>
        { d with pages := readWord h.memory (p + 4), pagesCount := d.pagesCount - 1 }
      if p ≠ 0 then
        let p := pageOfBlock p
        ensure ((h.pages p).listFlags = .free) .listFlags
        return (some p, h.modifyPage p fun pg => { pg with listFlags := .none })
      else return (none, h)

/-- The local pages of `add_free_page` become the first bucket of the thread. -/
def closePages (t : Nat) (h : Heap π) : Heap π :=
  (h.writeMemory (h.threads t).pages (h.threads t).pbuckets).modifyThread t fun d =>
    { d with
      pbuckets := d.pages
      pbucketsCount := d.pbucketsCount + 1
      pagesCount := 0
      pages := 0
      lastPbucket := if d.pbucketsCount + 1 = 1 then d.pages else d.lastPbucket }

def sharePages (t : Nat) (h : Heap π) : Heap π :=
  (pagePut (h.threads t).pbuckets (h.threads t).lastPbucket h).modifyThread t fun d =>
    { d with pbucketsCount := 0, pbuckets := 0, lastPbucket := 0 }

/-- The first block of `add_free_page`. -/
def spillPages (cfg : Config) (t : Nat) (h : Heap π) : Heap π :=
  if (h.threads t).pagesCount = cfg.nrLocalPages then
    let h := closePages t h
    if cfg.nrLocalPbuckets ≤ (h.threads t).pbucketsCount then sharePages t h else h
  else h

/-- `add_free_page`; page number 0 is the page of NULL. -/
def addFreePage (cfg : Config) (t p : Nat) (h : Heap π) : Except Fault (Heap π) := do
  ensure (p ≠ 0) .nullPage
  ensure ((h.pages p).listFlags = .none) .listFlags
  let h := spillPages cfg t h
  let h := h.modifyPage p fun pg => { pg with listFlags := .free }
  let h := h.writeMemory (pageAddress p + 4) (h.threads t).pages
  return h.modifyThread t fun d =>
    { d with pages := pageAddress p, pagesCount := d.pagesCount + 1 }

/-- The loop of `init_free_pages_list` over the pages from number `p` on, with
`j` pages linked from `mp` in the bucket that is being filled. -/
def initFreePagesLoop (cfg : Config) : Nat → Nat → Nat → Nat → Heap π → Heap π
  | 0, _, _, _, h => h
  | n + 1, p, j, mp, h =>
      let h := h.modifyPage p fun pg => { pg with listFlags := .free }
      let (h, mp, j) :=
        if j < cfg.nrLocalPages then (h.writeMemory (pageAddress p + 4) mp, pageAddress p, j + 1)
        else (h, mp, j)
      if j = cfg.nrLocalPages then initFreePagesLoop cfg n (p + 1) 0 0 (pagePut mp mp h)
      else initFreePagesLoop cfg n (p + 1) j mp h

def initFreePagesList (cfg : Config) (h : Heap π) : Heap π :=
  initFreePagesLoop cfg cfg.nrPages cfg.firstPage 0 0 { h with freePageHead := 0 }

/-- The heap `cf_init` leaves: zero-filled mappings, empty size classes, and
every page in the free pool. -/
def initHeap (cfg : Config) (addresses : π) : Heap π :=
  initFreePagesList cfg
    { pages := fun _ =>
        { nrUsedPageBlocks := 0, listFlags := .none, sourceentries := 0, sc := 0,
          usedPageBlockBitmap := .empty }
      memory := fun _ => 0
      classes := fun _ =>
        { lists := fun _ => [], nfullentries := 0, maxNfullentries := 0, sourceentries := 0,
          maxSourceentries := 0, nrPages := 0, maxNrPages := 0 }
      freePageHead := 0
      threads := fun _ =>
        { pagesCount := 0, pages := 0, pbucketsCount := 0, pbuckets := 0, lastPbucket := 0 }
      addresses := addresses }

/-- The thread and the global stack have no page left: what `get_free_page`
checks before it gives up. -/
def NoFreePage (t : Nat) (h : Heap π) : Prop :=
  (h.threads t).pagesCount = 0 ∧ (h.threads t).pbucketsCount = 0 ∧ h.freePageHead = 0

/-! ### The links in memory -/

def nextLink (m : Memory) (a : Nat) : Nat := readWord m a
def localLink (m : Memory) (a : Nat) : Nat := readWord m (a + 4)

/-- The address of a bucket is the address of its first page. -/
def bucketAddress : List Nat → Nat
  | [] => 0
  | p :: _ => pageAddress p

theorem pageOfBlock_pageAddress (p : Nat) : pageOfBlock (pageAddress p) = p :=
  Nat.mul_div_cancel p (by decide)

theorem localLink_writeNext (m : Memory) (p q w : Nat) :
    localLink (writeWord m (pageAddress q) w) (pageAddress p) = localLink m (pageAddress p) := by
  refine (writeWord_agreeOn m (b := pageAddress p + 4) (n := 4) ?_).readWord le_rfl le_rfl
  simp only [pageAddress, pageSize]
  omega

theorem nextLink_writeNext (m : Memory) {p q : Nat} (w : Nat) (ne : p ≠ q) :
    nextLink (writeWord m (pageAddress q) w) (pageAddress p) = nextLink m (pageAddress p) := by
  refine (writeWord_agreeOn m (b := pageAddress p) (n := 4) ?_).readWord le_rfl le_rfl
  simp only [pageAddress, pageSize]
  omega

theorem nextLink_writeLocal (m : Memory) (p q w : Nat) :
    nextLink (writeWord m (pageAddress q + 4) w) (pageAddress p) = nextLink m (pageAddress p) := by
  refine (writeWord_agreeOn m (b := pageAddress p) (n := 4) ?_).readWord le_rfl le_rfl
  simp only [pageAddress, pageSize]
  omega

theorem localLink_writeLocal (m : Memory) {p q : Nat} (w : Nat) (ne : p ≠ q) :
    localLink (writeWord m (pageAddress q + 4) w) (pageAddress p) =
      localLink m (pageAddress p) := by
  refine (writeWord_agreeOn m (b := pageAddress p + 4) (n := 4) ?_).readWord le_rfl le_rfl
  simp only [pageAddress, pageSize]
  omega

/-- The heap's links represent the bucketed pool `P` of page numbers. -/
structure PoolRep (h : Heap π) (P : BucketPool.Pool Nat Nat) : Prop where
  pagesCount : ∀ t, (h.threads t).pagesCount = (P.locals t).items.length
  pages : ∀ t, Chain (localLink h.memory) (h.threads t).pages
    ((P.locals t).items.map pageAddress) 0
  pbucketsCount : ∀ t, (h.threads t).pbucketsCount = (P.locals t).buckets.length
  pbuckets : ∀ t, Chain (nextLink h.memory) (h.threads t).pbuckets
    ((P.locals t).buckets.map bucketAddress) 0
  lastPbucket : ∀ t bs b, (P.locals t).buckets = bs ++ [b] →
    (h.threads t).lastPbucket = bucketAddress b
  shared : Chain (nextLink h.memory) h.freePageHead (P.shared.map bucketAddress) 0
  bucket : ∀ b, (b ∈ P.shared ∨ ∃ t, b ∈ (P.locals t).buckets) →
    Chain (localLink h.memory) (bucketAddress b) (b.map pageAddress) 0

/-- The pool holds exactly the pages flagged as free, all of them heap pages. -/
structure PoolOk (cfg : Config) (h : Heap π) (P : BucketPool.Pool Nat Nat) : Prop where
  rep : PoolRep h P
  wellFormed : BucketPool.WellFormed cfg.nrLocalPages P
  holds : ∀ p, P.Holds p ↔ (h.pages p).listFlags = .free
  inHeap : ∀ p, (h.pages p).listFlags = .free → cfg.firstPage ≤ p ∧ p < cfg.firstPage + cfg.nrPages

theorem pageAddress_bounds {cfg : Config} {p : Nat}
    (hp : cfg.firstPage ≤ p ∧ p < cfg.firstPage + cfg.nrPages) :
    0 < pageAddress p ∧ pageAddress p + pageSize ≤ 4294967296 := by
  have pos := cfg.firstPage_pos
  have fits := cfg.heap_end
  have le : (p + 1) * pageSize ≤ (cfg.firstPage + cfg.nrPages) * pageSize :=
    Nat.mul_le_mul_right _ hp.2
  simp only [pageAddress, pageSize] at le fits ⊢
  omega

end PagePool
end CompactFit
