import CompactFit.Bitmap
import CompactFit.SizeClassTable
import CompactFit.Library.ByteMemory

/-!
The allocator's data: page headers, size classes, per-thread page pools and the
memory arrays of the pages as one byte-addressed memory. A page is named by its
page number, the high 18 bits of its address, and a list of pages is the Lean
list of its entries from `next` of the list head on. Words are 32 bits wide.
-/

namespace CompactFit
open Function ByteMemory

/-- `ABORT_COMPACT_FLAG`: another compaction operation moved the target block. -/
def abortCompactFlag : Nat := 1

/-- `ABORT_FREE_FLAG`: another free operation freed the source block. -/
def abortFreeFlag : Nat := 2

/-- The failing assertions of the source, and the accesses it cannot make. -/
inductive Fault where
  | listFlags | usedPageBlocks | sourceEntries | nullPage | nullAddress | heapBounds | reportBug
  | emptyBucket | emptyList | noBit | wildAddress | noSizeClass
deriving DecidableEq

def ensure (c : Prop) [Decidable c] (fault : Fault) : Except Fault Unit :=
  if c then .ok () else .error fault

@[simp] theorem ensure_true {c : Prop} [Decidable c] (h : c) (fault : Fault) :
    ensure c fault = .ok () := if_pos h

@[simp] theorem ok_bind {α β : Type} (x : α) (f : α → Except Fault β) :
    (Except.ok x >>= f) = f x := rfl

/-- `n++` and `n--` of a `uint32_t`. -/
def increment (n : Nat) : Nat := if n = 4294967295 then 0 else n + 1

def decrement (n : Nat) : Nat := if n = 0 then 4294967295 else n - 1

theorem increment_of_lt {n m : Nat} (h : n < m) (hm : m ≤ 4294967295) : increment n = n + 1 :=
  if_neg (by omega)

theorem decrement_of_pos {n : Nat} (h : 0 < n) : decrement n = n - 1 := if_neg (by omega)

/-- The parameters of the abstract address space; `cf_init` asserts that they are
positive. -/
structure AddressConfig where
  nrAaBuckets : Nat
  nrLocalAas : Nat
  nrLocalAbuckets : Nat
  nrLocalFreeAbuckets : Nat
  nrAaBuckets_pos : 0 < nrAaBuckets
  nrLocalAas_pos : 0 < nrLocalAas
  nrLocalAbuckets_pos : 0 < nrLocalAbuckets
  nrLocalFreeAbuckets_pos : 0 < nrLocalFreeAbuckets

def AddressConfig.nrAas (cfg : AddressConfig) : Nat := cfg.nrAaBuckets * cfg.nrLocalAas

/-- The values `cf_init` fixes. The last fields are what its types, arithmetic and
assertions give: the `int` parameters fit, the pages and the address table lie in
the 32-bit space, NULL is in neither, and the pages come in whole buckets. -/
structure Config extends AddressConfig where
  partialCompactionBound : Int
  incrementalMemcpy : Nat
  memcpyMultiplicator : Nat
  firstPage : Nat
  nrPages : Nat
  nrLocalPages : Nat
  nrLocalPbuckets : Nat
  aaSpace : Nat
  /-- The half-word behind `size_2_size_class_map`. -/
  past : Nat
  partialCompactionBound_int : -2147483648 ≤ partialCompactionBound ∧
    partialCompactionBound < 2147483648
  incrementalMemcpy_int : incrementalMemcpy < 2147483648
  memcpyMultiplicator_pos : 0 < memcpyMultiplicator
  nrLocalPages_pos : 0 < nrLocalPages
  nrLocalPbuckets_pos : 0 < nrLocalPbuckets
  firstPage_pos : 0 < firstPage
  heap_end : (firstPage + nrPages) * pageSize ≤ 4294967296
  nrPages_buckets : nrLocalPages ∣ nrPages
  aaSpace_pos : 0 < aaSpace
  aaSpace_end : aaSpace + 4 * toAddressConfig.nrAas ≤ 4294967296

theorem partialCompactionBound_one : (-2147483648 : Int) ≤ 1 ∧ (1 : Int) < 2147483648 := by decide

theorem partialCompactionBound_off : (-2147483648 : Int) ≤ -1 ∧ (-1 : Int) < 2147483648 := by decide

theorem incrementalMemcpy_off : 0 < 2147483648 := by decide

/-- `list_flags`; `none` is the value 0. -/
inductive ListFlag where
  | none | nfull | full | source | emptying | free
deriving DecidableEq

structure Page where
  nrUsedPageBlocks : Nat
  listFlags : ListFlag
  sourceentries : Nat
  sc : Nat
  usedPageBlockBitmap : UsedBitmap

structure SizeClass where
  lists : ListFlag → List Nat
  nfullentries : Nat
  maxNfullentries : Nat
  sourceentries : Nat
  maxSourceentries : Nat
  nrPages : Nat
  maxNrPages : Nat

/-- The page fields of `struct thread_data`; the pointers are addresses and
0 is NULL. -/
structure ThreadPages where
  pagesCount : Nat
  pages : Nat
  pbucketsCount : Nat
  pbuckets : Nat
  lastPbucket : Nat

/-- The whole heap, over any representation `π` of the abstract address space
with its pool. -/
structure Heap (π : Type) where
  pages : Nat → Page
  memory : Memory
  classes : Nat → SizeClass
  freePageHead : Nat
  threads : Nat → ThreadPages
  addresses : π

/-- `get_page_direct_of_page_block`: the mask keeps the page number. -/
def pageOfBlock (pageBlock : Nat) : Nat := pageBlock / pageSize

/-- `get_index_direct_of_page_block`. -/
def indexOfBlock (p pageBlock size : Nat) : Nat := (pageBlock - p * pageSize) / size

/-- `p->memory + index*size`. -/
def blockStart (p index size : Nat) : Nat := p * pageSize + index * size

/-- The last word of a page block, which holds its abstract address. -/
def addressField (p index size : Nat) : Nat := p * pageSize + ((index + 1) * size - 4)

/-- The last but one word of a page block. -/
def partitionField (p index size : Nat) : Nat := p * pageSize + ((index + 1) * size - 8)

namespace Heap
variable {π : Type}

def modifyPage (h : Heap π) (p : Nat) (f : Page → Page) : Heap π :=
  { h with pages := update h.pages p (f (h.pages p)) }

def modifyClass (h : Heap π) (c : Nat) (f : SizeClass → SizeClass) : Heap π :=
  { h with classes := update h.classes c (f (h.classes c)) }

def modifyThread (h : Heap π) (t : Nat) (f : ThreadPages → ThreadPages) : Heap π :=
  { h with threads := update h.threads t (f (h.threads t)) }

def writeMemory (h : Heap π) (a w : Nat) : Heap π :=
  { h with memory := writeWord h.memory a w }

@[simp] theorem modifyPage_same (h : Heap π) (p : Nat) (f : Page → Page) :
    (h.modifyPage p f).pages p = f (h.pages p) := by simp [modifyPage]

@[simp] theorem modifyPage_other (h : Heap π) {p q : Nat} (f : Page → Page) (ne : q ≠ p) :
    (h.modifyPage p f).pages q = h.pages q := by simp [modifyPage, ne]

theorem modifyPage_congr {h : Heap π} {p : Nat} {f g : Page → Page}
    (eq : f (h.pages p) = g (h.pages p)) : h.modifyPage p f = h.modifyPage p g := by
  simp only [modifyPage, eq]

@[simp] theorem modifyPage_memory (h : Heap π) (p : Nat) (f : Page → Page) :
    (h.modifyPage p f).memory = h.memory := rfl

@[simp] theorem modifyPage_classes (h : Heap π) (p : Nat) (f : Page → Page) :
    (h.modifyPage p f).classes = h.classes := rfl

@[simp] theorem modifyPage_freePageHead (h : Heap π) (p : Nat) (f : Page → Page) :
    (h.modifyPage p f).freePageHead = h.freePageHead := rfl

@[simp] theorem modifyPage_threads (h : Heap π) (p : Nat) (f : Page → Page) :
    (h.modifyPage p f).threads = h.threads := rfl

@[simp] theorem modifyPage_addresses (h : Heap π) (p : Nat) (f : Page → Page) :
    (h.modifyPage p f).addresses = h.addresses := rfl

@[simp] theorem modifyClass_same (h : Heap π) (c : Nat) (f : SizeClass → SizeClass) :
    (h.modifyClass c f).classes c = f (h.classes c) := by simp [modifyClass]

@[simp] theorem modifyClass_other (h : Heap π) {c d : Nat} (f : SizeClass → SizeClass)
    (ne : d ≠ c) : (h.modifyClass c f).classes d = h.classes d := by simp [modifyClass, ne]

@[simp] theorem modifyClass_pages (h : Heap π) (c : Nat) (f : SizeClass → SizeClass) :
    (h.modifyClass c f).pages = h.pages := rfl

@[simp] theorem modifyClass_memory (h : Heap π) (c : Nat) (f : SizeClass → SizeClass) :
    (h.modifyClass c f).memory = h.memory := rfl

@[simp] theorem modifyClass_freePageHead (h : Heap π) (c : Nat) (f : SizeClass → SizeClass) :
    (h.modifyClass c f).freePageHead = h.freePageHead := rfl

@[simp] theorem modifyClass_threads (h : Heap π) (c : Nat) (f : SizeClass → SizeClass) :
    (h.modifyClass c f).threads = h.threads := rfl

@[simp] theorem modifyClass_addresses (h : Heap π) (c : Nat) (f : SizeClass → SizeClass) :
    (h.modifyClass c f).addresses = h.addresses := rfl

end Heap
end CompactFit
