import CompactFit.AddressPool
import CompactFit.Library.BucketPool
import CompactFit.Library.LinkedChain

/-!
The pool of free abstract addresses. The free identifiers are linked through the
table itself; a full bucket has the first identifier of its list in its second word,
and an empty bucket the next empty bucket in the same word. A thread that fills a
bucket needs an empty one, of its own or from the chains the threads have given back.
-/

namespace CompactFit
open Function LinkedChain

/-- `struct mem_aa` and `struct mem_aa_bucket` in one: the second word is `local_aas`
of a full bucket and `local_aa_bucket` of an empty one. -/
structure BucketCell where
  next : Nat
  localWord : Nat

/-- The address fields of `struct thread_data`. -/
structure ThreadAddresses where
  aasCount : Nat
  aas : Nat
  abucketsCount : Nat
  abuckets : Nat
  lastAbucket : Nat
  freeAbucketsCount : Nat
  freeAbuckets : Nat

/-- The abstract address space with its pool. The pointer to `aa_buckets[b]` is `b + 1`,
and 0 is NULL. -/
structure AddressBuckets where
  aaSpace : Nat → Nat
  aaBuckets : Nat → BucketCell
  freeAaHead : Nat
  freeAaBucketsHead : Nat
  threads : Nat → ThreadAddresses

namespace AddressBuckets

def modifyThread (σ : AddressBuckets) (t : Nat) (f : ThreadAddresses → ThreadAddresses) :
    AddressBuckets :=
  { σ with threads := update σ.threads t (f (σ.threads t)) }

def modifyBucket (σ : AddressBuckets) (b : Nat) (f : BucketCell → BucketCell) :
    AddressBuckets :=
  { σ with aaBuckets := update σ.aaBuckets b (f (σ.aaBuckets b)) }

def setWord (σ : AddressBuckets) (id w : Nat) : AddressBuckets :=
  { σ with aaSpace := update σ.aaSpace id w }

def aaPut (first last : Nat) (σ : AddressBuckets) : AddressBuckets :=
  { σ.modifyBucket last fun m => { m with next := σ.freeAaHead } with freeAaHead := first }

def aaGet (σ : AddressBuckets) : Nat × AddressBuckets :=
  if σ.freeAaHead = 0 then (0, σ)
  else (σ.freeAaHead, { σ with freeAaHead := (σ.aaBuckets σ.freeAaHead).next })

def aaBucketPut (first last : Nat) (σ : AddressBuckets) : AddressBuckets :=
  { σ.modifyBucket last fun m => { m with next := σ.freeAaBucketsHead } with
    freeAaBucketsHead := first }

def aaBucketGet (σ : AddressBuckets) : Nat × AddressBuckets :=
  if σ.freeAaBucketsHead = 0 then (0, σ)
  else (σ.freeAaBucketsHead,
    { σ with freeAaBucketsHead := (σ.aaBuckets σ.freeAaBucketsHead).next })

/-- `get_free_aa` installs the identifiers of the bucket `maa`. -/
def installAas (cfg : AddressConfig) (t maa : Nat) (σ : AddressBuckets) : AddressBuckets :=
  σ.modifyThread t fun d =>
    { d with aas := (σ.aaBuckets maa).localWord, aasCount := cfg.nrLocalAas }

def shareFreeAbuckets (cfg : AddressConfig) (t : Nat) (σ : AddressBuckets) : AddressBuckets :=
  if cfg.nrLocalFreeAbuckets ≤ (σ.threads t).freeAbucketsCount then
    (aaBucketPut (σ.threads t).freeAbuckets (σ.threads t).freeAbuckets σ).modifyThread t fun d =>
      { d with freeAbuckets := 0, freeAbucketsCount := 0 }
  else σ

def keepBucket (cfg : AddressConfig) (t maa : Nat) (σ : AddressBuckets) : AddressBuckets :=
  let σ := shareFreeAbuckets cfg t σ
  (σ.modifyBucket maa fun m => { m with localWord := (σ.threads t).freeAbuckets }).modifyThread t
    fun d => { d with freeAbuckets := maa, freeAbucketsCount := d.freeAbucketsCount + 1 }

/-- The first block of `get_free_aa`; `none` is its early `return -1`. -/
def refillAas (cfg : AddressConfig) (t : Nat) (σ : AddressBuckets) : Option AddressBuckets :=
  if (σ.threads t).aasCount = 0 then
    if (σ.threads t).abucketsCount = 0 then
      let (maa, σ) := aaGet σ
      if maa = 0 then none else some (keepBucket cfg t maa (installAas cfg t maa σ))
    else
      let maa := (σ.threads t).abuckets
      let σ := σ.modifyThread t fun d =>
        { d with abuckets := (σ.aaBuckets maa).next, abucketsCount := d.abucketsCount - 1 }
      some (keepBucket cfg t maa (installAas cfg t maa σ))
  else some σ

def getFreeAa (cfg : AddressConfig) (t : Nat) (σ : AddressBuckets) : Option Nat × AddressBuckets :=
  match refillAas cfg t σ with
  | none => (none, σ)
  | some σ =>
      let next := (σ.threads t).aas
      (some next, σ.modifyThread t fun d =>
        { d with aas := σ.aaSpace next, aasCount := d.aasCount - 1 })

/-- `put_free_aa` takes an empty bucket; a thread without one fetches a chain. -/
def takeFreeAbucket (cfg : AddressConfig) (t : Nat) (σ : AddressBuckets) :
    Except Fault (Nat × AddressBuckets) := do
  let σ ← if (σ.threads t).freeAbucketsCount = 0 then do
      let (b, σ) := aaBucketGet σ
      ensure (b ≠ 0) .emptyBucket
      .ok (σ.modifyThread t fun d =>
        { d with freeAbuckets := b, freeAbucketsCount := cfg.nrLocalFreeAbuckets })
    else .ok σ
  let maa := (σ.threads t).freeAbuckets
  return (maa, σ.modifyThread t fun d =>
    { d with
      freeAbuckets := (σ.aaBuckets maa).localWord
      freeAbucketsCount := d.freeAbucketsCount - 1 })

def closeAas (t maa : Nat) (σ : AddressBuckets) : AddressBuckets :=
  (σ.modifyBucket maa fun _ =>
    { next := (σ.threads t).abuckets, localWord := (σ.threads t).aas }).modifyThread t fun d =>
    { d with
      abuckets := maa
      abucketsCount := d.abucketsCount + 1
      aasCount := 0
      lastAbucket := if d.abucketsCount + 1 = 1 then maa else d.lastAbucket }

def shareAas (t : Nat) (σ : AddressBuckets) : AddressBuckets :=
  (aaPut (σ.threads t).abuckets (σ.threads t).lastAbucket σ).modifyThread t fun d =>
    { d with abucketsCount := 0, abuckets := 0, lastAbucket := 0 }

/-- The first block of `put_free_aa`. -/
def spillAas (cfg : AddressConfig) (t : Nat) (σ : AddressBuckets) :
    Except Fault AddressBuckets := do
  if (σ.threads t).aasCount = cfg.nrLocalAas then
    let (maa, σ) ← takeFreeAbucket cfg t σ
    let σ := closeAas t maa σ
    return if cfg.nrLocalAbuckets ≤ (σ.threads t).abucketsCount then shareAas t σ else σ
  else return σ

/-- The identifier becomes the first of the thread's list; the first entry of a list is
not linked. -/
def pushAa (t id : Nat) (σ : AddressBuckets) : AddressBuckets :=
  (if (σ.threads t).aasCount ≠ 0 then σ.setWord id (σ.threads t).aas else σ).modifyThread t
    fun d => { d with aas := id, aasCount := d.aasCount + 1 }

def putFreeAa (cfg : AddressConfig) (t id : Nat) (σ : AddressBuckets) :
    Except Fault AddressBuckets := do
  let σ ← spillAas cfg t σ
  return pushAa t id σ

/-- The loop of `init_free_aa_list` over the counter values from `i` on. -/
def initFreeAaLoop (cfg : AddressConfig) : Nat → Nat → AddressBuckets → AddressBuckets
  | 0, _, σ => σ
  | n + 1, i, σ =>
      if i % cfg.nrLocalAas ≠ 0 then initFreeAaLoop cfg n (i + 1) (σ.setWord i (i - 1))
      else
        let b := (i - 1) / cfg.nrLocalAas + 1
        initFreeAaLoop cfg n (i + 1)
          (aaPut b b (σ.modifyBucket b fun m => { m with localWord := i - 1 }))

/-- `init_free_aa_list`, from the zero-filled mappings of `cf_init`. -/
def initFreeAaList (cfg : AddressConfig) : AddressBuckets :=
  initFreeAaLoop cfg cfg.nrAas 1
    { aaSpace := fun _ => 0
      aaBuckets := fun _ => { next := 0, localWord := 0 }
      freeAaHead := 0
      freeAaBucketsHead := 0
      threads := fun _ =>
        { aasCount := 0, aas := 0, abucketsCount := 0, abuckets := 0, lastAbucket := 0,
          freeAbucketsCount := 0, freeAbuckets := 0 } }

instance : AddressPool AddressBuckets where
  word σ id := σ.aaSpace id
  setWord id w σ := σ.setWord id w
  getFreeAa := getFreeAa
  putFreeAa := putFreeAa

section Fields
variable (σ : AddressBuckets) (t b : Nat) (f : ThreadAddresses → ThreadAddresses)
  (g : BucketCell → BucketCell)

@[simp] theorem modifyThread_same : (σ.modifyThread t f).threads t = f (σ.threads t) := by
  simp [modifyThread]

@[simp] theorem modifyThread_other {s : Nat} (ne : s ≠ t) :
    (σ.modifyThread t f).threads s = σ.threads s := by
  simp [modifyThread, ne]

@[simp] theorem modifyThread_aaSpace : (σ.modifyThread t f).aaSpace = σ.aaSpace := rfl

@[simp] theorem modifyThread_aaBuckets : (σ.modifyThread t f).aaBuckets = σ.aaBuckets := rfl

@[simp] theorem modifyThread_freeAaHead : (σ.modifyThread t f).freeAaHead = σ.freeAaHead := rfl

@[simp] theorem modifyThread_freeAaBucketsHead :
    (σ.modifyThread t f).freeAaBucketsHead = σ.freeAaBucketsHead := rfl

@[simp] theorem modifyBucket_same : (σ.modifyBucket b g).aaBuckets b = g (σ.aaBuckets b) := by
  simp [modifyBucket]

@[simp] theorem modifyBucket_other {c : Nat} (ne : c ≠ b) :
    (σ.modifyBucket b g).aaBuckets c = σ.aaBuckets c := by
  simp [modifyBucket, ne]

@[simp] theorem modifyBucket_aaSpace : (σ.modifyBucket b g).aaSpace = σ.aaSpace := rfl

@[simp] theorem modifyBucket_threads : (σ.modifyBucket b g).threads = σ.threads := rfl

@[simp] theorem modifyBucket_freeAaHead : (σ.modifyBucket b g).freeAaHead = σ.freeAaHead := rfl

@[simp] theorem modifyBucket_freeAaBucketsHead :
    (σ.modifyBucket b g).freeAaBucketsHead = σ.freeAaBucketsHead := rfl

end Fields
end AddressBuckets
end CompactFit
