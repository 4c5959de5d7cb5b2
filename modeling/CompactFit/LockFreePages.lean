import CompactFit.Library.BucketImage
import CompactFit.NbStackCalls
import CompactFit.PageExchange

/-!
The pool of free pages as the threads share it: `get_free_page` and `add_free_page` with one
step for each access to the global stack. Between two accesses a thread works on its own lists
and on pages of its own.
-/

namespace CompactFit
open Function NbStack

/-- A completed call and what it returns. -/
inductive PoolEvent (α : Type) where
  | got (t : Nat) (p : Option α)
  | added (t : Nat) (p : α)
deriving DecidableEq

def PoolEvent.map {α β : Type} (f : α → β) : PoolEvent α → PoolEvent β
  | .got t p => .got t (p.map f)
  | .added t p => .added t (f p)

/-- The page fields of `struct thread_data`. -/
structure PoolData where
  pagesCount : Nat
  pages : Elem
  pbucketsCount : Nat
  pbuckets : Elem
  lastPbucket : Elem

/-- The call of a thread that has an access to the global stack to make. -/
inductive PoolCall where
  | idle
  | getting
  | adding (p : Elem)
deriving DecidableEq

/-- The global stack, the second word of every page, the list flags and the threads; `out` are
the pages that are handed out. On the stack the threads own the buckets of their lists, and
`none` owns every other page that is not on it. -/
structure LockFreePages where
  stack : NbStack.System (Option Nat)
  localPages : Elem → Elem
  listFlags : Elem → ListFlag
  threads : Nat → PoolData
  calls : Nat → PoolCall
  out : Finset Elem

inductive PoolAction where
  | get (t : Nat)
  | add (t : Nat) (p : Elem)
  | access (t : Nat)
  /-- The application writes the first two words of a page. -/
  | write (p v w : Elem)

namespace LockFreePages

def act (a : NbStack.Action (Option Nat)) (S : LockFreePages) : LockFreePages :=
  { S with stack := (S.stack.perform pageLayout a).1 }

def modifyThread (t : Nat) (f : PoolData → PoolData) (S : LockFreePages) : LockFreePages :=
  { S with threads := update S.threads t (f (S.threads t)) }

def setCall (t : Nat) (c : PoolCall) (S : LockFreePages) : LockFreePages :=
  { S with calls := update S.calls t c }

/-- `get_free_page` from `p = data->pages` on. -/
def takePage (t : Nat) (S : LockFreePages) :
    Except Fault (LockFreePages × Option (PoolEvent Elem)) := do
  let p := (S.threads t).pages
  let S := S.modifyThread t fun d =>
    { d with pages := S.localPages p, pagesCount := d.pagesCount - 1 }
  if p ≠ 0 then
    ensure (S.listFlags p = .free) .listFlags
    return ({ S with listFlags := update S.listFlags p .none, out := insert p S.out },
      some (.got t (some p)))
  else return (S, some (.got t none))

/-- A thread opens the first bucket of its own. -/
def openPbucket (cfg : Config) (t : Nat) (S : LockFreePages) : LockFreePages :=
  let b := (S.threads t).pbuckets
  (S.modifyThread t fun d =>
    { d with
      pages := b
      pagesCount := cfg.nrLocalPages
      pbuckets := S.stack.memory.next b
      pbucketsCount := d.pbucketsCount - 1 }).act (.pass (some t) none b)

/-- `get_free_page`, up to `page_get` if the thread has no page left. -/
def getFreePage (cfg : Config) (t : Nat) (S : LockFreePages) :
    Except Fault (LockFreePages × Option (PoolEvent Elem)) :=
  if (S.threads t).pagesCount = 0 then
    if (S.threads t).pbucketsCount = 0 then
      .ok ((S.act (.callGet (some t))).setCall t .getting, none)
    else (S.openPbucket cfg t).takePage t
  else S.takePage t

/-- `add_free_page` from `p->list_flags = FREE_LIST_FLAG` on. -/
def storePage (t : Nat) (p : Elem) (S : LockFreePages) :
    LockFreePages × Option (PoolEvent Elem) :=
  (({ S with
      listFlags := update S.listFlags p .free
      localPages := update S.localPages p (S.threads t).pages
      out := S.out.erase p }).modifyThread t fun d =>
        { d with pages := p, pagesCount := d.pagesCount + 1 },
    some (.added t p))

/-- The pages of the thread become its first bucket. -/
def closePages (t : Nat) (S : LockFreePages) : LockFreePages :=
  let b := (S.threads t).pages
  ((S.act (.write none b (S.threads t).pbuckets)).act (.pass none (some t) b)).modifyThread t
    fun d =>
      { d with
        pbuckets := d.pages
        pbucketsCount := d.pbucketsCount + 1
        pagesCount := 0
        pages := 0
        lastPbucket := if d.pbucketsCount + 1 = 1 then d.pages else d.lastPbucket }

/-- The call of `page_put` for the buckets of the thread. -/
def putPbuckets (t : Nat) (p : Elem) (S : LockFreePages) : LockFreePages :=
  let d := S.threads t
  (S.act (.callPut (some t) d.pbuckets d.lastPbucket
    (LinkedChain.follow S.stack.memory.next d.pbucketsCount d.pbuckets))).setCall t (.adding p)

/-- `add_free_page`, up to `page_put` if the thread has too many buckets. -/
def addFreePage (cfg : Config) (t : Nat) (p : Elem) (S : LockFreePages) :
    Except Fault (LockFreePages × Option (PoolEvent Elem)) := do
  ensure (p ≠ 0) .nullPage
  ensure (S.listFlags p = .none) .listFlags
  if (S.threads t).pagesCount = cfg.nrLocalPages then
    let S := S.closePages t
    if cfg.nrLocalPbuckets ≤ (S.threads t).pbucketsCount then return (S.putPbuckets t p, none)
    else return S.storePage t p
  else return S.storePage t p

/-- The next access of a thread to the global stack, and the rest of the call if it is
the last. -/
def access (cfg : Config) (t : Nat) (S : LockFreePages) :
    Except Fault (LockFreePages × Option (PoolEvent Elem)) :=
  match S.calls t, (S.stack.perform pageLayout (.access (some t))).2 with
  | .getting, some (.pop _ mp) =>
      ((((S.act (.access (some t))).act (.pass (some t) none mp)).setCall t .idle).modifyThread t
        fun d => { d with pagesCount := cfg.nrLocalPages, pages := mp }).takePage t
  | .getting, some (.empty _) =>
      .ok ((S.act (.access (some t))).setCall t .idle, some (.got t none))
  | .adding p, some (.push _ _) =>
      .ok ((((S.act (.access (some t))).setCall t .idle).modifyThread t fun d =>
        { d with pbucketsCount := 0, pbuckets := 0, lastPbucket := 0 }).storePage t p)
  | _, _ => .ok (S.act (.access (some t)), none)

def perform (cfg : Config) (S : LockFreePages) :
    PoolAction → Except Fault (LockFreePages × Option (PoolEvent Elem))
  | .get t => S.getFreePage cfg t
  | .add t p => S.addFreePage cfg t p
  | .access t => S.access cfg t
  | .write p v w =>
      .ok ({ S.act (.write none p v) with localPages := update S.localPages p w }, none)

/-- The page is handed out, and no thread is returning it. -/
def Owned (T : Nat) (S : LockFreePages) (p : Elem) : Prop :=
  p ∈ S.out ∧ ∀ t, t < T → S.calls t ≠ .adding p

/-- The application returns and writes pages of its own only, and a compare-and-swap comes
before the version has gone once around. -/
def Enabled (T : Nat) (S : LockFreePages) : PoolAction → Prop
  | .get t => t < T ∧ S.calls t = .idle
  | .add t p => t < T ∧ S.calls t = .idle ∧ S.Owned T p
  | .access t => S.calls t ≠ .idle ∧ S.stack.Allowed pageLayout (.access (some t))
  | .write p _ _ => S.Owned T p

instance (T : Nat) (S : LockFreePages) (p : Elem) : Decidable (S.Owned T p) :=
  inferInstanceAs (Decidable (_ ∧ ∀ _, _ → _))

instance (T : Nat) (S : LockFreePages) : (a : PoolAction) → Decidable (S.Enabled T a)
  | .get _ => inferInstanceAs (Decidable (_ ∧ _))
  | .add .. => inferInstanceAs (Decidable (_ ∧ _ ∧ _))
  | .access _ => inferInstanceAs (Decidable (_ ∧ _))
  | .write p _ _ => inferInstanceAs (Decidable (S.Owned T p))

end LockFreePages

def pageElem (p : Nat) : Elem := BitVec.ofNat 32 (pageAddress p)

def pageElems (cfg : Config) : Finset Elem :=
  ((List.range' cfg.firstPage cfg.nrPages).map pageElem).toFinset

namespace LockFreePages

/-- `page_put(mp, mp, &free_page_head)` before there are other threads. -/
def putAlone (mp : Elem) (S : LockFreePages) : LockFreePages :=
  { S with stack := S.stack.putAlone pageLayout none mp }

/-- The loop of `init_free_pages_list` over the pages from number `p` on, with
`j` pages linked from `mp` in the bucket that is being filled. -/
def initFreePagesLoop (cfg : Config) : Nat → Nat → Nat → Elem → LockFreePages → LockFreePages
  | 0, _, _, _, S => S
  | n + 1, p, j, mp, S =>
      let S := { S with listFlags := update S.listFlags (pageElem p) .free }
      let (S, mp, j) :=
        if j < cfg.nrLocalPages then
          ({ S with localPages := update S.localPages (pageElem p) mp }, pageElem p, j + 1)
        else (S, mp, j)
      if j = cfg.nrLocalPages then initFreePagesLoop cfg n (p + 1) 0 0 (S.putAlone mp)
      else initFreePagesLoop cfg n (p + 1) j mp S

/-- Zero-filled memory, with no page on the global stack. -/
def blank (cfg : Config) : LockFreePages where
  stack :=
    { memory := { head := 0, next := fun _ => 0 }
      locals := fun _ => .idle
      held := fun t => if t = none then pageElems cfg else ∅
      chain := fun _ => []
      updates := 0
      since := fun _ => 0 }
  localPages _ := 0
  listFlags _ := .none
  threads _ := { pagesCount := 0, pages := 0, pbucketsCount := 0, pbuckets := 0, lastPbucket := 0 }
  calls _ := .idle
  out := ∅

def init (cfg : Config) : LockFreePages :=
  initFreePagesLoop cfg cfg.nrPages cfg.firstPage 0 0 (blank cfg)

/-- The states of all runs, with the calls in the order in which they are completed. -/
inductive Run (cfg : Config) (T : Nat) : List (PoolEvent Elem) → LockFreePages → Prop where
  | init : Run cfg T [] (init cfg)
  | step {es : List (PoolEvent Elem)} {S S' : LockFreePages} {e : Option (PoolEvent Elem)}
      (a : PoolAction) : Run cfg T es S → S.Enabled T a → S.perform cfg a = .ok (S', e) →
      Run cfg T (es ++ e.toList) S'

end LockFreePages
end CompactFit
