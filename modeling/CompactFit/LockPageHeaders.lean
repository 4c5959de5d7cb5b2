import CompactFit.LockPage

/-!
What the places of the threads say about locks and page headers. A thread with the lock of a
class may leave one page of the class with a header that does not fit its lists yet; nobody
else looks at that page, since all who do need the lock of the class.
-/

namespace CompactFit
namespace LockPage
open Function

namespace Place

def locks : Place → List Mutex
  | mallocPage _ c | mallocLockPage _ c _ | mallocName _ c _ _ | mallocUnlock _ c _ =>
      [.sizeClass c]
  | mallocBlock _ c p | mallocUnlockPage _ c p _ => [.sizeClass c, .page p]
  | freeCheck _ c | freeRetry _ c | freeClear _ c | freeUnlock c => [.sizeClass c]
  | dropLock f _ | dropMove f _ | compactLockTarget f _ | compactRelease f _ => [.sizeClass f.sc]
  | dropBlock f _ | dropUnlock f _ | compactLockSource f _ => [.sizeClass f.sc, .page f.page]
  | compactSelect f p => [.sizeClass f.sc, .page f.page, .page p]
  | compactUnlock f m => [.sizeClass f.sc, .page f.page, .page m.srcPage]
  | compactCopy f m => [.page f.page, .page m.srcPage]
  | compactUnlockTarget f p => [.page f.page, .page p]
  | compactUnlockSource _ p => [.page p]
  | _ => []

def address : Place → Option Nat
  | mallocUnlock _ _ a => a
  | freeRead a | freeClass a _ | freeLock a _ | freeCheck a _ | freeRetry a _ | freeClear a _ =>
      some a
  | dropLock f _ | dropBlock f _ | dropUnlock f _ | dropMove f _ | compactLockTarget f _
  | compactLockSource f _ | compactSelect f _ | compactUnlock f _ | compactCopy f _
  | compactUnlockTarget f _ | compactUnlockSource f _ | compactLock f _ | compactRelease f _ =>
      some f.address
  | _ => none

/-- That address as long as it designates a block. -/
def keeps : Place → Option Nat
  | mallocUnlock _ _ a => a
  | freeRead a | freeClass a _ | freeLock a _ | freeCheck a _ | freeRetry a _ => some a
  | dropLock f _ | dropBlock f _ | compactLockTarget f _ | compactLockSource f _
  | compactSelect f _ => some f.address
  | _ => none

/-- The block that a `cf_malloc` has taken and not named yet. -/
def taken : Place → Option Block
  | mallocUnlockPage _ _ p index | mallocName _ _ p index => some ⟨p, index⟩
  | _ => none

def pinned : Place → Option (Nat × Nat)
  | compactLockTarget f p | compactLockSource f p | compactSelect f p | compactUnlockTarget f p
  | compactUnlockSource f p | compactLock f p | compactRelease f p => some (p, f.sc)
  | compactUnlock f m | compactCopy f m => some (m.srcPage, f.sc)
  | _ => none

def entries (p : Nat) (place : Place) : Nat :=
  if place.pinned.map Prod.fst = some p then 1 else 0

def copying : Place → Option (Freeing × Copy)
  | compactUnlock f m | compactCopy f m => some (f, m)
  | _ => none

def frees : Place → Option Freeing
  | dropLock f _ | dropBlock f _ | compactLockTarget f _ | compactLockSource f _
  | compactSelect f _ => some f
  | _ => none

def loosens : Place → Option Nat
  | mallocLockPage _ _ p | mallocBlock _ _ p | mallocUnlockPage _ _ p _ | mallocName _ _ p _ =>
      some p
  | dropUnlock f _ | dropMove f _ => some f.page
  | compactLockTarget _ p | compactLockSource _ p | compactSelect _ p => some p
  | _ => none

/-- The pages whose headers the thread relies on, with their class. -/
def watches : Place → List (Nat × Nat)
  | mallocLockPage _ c p | mallocBlock _ c p | mallocUnlockPage _ c p _ | mallocName _ c p _ =>
      [(p, c)]
  | dropLock f _ | dropBlock f _ | dropUnlock f _ | dropMove f _ => [(f.page, f.sc)]
  | compactLockTarget f p | compactLockSource f p | compactSelect f p =>
      [(f.page, f.sc), (p, f.sc)]
  | _ => []

/-- Two places of the same thread that differ in its locks only. -/
structure Alike (p q : Place) : Prop where
  address : q.address = p.address
  keeps : q.keeps = p.keeps
  taken : q.taken = p.taken
  pinned : q.pinned = p.pinned
  copying : q.copying = p.copying
  loosens : q.loosens = p.loosens

theorem alike_of_acquires {p : Place} {m : Mutex} (h : p.acquires = some m) :
    Alike p p.next ∧ p.next.frees = p.frees := by
  cases p <;> simp only [acquires, reduceCtorEq] at h <;>
    exact ⟨⟨rfl, rfl, rfl, rfl, rfl, rfl⟩, rfl⟩

theorem locks_of_acquires {p : Place} {m : Mutex} (h : p.acquires = some m) (m' : Mutex) :
    m' ∈ p.next.locks ↔ m' ∈ p.locks ∨ m' = m := by
  cases p <;> simp only [acquires, reduceCtorEq, Option.some.injEq] at h <;> subst h <;>
    simp [next, locks, or_assoc]

theorem locks_of_class {p : Place} {f : Nat × Nat} (h : f ∈ p.watches) :
    .sizeClass f.2 ∈ p.locks := by
  cases p <;> simp only [watches, List.not_mem_nil, List.mem_cons, or_false] at h <;>
    rcases h with rfl | rfl <;> simp [locks]

theorem watches_of_loosens {p : Place} {q : Nat} (h : p.loosens = some q) :
    ∃ c, (q, c) ∈ p.watches := by
  cases p <;> simp only [loosens, reduceCtorEq, Option.some.injEq] at h <;> subst h <;>
    simp [watches]

/-- An address whose block no other thread can move, with the class of the block. -/
def settled : Place → Option (Nat × Nat)
  | mallocUnlock _ c (some a) => some (a, c)
  | dropLock f _ | dropBlock f _ | compactLockTarget f _ | compactLockSource f _
  | compactSelect f _ => some (f.address, f.sc)
  | _ => none

theorem locks_of_settled {p : Place} {a c : Nat} (h : p.settled = some (a, c)) :
    .sizeClass c ∈ p.locks ∧ p.address = some a ∧ p.keeps = some a := by
  cases p <;> simp only [settled, reduceCtorEq, Option.some.injEq, Prod.mk.injEq] at h
  case mallocUnlock size d address =>
    cases address <;> simp only [reduceCtorEq, Option.some.injEq, Prod.mk.injEq] at h
    obtain ⟨rfl, rfl⟩ := h
    simp [locks, address, keeps]
  all_goals
    obtain ⟨rfl, rfl⟩ := h
    simp [locks, address, keeps]

theorem settled_of_frees {p : Place} {f : Freeing} (h : p.frees = some f) :
    p.settled = some (f.address, f.sc) := by
  cases p <;> simp only [frees, reduceCtorEq, Option.some.injEq] at h <;> subst h <;> rfl

theorem locks_of_copying {p : Place} {f : Freeing} {m : Copy} (h : p.copying = some (f, m)) :
    .page f.page ∈ p.locks ∧ .page m.srcPage ∈ p.locks ∧ p.pinned = some (m.srcPage, f.sc) := by
  cases p <;> simp only [copying, reduceCtorEq, Option.some.injEq, Prod.mk.injEq] at h <;>
    obtain ⟨rfl, rfl⟩ := h <;> simp [locks, pinned]

theorem settled_of_acquires {p : Place} {m : Mutex} (h : p.acquires = some m) :
    p.next.settled = p.settled := by
  cases p <;> simp only [acquires, reduceCtorEq] at h <;> rfl

theorem alike_of_releases {p : Place} {m : Mutex} (h : p.releases = some m)
    (silent : ∀ size c a, p ≠ .mallocUnlock size c (some a)) :
    Alike p p.next ∧ p.next.settled = none := by
  cases p <;> simp only [releases, reduceCtorEq] at h
  case mallocUnlock size c address =>
    cases address with
    | none => exact ⟨⟨rfl, rfl, rfl, rfl, rfl, rfl⟩, rfl⟩
    | some a => exact absurd rfl (silent size c a)
  all_goals exact ⟨⟨rfl, rfl, rfl, rfl, rfl, rfl⟩, rfl⟩

theorem held_of_releases {p : Place} {m : Mutex} (h : p.releases = some m) : m ∈ p.locks := by
  cases p <;> simp only [releases, reduceCtorEq, Option.some.injEq] at h <;> subst h <;>
    simp [locks]

theorem address_of_keeps {p : Place} {a : Nat} (h : p.keeps = some a) : p.address = some a := by
  cases p <;> simp only [keeps, reduceCtorEq] at h <;> exact h

end Place

/-! ### Headers -/

section Headers
variable {π : Type}

/-- The header of the page that `cf_malloc` takes a block from. -/
structure Chosen (c : Nat) (pg : Page) : Prop where
  sc : pg.sc = c
  flag : pg.listFlags = .nfull
  room : pg.nrUsedPageBlocks < capacity c
  entries : pg.sourceentries = 0
  page : PageOk { pg with listFlags := if pg.nrUsedPageBlocks = 0 then .free else .nfull }

/-- The header of that page with the block. -/
structure Filled (c : Nat) (pg : Page) : Prop where
  sc : pg.sc = c
  flag : pg.listFlags = .nfull
  page : PageOk { pg with
    listFlags := if pg.nrUsedPageBlocks = capacity c then .full else .nfull }

/-- The branch of `do_free` fits the header. -/
def Fits (pg : Page) : Regroup → Prop
  | .full => pg.listFlags = .full
  | .last => (pg.listFlags = .nfull ∨ pg.listFlags = .source) ∧ pg.nrUsedPageBlocks = 1
  | .other => (pg.listFlags = .nfull ∨ pg.listFlags = .source) ∧ pg.nrUsedPageBlocks ≠ 1

def Dropped (pg : Page) : Regroup → Prop
  | .full => pg.listFlags = .full ∧
      PageOk { pg with listFlags := if pg.nrUsedPageBlocks = 0 then .free else .nfull }
  | .last => pg.listFlags = (if pg.sourceentries = 0 then .nfull else .source) ∧
      PageOk { pg with listFlags := if pg.sourceentries = 0 then .free else .emptying }
  | .other => (pg.listFlags = .nfull ∨ pg.listFlags = .source) ∧ PageOk pg

/-- The header of a source page that counts one used block less than its bitmap shows. -/
structure Reserved (c : Nat) (pg : Page) : Prop where
  sc : pg.sc = c
  flag : pg.listFlags = .source ∨ pg.listFlags = .emptying
  some : ∃ i, pg.usedPageBlockBitmap.Used i
  page : ∀ i, pg.usedPageBlockBitmap.Used i →
    PageOk { pg with usedPageBlockBitmap := pg.usedPageBlockBitmap.clear i }

/-- What a thread knows about the headers it relies on. -/
def HeaderOk (h : Heap π) : Place → Prop
  | .mallocLock _ c | .mallocPage _ c => c < sizeClasses
  | .mallocLockPage _ c p | .mallocBlock _ c p => Chosen c (h.pages p)
  | .mallocUnlockPage _ c p _ | .mallocName _ c p _ => Filled c (h.pages p)
  | .dropLock f next | .dropBlock f next => (h.pages f.page).sc = f.sc ∧ Fits (h.pages f.page) next
  | .dropUnlock f next | .dropMove f next =>
      (h.pages f.page).sc = f.sc ∧ Dropped (h.pages f.page) next
  | .compactLockTarget f p | .compactLockSource f p | .compactSelect f p =>
      (h.pages f.page).sc = f.sc ∧ (h.pages f.page).listFlags = .full ∧ Reserved f.sc (h.pages p)
  | .compactUnlock f m | .compactCopy f m => f.page ≠ m.srcPage
  | .compactUnlockTarget f p => f.page ≠ p
  | _ => True

theorem Fits.listed {pg : Page} {next : Regroup} (fits : Fits pg next) :
    pg.listFlags ≠ .free ∧ pg.listFlags ≠ .none := by
  cases next with
  | full => rw [show pg.listFlags = .full from fits]; simp
  | last => rcases fits.1 with f | f <;> simp [f]
  | other => rcases fits.1 with f | f <;> simp [f]

theorem Dropped.listed {pg : Page} {next : Regroup} (dropped : Dropped pg next) :
    pg.listFlags ≠ .free ∧ pg.listFlags ≠ .none := by
  cases next with
  | full => rw [dropped.1]; simp
  | last =>
      rw [dropped.1]
      split <;> simp
  | other => rcases dropped.1 with f | f <;> simp [f]

theorem Reserved.listed {c : Nat} {pg : Page} (reserved : Reserved c pg) :
    pg.listFlags ≠ .free ∧ pg.listFlags ≠ .none := by
  rcases reserved.flag with f | f <;> simp [f]

variable {cfg : Config} {T t c p : Nat} {h h' : Heap π} {P : Nat → Place} {place place' : Place}

/-- The page of the not-full list that `cf_malloc` finds. -/
theorem Chosen.of_nfull {pg : Page} (page : PageOk pg) (flag : pg.listFlags = .nfull)
    (sc : pg.sc = c) : Chosen c pg := by
  have cond := page.flag
  rw [flag] at cond
  obtain ⟨some, room, entries⟩ := cond
  refine ⟨sc, flag, sc ▸ room, entries, ?_⟩
  rw [if_neg (Nat.ne_of_gt some), ← flag]
  exact page

/-- The free page that becomes a page of class `c`. -/
theorem Chosen.of_free {pg : Page} (page : PageOk pg) (empty : pg.nrUsedPageBlocks = 0)
    (entries : pg.sourceentries = 0) (hc : c < sizeClasses) :
    Chosen c { pg with nrUsedPageBlocks := 0, sc := c, listFlags := .nfull } := by
  have none : pg.usedPageBlockBitmap.usedBlocks = ∅ := by
    rw [← Finset.card_eq_zero, ← page.used, empty]
  refine ⟨rfl, rfl, capacity_pos hc, entries, ?_, fun i used => ?_, hc, ?_⟩
  · simp [none]
  · have mem : i ∈ pg.usedPageBlockBitmap.usedBlocks := UsedBitmap.mem_usedBlocks.mpr used
    rw [none] at mem
    exact absurd mem (Finset.notMem_empty i)
  · exact ⟨rfl, entries⟩

/-- A page header after the bit of a block is set. -/
theorem Chosen.take {pg : Page} (chosen : Chosen c pg) {i : Nat} (i1024 : i < 1024)
    (unused : ¬ pg.usedPageBlockBitmap.Used i) (room : i < capacity c) :
    Filled c (pg.take i) := by
  have sc := chosen.sc
  refine ⟨sc, chosen.flag, ?_⟩
  refine PageOk.take chosen.page.used chosen.page.inside chosen.page.sc_lt i1024 unused
    (sc ▸ room) ?_
  have lt := chosen.room
  simp only [sc, chosen.entries, Page.take]
  split
  · next full => exact ⟨full, rfl⟩
  · next more => exact ⟨Nat.succ_pos _, by omega, rfl⟩

theorem doFreeLock_fits [AddressPool π] {f : Freeing} {i : Nat} (page : PageOk (h.pages f.page))
    (used : (h.pages f.page).usedPageBlockBitmap.Used i) (sc : (h.pages f.page).sc = f.sc) :
    ∃ next, doFreeLock f h = .dropLock f next ∧ Fits (h.pages f.page) next := by
  have full : isPageFull f.page (blockSize f.sc) h ↔ (h.pages f.page).listFlags = .full := by
    rw [← page.full_iff, sc]
    rfl
  by_cases hf : (h.pages f.page).listFlags = .full
  · exact ⟨.full, by rw [doFreeLock, if_pos (full.mpr hf)], hf⟩
  · have listed : (h.pages f.page).listFlags = .nfull ∨ (h.pages f.page).listFlags = .source :=
      (page.listed_of_used used hf).imp And.left And.left
    rw [doFreeLock, if_neg fun is => hf (full.mp is)]
    by_cases one : (h.pages f.page).nrUsedPageBlocks = 1
    · exact ⟨.last, by rw [if_pos one], listed, one⟩
    · exact ⟨.other, by rw [if_neg one], listed, one⟩

/-- The header after the bit of the block is cleared. -/
theorem Fits.drop {pg : Page} {next : Regroup} {i : Nat} (fits : Fits pg next) (page : PageOk pg)
    (used : pg.usedPageBlockBitmap.Used i) : Dropped (pg.drop i) next := by
  have flag := page.flag
  have pos := page.used_pos used
  cases next with
  | full =>
      rw [show pg.listFlags = .full from fits] at flag
      have cap := capacity_pos page.sc_lt
      refine ⟨fits, page.drop used ?_⟩
      by_cases empty : pg.nrUsedPageBlocks - 1 = 0
      · rw [if_pos (show (pg.drop i).nrUsedPageBlocks = 0 from empty)]
        exact ⟨empty, flag.2⟩
      · rw [if_neg (show (pg.drop i).nrUsedPageBlocks ≠ 0 from empty)]
        exact ⟨Nat.pos_of_ne_zero empty, by have := flag.1; omega, flag.2⟩
  | last =>
      obtain ⟨listed, one⟩ := fits
      refine ⟨?_, page.drop used ?_⟩
      · rcases listed with f | f <;> rw [f] at flag
        · rw [if_pos (show (pg.drop i).sourceentries = 0 from flag.2.2)]
          exact f
        · rw [if_neg (show (pg.drop i).sourceentries ≠ 0 from Nat.ne_of_gt flag.2.2)]
          exact f
      · by_cases none : pg.sourceentries = 0
        · rw [if_pos (show (pg.drop i).sourceentries = 0 from none)]
          exact ⟨by omega, none⟩
        · rw [if_neg (show (pg.drop i).sourceentries ≠ 0 from none)]
          have room := (page.source_room listed.symm).2
          exact ⟨by omega, by omega, Nat.pos_of_ne_zero none⟩
  | other =>
      obtain ⟨listed, more⟩ := fits
      refine ⟨listed, page.drop (f := pg.listFlags) used ?_⟩
      rcases listed with f | f <;> rw [f] at flag ⊢
      · exact ⟨by omega, by have := flag.2.1; omega, flag.2.2⟩
      · exact ⟨by omega, by have := flag.2.1; omega, flag.2.2⟩

/-- In the full state of a class all its used blocks are in full pages. -/
theorem full_of_fullState {i : Nat} (lists : ListsOk h) (page : PageOk (h.pages p))
    (used : (h.pages p).usedPageBlockBitmap.Used i) (sc : (h.pages p).sc = c)
    (full : inFullState c h) : (h.pages p).listFlags = .full := by
  by_contra notFull
  rcases page.listed_of_used used notFull with ⟨nfull, _⟩ | ⟨source, _⟩
  · have pos := lists.nfullentries_pos nfull sc
    rw [full.1] at pos
    exact absurd pos (Nat.lt_irrefl 0)
  · have mem := (lists.mem c .source p).mpr ⟨by simp, by simp, source, sc⟩
    rw [full.2] at mem
    cases mem

theorem Reserved.of_toSource {pg : Page} (page : PageOk pg) (sc : pg.sc = c)
    (listed : pg.listFlags = .source ∨ pg.listFlags = .nfull) : Reserved c pg.toSource := by
  have some := page.source_room listed
  refine ⟨sc, ?_, page.exists_used some.1, fun i used => ⟨?_, fun j hj => ?_,
    page.sc_lt, ?_⟩⟩
  · simp only [Page.toSource]
    split <;> simp
  · have mem := UsedBitmap.mem_usedBlocks.mpr used
    simp only [Page.toSource, UsedBitmap.usedBlocks_clear] at mem ⊢
    rw [Finset.card_erase_of_mem mem, page.used]
  · exact page.inside j (UsedBitmap.used_clear.mp hj).1
  · simp only [Page.toSource]
    split
    · next empty => exact ⟨empty, by omega, Nat.succ_pos _⟩
    · next more => exact ⟨by omega, by omega, Nat.succ_pos _⟩

/-- A page that a thread relies on belongs to the class whose lock it has, and is listed. -/
theorem HeaderOk.watched (ok : HeaderOk h place) (watch : (p, c) ∈ place.watches) :
    (h.pages p).sc = c ∧ (h.pages p).listFlags ≠ .free ∧ (h.pages p).listFlags ≠ .none := by
  cases place <;> simp only [Place.watches, List.not_mem_nil, List.mem_cons, or_false,
    Prod.mk.injEq] at watch
  case mallocLockPage | mallocBlock =>
    obtain ⟨rfl, rfl⟩ := watch
    have chosen : Chosen _ _ := ok
    exact ⟨chosen.sc, by simp [chosen.flag]⟩
  case mallocUnlockPage | mallocName =>
    obtain ⟨rfl, rfl⟩ := watch
    have filled : Filled _ _ := ok
    exact ⟨filled.sc, by simp [filled.flag]⟩
  case dropLock | dropBlock =>
    obtain ⟨rfl, rfl⟩ := watch
    exact ⟨ok.1, ok.2.listed⟩
  case dropUnlock | dropMove =>
    obtain ⟨rfl, rfl⟩ := watch
    exact ⟨ok.1, ok.2.listed⟩
  case compactLockTarget | compactLockSource | compactSelect =>
    rcases watch with ⟨rfl, rfl⟩ | ⟨rfl, rfl⟩
    · exact ⟨ok.1, by simp [ok.2.1]⟩
    · exact ⟨ok.2.2.sc, ok.2.2.listed⟩

theorem HeaderOk.congr (ok : HeaderOk h place)
    (same : ∀ p c, (p, c) ∈ place.watches → h'.pages p = h.pages p) : HeaderOk h' place := by
  cases place <;> simp only [HeaderOk] at ok ⊢ <;> try exact ok
  case mallocLockPage | mallocBlock | mallocUnlockPage | mallocName | dropLock | dropBlock |
      dropUnlock | dropMove =>
    rw [same _ _ (List.mem_singleton_self _)]
    exact ok
  case compactLockTarget | compactLockSource | compactSelect =>
    rw [same _ _ List.mem_cons_self, same _ _ (List.mem_cons_of_mem _ List.mem_cons_self)]
    exact ok

/-- The locks after a lock is given back; no compaction has one page for both blocks. -/
theorem locks_of_releases {p : Place} {m : Mutex} (header : HeaderOk h p)
    (release : p.releases = some m) (m' : Mutex) :
    m' ∈ p.next.locks ↔ m' ∈ p.locks ∧ m' ≠ m := by
  cases p <;> simp only [Place.releases, reduceCtorEq, Option.some.injEq] at release <;>
    subst release
  case compactUnlockTarget f q =>
    have apart : q ≠ f.page := fun eq => header eq.symm
    simp only [Place.next, Place.locks, List.mem_cons, List.not_mem_nil, or_false]
    constructor
    · rintro rfl
      exact ⟨.inr rfl, fun eq => apart (Mutex.page.inj eq)⟩
    · rintro ⟨rfl | rfl, ne⟩
      · exact absurd rfl ne
      · rfl
  all_goals
    simp only [Place.next, Place.locks, List.mem_cons, List.not_mem_nil, or_false]
    grind

theorem HeaderOk.next {p : Place} (header : HeaderOk h p)
    (lock : p.acquires ≠ none ∨ p.releases ≠ none) : HeaderOk h p.next := by
  cases p <;> simp only [Place.acquires, Place.releases, ne_eq, reduceCtorEq, not_true_eq_false,
    not_false_eq_true, or_false, or_true] at lock <;> first | exact header | trivial

/-- The headers of the pages, with the places of the first `T` threads. -/
structure HeadersOk (cfg : Config) (T : Nat) (h : Heap π) (P : Nat → Place) : Prop where
  registered : Registered cfg h
  range : ∀ p, (h.pages p).listFlags ≠ .none ↔ InHeap cfg p
  page : ∀ p, PageOk (h.pages p) ∨ ∃ t, (P t).loosens = some p
  header : ∀ t, HeaderOk h (P t)
  pinned : ∀ t p c, (P t).pinned = some (p, c) → (h.pages p).sc = c
  ledger : ∀ p, (h.pages p).sourceentries = ∑ t ∈ Finset.range T, (P t).entries p
  bounded : ∀ t, P t ≠ .idle → t < T

namespace HeadersOk

theorem pinned_pos (ok : HeadersOk cfg T h P) (pinned : (P t).pinned = some (p, c)) :
    0 < (h.pages p).sourceentries := by
  have ht : t < T := ok.bounded t fun idle => by rw [idle] at pinned; cases pinned
  have le := Finset.single_le_sum (f := fun s => (P s).entries p) (fun _ _ => Nat.zero_le _)
    (Finset.mem_range.mpr ht)
  have one : (P t).entries p = 1 := by simp [Place.entries, pinned]
  rw [ok.ledger]
  omega

theorem loosened_listed (ok : HeadersOk cfg T h P) (loose : (P t).loosens = some p) :
    (h.pages p).listFlags ≠ .free ∧ (h.pages p).listFlags ≠ .none := by
  obtain ⟨c, watch⟩ := Place.watches_of_loosens loose
  exact ((ok.header t).watched watch).2

theorem pinned_listed (ok : HeadersOk cfg T h P) (pinned : (P t).pinned = some (p, c)) :
    (h.pages p).listFlags ≠ .free ∧ (h.pages p).listFlags ≠ .none := by
  rcases ok.page p with page | ⟨u, loose⟩
  · rcases page.source_of_entries (ok.pinned_pos pinned) with ⟨f, _⟩ | ⟨f, _⟩ <;> simp [f]
  · exact ok.loosened_listed loose

/-- A page of a class that nobody else has locked has a header of its own, or the thread with
the lock is changing it. -/
theorem page_of_class (ok : HeadersOk cfg T h P)
    (mine : ∀ u, u ≠ t → .sizeClass (h.pages p).sc ∉ (P u).locks)
    (closed : (P t).loosens ≠ some p) : PageOk (h.pages p) := by
  rcases ok.page p with page | ⟨u, loose⟩
  · exact page
  · by_cases hu : u = t
    · exact absurd (hu ▸ loose) closed
    · obtain ⟨c, watch⟩ := Place.watches_of_loosens loose
      have sc := ((ok.header u).watched watch).1
      exact absurd (sc ▸ Place.locks_of_class watch) (mine u hu)

theorem congr (ok : HeadersOk cfg T h P) (same : SameHeaders h h') : HeadersOk cfg T h' P := by
  refine ⟨ok.registered.congr same, ?_, ?_,
    fun t => (ok.header t).congr fun _ _ _ => by rw [same.pages],
    ?_, ?_, ok.bounded⟩ <;> simp only [same.pages]
  · exact ok.range
  · exact ok.page
  · exact ok.pinned
  · exact ok.ledger

theorem bounded_update (ok : HeadersOk cfg T h P) (ht : t < T) (place' : Place) (u : Nat)
    (busy : update P t place' u ≠ .idle) : u < T := by
  by_cases hu : u = t
  · exact hu ▸ ht
  · rw [update_of_ne hu] at busy
    exact ok.bounded u busy

theorem move (ok : HeadersOk cfg T h P) (ht : t < T) (header : HeaderOk h place')
    (loosens : ∀ q, (P t).loosens = some q → PageOk (h.pages q) ∨ place'.loosens = some q)
    (pinned : place'.pinned = (P t).pinned) : HeadersOk cfg T h (update P t place') := by
  refine ⟨ok.registered, ok.range, fun q => ?_, fun u => ?_, fun u q d pin => ?_, fun q => ?_,
    ok.bounded_update ht place'⟩
  · rcases ok.page q with page | ⟨u, loose⟩
    · exact .inl page
    · by_cases hu : u = t
      · refine (loosens q (hu ▸ loose)).imp_right fun loose' => ⟨t, ?_⟩
        rw [update_self]
        exact loose'
      · refine .inr ⟨u, ?_⟩
        rw [update_of_ne hu]
        exact loose
  · by_cases hu : u = t
    · subst hu
      rw [update_self]
      exact header
    · rw [update_of_ne hu]
      exact ok.header u
  · by_cases hu : u = t
    · subst hu
      rw [update_self, pinned] at pin
      exact ok.pinned u q d pin
    · rw [update_of_ne hu] at pin
      exact ok.pinned u q d pin
  · have sum := sum_update_add P (Place.entries q) ht place'
    have same : place'.entries q = (P t).entries q := by simp only [Place.entries, pinned]
    have ledger := ok.ledger q
    omega

/-- A step of thread `t` on page `p`, with the lock of its class. A free page has that lock from
nobody, and nobody relies on it. -/
theorem step (ok : HeadersOk cfg T h P) (ht : t < T)
    (mine : ∀ u, u ≠ t → .sizeClass c ∉ (P u).locks)
    (here : (h.pages p).sc = c ∨ (h.pages p).listFlags = .free)
    (registered : Registered cfg h') (others : ∀ q, q ≠ p → h'.pages q = h.pages q)
    (sc : (h'.pages p).sc = (h.pages p).sc ∨ (h.pages p).listFlags = .free)
    (listed : (h.pages p).listFlags ≠ .none ∧ (h'.pages p).listFlags ≠ .none)
    (page : PageOk (h'.pages p) ∨ place'.loosens = some p)
    (loosens : ∀ q, q ≠ p → (P t).loosens = some q → place'.loosens = some q)
    (header : HeaderOk h' place')
    (pinned : ∀ q d, place'.pinned = some (q, d) → (h'.pages q).sc = d)
    (entries : ∀ q, (h'.pages q).sourceentries + (P t).entries q =
      (h.pages q).sourceentries + place'.entries q) :
    HeadersOk cfg T h' (update P t place') := by
  have apart : ∀ u d, u ≠ t → (p, d) ∉ (P u).watches := by
    intro u d hu watch
    obtain ⟨eq, free, _⟩ := (ok.header u).watched watch
    refine mine u hu ?_
    rw [← here.resolve_right free, eq]
    exact Place.locks_of_class watch
  refine ⟨registered, fun q => ?_, fun q => ?_, fun u => ?_, fun u q d pin => ?_, fun q => ?_,
    ok.bounded_update ht place'⟩
  · by_cases hq : q = p
    · subst hq
      exact ⟨fun _ => (ok.range q).mp listed.1, fun _ => listed.2⟩
    · rw [others q hq]
      exact ok.range q
  · by_cases hq : q = p
    · subst hq
      refine page.imp_right fun loose => ⟨t, ?_⟩
      rw [update_self]
      exact loose
    · rw [others q hq]
      refine (ok.page q).imp_right fun ⟨u, loose⟩ => ?_
      by_cases hu : u = t
      · refine ⟨t, ?_⟩
        rw [update_self]
        exact loosens q hq (hu ▸ loose)
      · refine ⟨u, ?_⟩
        rw [update_of_ne hu]
        exact loose
  · by_cases hu : u = t
    · subst hu
      rw [update_self]
      exact header
    · rw [update_of_ne hu]
      refine (ok.header u).congr fun q d watch => others q ?_
      rintro rfl
      exact apart u d hu watch
  · by_cases hu : u = t
    · subst hu
      rw [update_self] at pin
      exact pinned q d pin
    · rw [update_of_ne hu] at pin
      have same := ok.pinned u q d pin
      by_cases hq : q = p
      · subst hq
        rw [sc.resolve_right (ok.pinned_listed pin).1]
        exact same
      · rw [others q hq]
        exact same
  · have sum := sum_update_add P (Place.entries q) ht place'
    have ledger := ok.ledger q
    have entries := entries q
    omega

end HeadersOk

end Headers

end LockPage
end CompactFit
