import CompactFit.Allocator

/-!
The steps of the page-level operations on page headers, lists and the pool of free pages.
Each step works on one page; its lemma says which header that page has afterwards. Nothing is
asked of the other pages, so the lemmas serve calls that run beside each other.
-/

namespace CompactFit
open Function ByteMemory

section
variable {π : Type}

/-- What a page's list flag says about its used blocks and its source entries. -/
def FlagOk (cap used entries : Nat) : ListFlag → Prop
  | .none | .free => used = 0 ∧ entries = 0
  | .nfull => 0 < used ∧ used < cap ∧ entries = 0
  | .full => used = cap ∧ entries = 0
  | .source => 0 < used ∧ used + entries < cap ∧ 0 < entries
  | .emptying => used = 0 ∧ entries < cap ∧ 0 < entries

structure PageOk (pg : Page) : Prop where
  used : pg.nrUsedPageBlocks = pg.usedPageBlockBitmap.usedBlocks.card
  inside : ∀ i, pg.usedPageBlockBitmap.Used i → i < capacity pg.sc
  sc_lt : pg.sc < sizeClasses
  flag : FlagOk (capacity pg.sc) pg.nrUsedPageBlocks pg.sourceentries pg.listFlags

def InHeap (cfg : Config) (p : Nat) : Prop :=
  cfg.firstPage ≤ p ∧ p < cfg.firstPage + cfg.nrPages

/-- An operation on page `p` of class `c` leaves the other pages and classes, the
addresses, and the memory of all pages that are not free afterwards. -/
structure OnlyPage (c p : Nat) (h h' : Heap π) : Prop where
  pages : ∀ q, q ≠ p → h'.pages q = h.pages q
  sc : (h'.pages p).sc = (h.pages p).sc
  classes : ∀ d, d ≠ c → h'.classes d = h.classes d
  addresses : h'.addresses = h.addresses
  memory : ∀ a, (h'.pages (a / pageSize)).listFlags ≠ .free → h'.memory a = h.memory a

/-- As `OnlyPage`, for the steps that write no memory at all. -/
structure Quiet (c p : Nat) (h h' : Heap π) : Prop where
  pages : ∀ q, q ≠ p → h'.pages q = h.pages q
  sc : (h'.pages p).sc = (h.pages p).sc
  classes : ∀ d, d ≠ c → h'.classes d = h.classes d
  addresses : h'.addresses = h.addresses
  memory : h'.memory = h.memory

section Quiet
variable {c p : Nat} {h h' h'' : Heap π}

/-- A step on page `p` that keeps a field of its header keeps that field of every page. -/
theorem field_same {β : Type} (field : Page → β) (others : ∀ q, q ≠ p → h'.pages q = h.pages q)
    (same : field (h'.pages p) = field (h.pages p)) (q : Nat) :
    field (h'.pages q) = field (h.pages q) := by
  by_cases hq : q = p
  · rw [hq, same]
  · rw [others q hq]

theorem OnlyPage.sc_eq (only : OnlyPage c p h h') (q : Nat) : (h'.pages q).sc = (h.pages q).sc :=
  field_same Page.sc only.pages only.sc q

theorem Quiet.trans (first : Quiet c p h h') (second : Quiet c p h' h'') : Quiet c p h h'' :=
  ⟨fun q hq => (second.pages q hq).trans (first.pages q hq), second.sc.trans first.sc,
    fun d hd => (second.classes d hd).trans (first.classes d hd),
    second.addresses.trans first.addresses, second.memory.trans first.memory⟩

theorem Quiet.only (quiet : Quiet c p h h') : OnlyPage c p h h' :=
  ⟨quiet.pages, quiet.sc, quiet.classes, quiet.addresses, fun _ _ => by rw [quiet.memory]⟩

theorem Quiet.sc_eq (quiet : Quiet c p h h') (q : Nat) : (h'.pages q).sc = (h.pages q).sc :=
  quiet.only.sc_eq q

theorem Quiet.before (quiet : Quiet c p h h') (only : OnlyPage c p h' h'') :
    OnlyPage c p h h'' :=
  ⟨fun q hq => (only.pages q hq).trans (quiet.pages q hq), only.sc.trans quiet.sc,
    fun d hd => (only.classes d hd).trans (quiet.classes d hd),
    only.addresses.trans quiet.addresses,
    fun a used => (only.memory a used).trans (by rw [quiet.memory])⟩

theorem quiet_modifyPage (c p : Nat) (h : Heap π) {f : Page → Page}
    (sc : (f (h.pages p)).sc = (h.pages p).sc) : Quiet c p h (h.modifyPage p f) :=
  ⟨fun _ hq => by simp [hq], by simpa using sc, fun _ _ => rfl, rfl, rfl⟩

theorem quiet_linkPage (f : ListFlag) (c p : Nat) (h : Heap π) : Quiet c p h (h.linkPage f c p) :=
  ⟨fun _ hq => by simp [Heap.linkPage, hq], by simp [Heap.linkPage],
    fun _ hd => by simp [Heap.linkPage, hd], rfl, rfl⟩

theorem quiet_unlinkPage (f : ListFlag) (c p : Nat) (h : Heap π) :
    Quiet c p h (h.unlinkPage f c p) :=
  ⟨fun _ hq => by simp [Heap.unlinkPage, hq], by simp [Heap.unlinkPage],
    fun _ hd => by simp [Heap.unlinkPage, hd], rfl, rfl⟩

end Quiet

@[simp] theorem linkPage_page (f : ListFlag) (c p : Nat) (h : Heap π) :
    (h.linkPage f c p).pages p = { h.pages p with listFlags := f } := by
  simp [Heap.linkPage]

@[simp] theorem unlinkPage_page (f : ListFlag) (c p : Nat) (h : Heap π) :
    (h.unlinkPage f c p).pages p = { h.pages p with listFlags := .none } := by
  simp [Heap.unlinkPage]

/-! ### The counters of a class -/

theorem linkPage_nfullentries (f : ListFlag) (c p : Nat) (h : Heap π) :
    ((h.linkPage f c p).classes c).nfullentries =
      (h.classes c).nfullentries + if f = .nfull then 1 else 0 := by
  cases f <;> simp [Heap.linkPage, SizeClass.addPageToList, SizeClass.countIn]

theorem linkPage_sourceentries (f : ListFlag) (c p : Nat) (h : Heap π) :
    ((h.linkPage f c p).classes c).sourceentries =
      (h.classes c).sourceentries + if f = .source ∨ f = .emptying then 1 else 0 := by
  cases f <;> simp [Heap.linkPage, SizeClass.addPageToList, SizeClass.countIn]

theorem unlinkPage_nfullentries (f : ListFlag) (c p : Nat) (h : Heap π) :
    ((h.unlinkPage f c p).classes c).nfullentries =
      (h.classes c).nfullentries - if f = .nfull then 1 else 0 := by
  cases f <;> simp [Heap.unlinkPage, SizeClass.removePageFromList, SizeClass.countOut]

theorem unlinkPage_sourceentries (f : ListFlag) (c p : Nat) (h : Heap π) :
    ((h.unlinkPage f c p).classes c).sourceentries =
      (h.classes c).sourceentries - if f = .source ∨ f = .emptying then 1 else 0 := by
  cases f <;> simp [Heap.unlinkPage, SizeClass.removePageFromList, SizeClass.countOut]

theorem ListsOk.nfullentries_pos {c p : Nat} {h : Heap π} (lists : ListsOk h)
    (flag : (h.pages p).listFlags = .nfull) (hc : (h.pages p).sc = c) :
    0 < (h.classes c).nfullentries := by
  have mem := (lists.mem c .nfull p).mpr ⟨by simp, by simp, flag, hc⟩
  rw [lists.nfullentries c]
  exact List.length_pos_of_mem mem

theorem ListsOk.sourceentries_pos {c p : Nat} {h : Heap π} (lists : ListsOk h)
    (flag : (h.pages p).listFlags = .source ∨ (h.pages p).listFlags = .emptying)
    (hc : (h.pages p).sc = c) : 0 < (h.classes c).sourceentries := by
  rw [lists.sourceentries c]
  rcases flag with flag | flag
  · have := List.length_pos_of_mem ((lists.mem c .source p).mpr ⟨by simp, by simp, flag, hc⟩)
    omega
  · have := List.length_pos_of_mem ((lists.mem c .emptying p).mpr ⟨by simp, by simp, flag, hc⟩)
    omega

/-- A page header after `free_used_page_block`. -/
def Page.drop (i : Nat) (pg : Page) : Page :=
  { pg with
    usedPageBlockBitmap := pg.usedPageBlockBitmap.clear i
    nrUsedPageBlocks := pg.nrUsedPageBlocks - 1 }

theorem PageOk.used_pos {pg : Page} (ok : PageOk pg) {i : Nat}
    (used : pg.usedPageBlockBitmap.Used i) : 0 < pg.nrUsedPageBlocks := by
  rw [ok.used]
  exact Finset.card_pos.mpr ⟨i, UsedBitmap.mem_usedBlocks.mpr used⟩

theorem PageOk.used_le {pg : Page} (ok : PageOk pg) : pg.nrUsedPageBlocks ≤ capacity pg.sc := by
  have sub : pg.usedPageBlockBitmap.usedBlocks ⊆ Finset.range (capacity pg.sc) := by
    intro i hi
    exact Finset.mem_range.mpr (ok.inside i (UsedBitmap.mem_usedBlocks.mp hi))
  rw [ok.used]
  simpa using Finset.card_le_card sub

/-- Dropping a used block keeps the header condition where the flag fits. -/
theorem PageOk.drop {pg : Page} (ok : PageOk pg) {i : Nat}
    (used : pg.usedPageBlockBitmap.Used i) {f : ListFlag}
    (flag : FlagOk (capacity pg.sc) (pg.nrUsedPageBlocks - 1) pg.sourceentries f) :
    PageOk { pg.drop i with listFlags := f } := by
  refine ⟨?_, ?_, ok.sc_lt, flag⟩
  · simp only [Page.drop, UsedBitmap.usedBlocks_clear]
    rw [Finset.card_erase_of_mem (UsedBitmap.mem_usedBlocks.mpr used), ok.used]
  · intro j hj
    simp only [Page.drop, UsedBitmap.used_clear] at hj
    exact ok.inside j hj.1

theorem PageOk.full_iff {pg : Page} (ok : PageOk pg) :
    pg.nrUsedPageBlocks = capacity pg.sc ↔ pg.listFlags = .full := by
  have flag := ok.flag
  have pos := capacity_pos ok.sc_lt
  generalize pg.listFlags = f at flag ⊢
  cases f <;> simp only [FlagOk] at flag <;> simp <;> omega

/-- A page with a used block that is not full is a not-full page or a source page. -/
theorem PageOk.listed_of_used {pg : Page} (ok : PageOk pg) {i : Nat}
    (used : pg.usedPageBlockBitmap.Used i) (notFull : pg.listFlags ≠ .full) :
    (pg.listFlags = .nfull ∧ pg.sourceentries = 0) ∨
      (pg.listFlags = .source ∧ pg.sourceentries ≠ 0) := by
  have pos := ok.used_pos used
  have flag := ok.flag
  generalize pg.listFlags = f at flag notFull ⊢
  cases f <;> simp only [FlagOk] at flag <;> simp <;> grind

theorem freeUsedPageBlock_ok {p i : Nat} {h : Heap π} (ok : PageOk (h.pages p))
    (used : (h.pages p).usedPageBlockBitmap.Used i) :
    freeUsedPageBlock p i h = .ok (h.modifyPage p (Page.drop i)) := by
  have pos := ok.used_pos used
  have eq : Heap.dropUsed p (h.modifyPage p fun pg =>
      { pg with usedPageBlockBitmap := pg.usedPageBlockBitmap.clear i }) =
      h.modifyPage p (Page.drop i) := by
    simp [Heap.dropUsed, Heap.modifyPage, Page.drop, decrement_of_pos pos]
  simp only [freeUsedPageBlock, Heap.modifyPage_same, ensure_true pos, ok_bind, eq]
  rfl

def Page.release (pg : Page) : Page := { pg with sourceentries := pg.sourceentries - 1 }

theorem PageOk.source_of_entries {pg : Page} (ok : PageOk pg) (entries : 0 < pg.sourceentries) :
    (pg.listFlags = .source ∧ 0 < pg.nrUsedPageBlocks ∧
      pg.nrUsedPageBlocks + pg.sourceentries < capacity pg.sc) ∨
    (pg.listFlags = .emptying ∧ pg.nrUsedPageBlocks = 0 ∧
      pg.sourceentries < capacity pg.sc) := by
  have flag := ok.flag
  generalize pg.listFlags = f at flag ⊢
  cases f <;> simp only [FlagOk] at flag <;> simp <;> omega

/-- A page with source entries is in the list that `do_free_source_state` expects. -/
theorem PageOk.source_flag {pg : Page} (ok : PageOk pg) (entries : 0 < pg.sourceentries) :
    pg.listFlags = if pg.nrUsedPageBlocks = 0 then .emptying else .source := by
  rcases ok.source_of_entries entries with ⟨f, pos, _⟩ | ⟨f, none, _⟩
  · rw [f, if_neg (Nat.ne_of_gt pos)]
  · rw [f, if_pos none]

/-- A page that `get_source_page` may choose has a used block and room for an entry. -/
theorem PageOk.source_room {pg : Page} (ok : PageOk pg)
    (listed : pg.listFlags = .source ∨ pg.listFlags = .nfull) :
    0 < pg.nrUsedPageBlocks ∧ pg.nrUsedPageBlocks + pg.sourceentries < capacity pg.sc := by
  have flag := ok.flag
  rcases listed with f | f
  · rw [f] at flag
    exact ⟨flag.1, flag.2.1⟩
  · rw [f] at flag
    exact ⟨flag.1, by have := flag.2; omega⟩

theorem PageOk.increment_entries {pg : Page} (ok : PageOk pg)
    (listed : pg.listFlags = .source ∨ pg.listFlags = .nfull) :
    increment pg.sourceentries = pg.sourceentries + 1 := by
  have room := (ok.source_room listed).2
  exact increment_of_lt (Nat.lt_of_le_of_lt (Nat.le_add_left _ _) room)
    (Nat.le_trans (capacity_le ok.sc_lt) (by decide))

theorem PageOk.release {pg : Page} (ok : PageOk pg) (entries : 0 < pg.sourceentries) :
    PageOk { pg.release with listFlags := if pg.sourceentries = 1 then
      if pg.nrUsedPageBlocks = 0 then .free else .nfull else pg.listFlags } := by
  refine ⟨ok.used, ok.inside, ok.sc_lt, ?_⟩
  simp only [Page.release]
  rcases ok.source_of_entries entries with ⟨f, pos, lt⟩ | ⟨f, none, lt⟩
  · rw [f, if_neg (Nat.ne_of_gt pos)]
    split
    · exact ⟨pos, by omega, by omega⟩
    · exact ⟨pos, by omega, by omega⟩
  · rw [f, if_pos none]
    split
    · exact ⟨none, by omega⟩
    · exact ⟨none, by omega, by omega⟩

def Page.enter (pg : Page) : Page := { pg with sourceentries := pg.sourceentries + 1 }

/-- The page header after `--nr_used_page_blocks`. -/
def Page.reserve (pg : Page) : Page := { pg with nrUsedPageBlocks := pg.nrUsedPageBlocks - 1 }

theorem dropUsed_ok {p : Nat} {h : Heap π} (pos : 0 < (h.pages p).nrUsedPageBlocks) :
    h.dropUsed p = h.modifyPage p Page.reserve :=
  Heap.modifyPage_congr (by rw [decrement_of_pos pos, Page.reserve])

theorem PageOk.exists_used {pg : Page} (ok : PageOk pg) (pos : 0 < pg.nrUsedPageBlocks) :
    ∃ i, pg.usedPageBlockBitmap.Used i := by
  rw [ok.used] at pos
  obtain ⟨i, hi⟩ := Finset.card_pos.mp pos
  exact ⟨i, UsedBitmap.mem_usedBlocks.mp hi⟩

def Page.take (i : Nat) (pg : Page) : Page :=
  { pg with
    usedPageBlockBitmap := pg.usedPageBlockBitmap.mark i
    nrUsedPageBlocks := pg.nrUsedPageBlocks + 1 }

/-! ### Lists and pool -/

/-- The lists of the classes and the pool of free pages hold together. -/
structure Registered (cfg : Config) (h : Heap π) : Prop where
  lists : ListsOk h
  pool : ∃ P, PoolOk cfg h P

section Registered
variable {cfg : Config} {c p : Nat} {h : Heap π}

/-- A change of the header fields that lists and pool do not look at. -/
theorem Registered.modifyPage (ok : Registered cfg h) {f : Page → Page}
    (flag : (f (h.pages p)).listFlags = (h.pages p).listFlags)
    (sc : (f (h.pages p)).sc = (h.pages p).sc ∨ (h.pages p).listFlags = .none) :
    Registered cfg (h.modifyPage p f) := by
  have flags : ∀ q, ((h.modifyPage p f).pages q).listFlags = (h.pages q).listFlags := by
    intro q
    by_cases hq : q = p
    · subst hq; simpa using flag
    · simp [hq]
  obtain ⟨P, pool⟩ := ok.pool
  refine ⟨⟨ok.lists.nodup, fun d g q => ?_, ok.lists.nfullentries, ok.lists.sourceentries,
    ok.lists.nrPages⟩,
    ⟨P, poolOk_congr pool (fun q => by rw [flags q]) (fun q _ => .refl _ _ _) rfl rfl⟩⟩
  simp only [Heap.modifyPage_classes, ok.lists.mem d g q, flags q]
  by_cases hq : q = p
  · subst hq
    rcases sc with sc | off
    · simp [sc]
    · constructor
      · rintro ⟨ne, _, eq, _⟩; exact absurd (eq.symm.trans off) ne
      · rintro ⟨ne, _, eq, _⟩; exact absurd (eq.symm.trans off) ne
  · simp [hq]

theorem Registered.unlinkPage (ok : Registered cfg h) {f : ListFlag}
    (flag : (h.pages p).listFlags = f)
    (hc : (h.pages p).sc = c) (hf : f ≠ .none ∧ f ≠ .free) :
    Registered cfg (h.unlinkPage f c p) := by
  obtain ⟨P, pool⟩ := ok.pool
  refine ⟨listsOk_unlinkPage ok.lists flag hc hf,
    ⟨P, poolOk_congr pool (fun q => ?_) (fun q _ => .refl _ _ _) rfl rfl⟩⟩
  by_cases hq : q = p
  · subst hq; simp [Heap.unlinkPage, flag, hf.2]
  · simp [Heap.unlinkPage, hq]

theorem Registered.linkPage (ok : Registered cfg h) {f : ListFlag}
    (off : (h.pages p).listFlags = .none) (hc : (h.pages p).sc = c)
    (hf : f ≠ .none ∧ f ≠ .free) : Registered cfg (h.linkPage f c p) := by
  obtain ⟨P, pool⟩ := ok.pool
  refine ⟨listsOk_linkPage ok.lists off hc hf,
    ⟨P, poolOk_congr pool (fun q => ?_) (fun q _ => .refl _ _ _) rfl rfl⟩⟩
  by_cases hq : q = p
  · subst hq; simp [Heap.linkPage, off, hf.2]
  · simp [Heap.linkPage, hq]

theorem Registered.addFreePage (t : Nat) (ok : Registered cfg h)
    (off : (h.pages p).listFlags = .none)
    (heap : InHeap cfg p) :
    ∃ h', addFreePage cfg t p h = .ok h' ∧ Registered cfg h' ∧ OnlyPage c p h h' ∧
      h'.pages p = { h.pages p with listFlags := .free } ∧ h'.classes = h.classes := by
  obtain ⟨P, pool⟩ := ok.pool
  obtain ⟨h', run, pool', pages, classes, addresses, memory⟩ := addFreePage_spec t pool off heap
  have other : ∀ q, q ≠ p → h'.pages q = h.pages q := by
    intro q hq
    rw [pages, update_of_ne hq]
  have same : h'.pages p = { h.pages p with listFlags := .free } := by
    rw [pages, update_self]
  refine ⟨h', run, ⟨⟨?_, ?_, ?_, ?_, ?_⟩, _, pool'⟩,
    ⟨other, by rw [same], fun d _ => by rw [classes], addresses, memory⟩, same, classes⟩ <;>
    rw [classes]
  · exact ok.lists.nodup
  · intro d g q
    rw [ok.lists.mem d g q]
    by_cases hq : q = p
    · subst hq
      rw [same, off]
      constructor
      · rintro ⟨ne, _, eq, _⟩; exact absurd eq.symm ne
      · rintro ⟨_, ne, eq, _⟩; exact absurd eq.symm ne
    · rw [other q hq]
  · exact ok.lists.nfullentries
  · exact ok.lists.sourceentries
  · exact ok.lists.nrPages

end Registered

/-- A step on page `p` of class `c` after which the page has the header `pg`. -/
structure PageStep (cfg : Config) (c p : Nat) (pg : Page) (h h' : Heap π) : Prop where
  registered : Registered cfg h'
  only : OnlyPage c p h h'
  page : h'.pages p = pg

/-! ### Freeing a used block -/

/-- `do_free_full_state` after `free_used_page_block`. -/
def regroupFull (cfg : Config) (t c p : Nat) (h : Heap π) : Except Fault (Heap π) := do
  let h ← removePageFromFullList c p h
  if (h.pages p).nrUsedPageBlocks = 0 then addFreePage cfg t p h
  else addPageToNfullList c p h

/-- `do_free_nfull_state` after `free_used_page_block` of the last used block. -/
def regroupLast (cfg : Config) (t c p : Nat) (h : Heap π) : Except Fault (Heap π) := do
  if (h.pages p).sourceentries = 0 then
    let h ← removePageFromNfullList c p h
    addFreePage cfg t p h
  else
    let h ← removePageFromSourceList c p h
    addPageToEmptyingList c p h

theorem doFreeFullState_eq (cfg : Config) (t c p i : Nat) (h : Heap π) :
    doFreeFullState cfg t c p i h = freeUsedPageBlock p i h >>= regroupFull cfg t c p := rfl

theorem doFreeNfullState_eq (cfg : Config) (t c p i : Nat) (h : Heap π) :
    doFreeNfullState cfg t c p i h =
      if (h.pages p).nrUsedPageBlocks = 1 then
        freeUsedPageBlock p i h >>= regroupLast cfg t c p
      else freeUsedPageBlock p i h := rfl

section Regroup
variable {cfg : Config} {c p : Nat} {h : Heap π}

theorem regroupFull_spec (t : Nat) (ok : Registered cfg h) (heap : InHeap cfg p)
    (hc : (h.pages p).sc = c) (full : (h.pages p).listFlags = .full) :
    ∃ h', regroupFull cfg t c p h = .ok h' ∧
      PageStep cfg c p { h.pages p with
        listFlags := if (h.pages p).nrUsedPageBlocks = 0 then .free else .nfull } h h' ∧
      (h'.classes c).sourceentries = (h.classes c).sourceentries ∧
      (h'.classes c).nfullentries ≤ (h.classes c).nfullentries + 1 := by
  have ok' := ok.unlinkPage full hc (by simp)
  have quiet := quiet_unlinkPage .full c p h
  have off : ((h.unlinkPage .full c p).pages p).listFlags = .none := by simp
  have run : regroupFull cfg t c p h =
      if (h.pages p).nrUsedPageBlocks = 0 then addFreePage cfg t p (h.unlinkPage .full c p)
      else addPageToNfullList c p (h.unlinkPage .full c p) := by
    rw [regroupFull, removePageFromFullList, removePage_ok full, ok_bind, unlinkPage_page]
  rw [run]
  by_cases empty : (h.pages p).nrUsedPageBlocks = 0
  · obtain ⟨h', run, registered, only, same, classes⟩ := ok'.addFreePage (c := c) t off heap
    rw [if_pos empty, if_pos empty]
    refine ⟨h', run, ⟨registered, quiet.before only, by rw [same, unlinkPage_page]⟩, ?_, ?_⟩
    · rw [classes, unlinkPage_sourceentries]; simp
    · rw [classes, unlinkPage_nfullentries]; simp
  · rw [if_neg empty, if_neg empty]
    refine ⟨_, addPage_ok off, ⟨ok'.linkPage off (by simpa using hc) (by simp),
      (quiet.trans (quiet_linkPage _ _ _ _)).only, by simp⟩, ?_, ?_⟩
    · rw [linkPage_sourceentries, unlinkPage_sourceentries]; simp
    · rw [linkPage_nfullentries, unlinkPage_nfullentries]; simp

theorem regroupLast_spec (t : Nat) (ok : Registered cfg h) (heap : InHeap cfg p)
    (hc : (h.pages p).sc = c)
    (flag : (h.pages p).listFlags = if (h.pages p).sourceentries = 0 then .nfull else .source) :
    ∃ h', regroupLast cfg t c p h = .ok h' ∧
      PageStep cfg c p { h.pages p with
        listFlags := if (h.pages p).sourceentries = 0 then .free else .emptying } h h' ∧
      (h'.classes c).sourceentries = (h.classes c).sourceentries ∧
      (h'.classes c).nfullentries ≤ (h.classes c).nfullentries := by
  by_cases entries : (h.pages p).sourceentries = 0
  · rw [if_pos entries] at flag ⊢
    have ok' := ok.unlinkPage flag hc (by simp)
    have quiet := quiet_unlinkPage .nfull c p h
    obtain ⟨h', run, registered, only, same, classes⟩ :=
      ok'.addFreePage (p := p) (c := c) t (by simp) heap
    refine ⟨h', ?_, ⟨registered, quiet.before only, by rw [same, unlinkPage_page]⟩, ?_, ?_⟩
    · rw [regroupLast, if_pos entries, removePageFromNfullList, removePage_ok flag, ok_bind, run]
    · rw [classes, unlinkPage_sourceentries]; simp
    · rw [classes, unlinkPage_nfullentries]; simp
  · rw [if_neg entries] at flag ⊢
    have ok' := ok.unlinkPage flag hc (by simp)
    have quiet := quiet_unlinkPage .source c p h
    have off : ((h.unlinkPage .source c p).pages p).listFlags = .none := by simp
    have some := ok.lists.sourceentries_pos (.inl flag) hc
    refine ⟨_, ?_, ⟨ok'.linkPage (f := .emptying) off (by simpa using hc) (by simp),
      (quiet.trans (quiet_linkPage _ _ _ _)).only, by simp⟩, ?_, ?_⟩
    · rw [regroupLast, if_neg entries, removePageFromSourceList, removePage_ok flag, ok_bind,
        addPageToEmptyingList, addPage_ok off]
    · rw [linkPage_sourceentries, unlinkPage_sourceentries]
      simp
      omega
    · rw [linkPage_nfullentries, unlinkPage_nfullentries]; simp

end Regroup

/-! ### Source entries -/

section Source
variable {cfg : Config} {c p : Nat} {h : Heap π}

/-- A source page that loses its last entry leaves the source lists. -/
theorem releaseEntry_spec (t : Nat) (ok : Registered cfg h) (heap : InHeap cfg p)
    (hc : (h.pages p).sc = c) (entries : 0 < (h.pages p).sourceentries)
    (flag : (h.pages p).listFlags =
      if (h.pages p).nrUsedPageBlocks = 0 then .emptying else .source) :
    ∃ h', releaseSource cfg t c p h = .ok h' ∧
      PageStep cfg c p { (h.pages p).release with
        listFlags := if (h.pages p).sourceentries = 1 then
          if (h.pages p).nrUsedPageBlocks = 0 then .free else .nfull
          else (h.pages p).listFlags } h h' ∧
      (h'.classes c).sourceentries +
        (if (h.pages p).sourceentries = 1 then 1 else 0) = (h.classes c).sourceentries ∧
      (h'.classes c).nfullentries = (h.classes c).nfullentries +
        if (h.pages p).sourceentries = 1 ∧ (h.pages p).nrUsedPageBlocks ≠ 0 then 1 else 0 := by
  have start : releaseSource cfg t c p h =
      doFreeSourceState cfg t c p (h.modifyPage p Page.release) :=
    congrArg (doFreeSourceState cfg t c p)
      (Heap.modifyPage_congr (by rw [decrement_of_pos entries, Page.release]))
  have ok' := ok.modifyPage (p := p) (f := Page.release) rfl (.inl rfl)
  have quiet := quiet_modifyPage c p h (f := Page.release) rfl
  have hc' : ((h.modifyPage p Page.release).pages p).sc = c := by simpa [Page.release] using hc
  have left : ((h.modifyPage p Page.release).pages p).sourceentries =
      (h.pages p).sourceentries - 1 := by simp [Page.release]
  have used : ((h.modifyPage p Page.release).pages p).nrUsedPageBlocks =
      (h.pages p).nrUsedPageBlocks := by simp [Page.release]
  by_cases last : (h.pages p).sourceentries = 1
  · rw [if_pos last, if_pos last]
    have entries0 : ((h.modifyPage p Page.release).pages p).sourceentries = 0 := by omega
    by_cases empty : (h.pages p).nrUsedPageBlocks = 0
    · rw [if_pos empty] at flag ⊢
      have some := ok.lists.sourceentries_pos (.inr flag) hc
      have flag' : ((h.modifyPage p Page.release).pages p).listFlags = .emptying := by
        simpa [Page.release] using flag
      have ok'' := ok'.unlinkPage flag' hc' (by simp)
      obtain ⟨h', run, registered, only, same, classes⟩ :=
        ok''.addFreePage (p := p) (c := c) t (by simp) heap
      refine ⟨h', ?_, ⟨registered, (quiet.trans (quiet_unlinkPage _ _ _ _)).before only, ?_⟩, ?_,
        ?_⟩
      · rw [start, doFreeSourceState, if_pos entries0, if_pos (used.trans empty),
          removePageFromEmptyingList, removePage_ok flag', ok_bind, run]
      · rw [same, unlinkPage_page]
        simp
      · rw [classes, unlinkPage_sourceentries]
        simp
        omega
      · rw [classes, unlinkPage_nfullentries]
        simp [empty]
    · rw [if_neg empty] at flag ⊢
      have some := ok.lists.sourceentries_pos (.inl flag) hc
      have flag' : ((h.modifyPage p Page.release).pages p).listFlags = .source := by
        simpa [Page.release] using flag
      have ok'' := ok'.unlinkPage flag' hc' (by simp)
      have off : (((h.modifyPage p Page.release).unlinkPage .source c p).pages p).listFlags =
          .none := by simp
      refine ⟨_, ?_, ⟨ok''.linkPage (f := .nfull) off (by simpa using hc') (by simp),
        ((quiet.trans (quiet_unlinkPage _ _ _ _)).trans (quiet_linkPage _ _ _ _)).only, by simp⟩,
        ?_, ?_⟩
      · rw [start, doFreeSourceState, if_pos entries0, if_neg (used ▸ empty),
          removePageFromSourceList, removePage_ok flag', ok_bind, addPageToNfullList,
          addPage_ok off]
      · rw [linkPage_sourceentries, unlinkPage_sourceentries]
        simp
        omega
      · rw [linkPage_nfullentries, unlinkPage_nfullentries]
        simp [last, empty]
  · have more : ((h.modifyPage p Page.release).pages p).sourceentries ≠ 0 := by omega
    rw [if_neg last, if_neg last]
    refine ⟨_, ?_, ⟨ok', quiet.only, by simp [Page.release]⟩, rfl, by simp [last]⟩
    rw [start, doFreeSourceState, if_neg more]
    rfl

/-- A page header after `get_source_page`. -/
def Page.toSource (pg : Page) : Page :=
  { pg with
    nrUsedPageBlocks := pg.nrUsedPageBlocks - 1
    sourceentries := pg.sourceentries + 1
    listFlags := if pg.nrUsedPageBlocks - 1 = 0 then .emptying else .source }

/-- `get_source_page` finds a page in a class that is not in the full state. -/
theorem getSourcePage_step (ok : Registered cfg h) (notFull : ¬ inFullState c h)
    (pages : ∀ p, (h.pages p).sc = c →
      (h.pages p).listFlags = .source ∨ (h.pages p).listFlags = .nfull → PageOk (h.pages p)) :
    ∃ p h', getSourcePage c h = .ok (p, h') ∧ (h.pages p).sc = c ∧
      ((h.pages p).listFlags = .source ∨ (h.pages p).listFlags = .nfull) ∧
      Registered cfg h' ∧ Quiet c p h h' ∧ h'.pages p = (h.pages p).toSource ∧
      (h'.classes c).nfullentries +
        (if (h.pages p).listFlags = .nfull then 1 else 0) = (h.classes c).nfullentries ∧
      (h'.classes c).nfullentries + (h'.classes c).sourceentries =
        (h.classes c).nfullentries + (h.classes c).sourceentries := by
  have finish : ∀ {p : Nat} {g : Heap π}, takeSourcePage c h = .ok (p, g) →
      PageOk (h.pages p) → (h.pages p).listFlags = .source ∨ (h.pages p).listFlags = .nfull →
      (g.pages p).sourceentries = (h.pages p).sourceentries →
      getSourcePage c h = .ok (p, g.modifyPage p Page.enter) := by
    intro p g run page listed same
    have enter :
        g.modifyPage p (fun pg => { pg with sourceentries := increment pg.sourceentries }) =
        g.modifyPage p Page.enter :=
      Heap.modifyPage_congr (by rw [same, page.increment_entries listed, Page.enter, same])
    simp only [getSourcePage, run, ok_bind, enter]
    rfl
  cases hs : (h.classes c).lists .source with
  | cons p rest =>
      obtain ⟨_, _, source, hc⟩ := (ok.lists.mem c .source p).mp (by rw [hs]; simp)
      have pos := ok.lists.sourceentries_pos (.inl source) hc
      have page := pages p hc (.inl source)
      have some := (page.source_room (.inl source)).1
      have ok' := ok.modifyPage (p := p) (f := Page.reserve) rfl (.inl rfl)
      have quiet := quiet_modifyPage c p h (f := Page.reserve) rfl
      have start : takeSourcePage c h =
          if (h.pages p).nrUsedPageBlocks - 1 = 0 then
            removePageFromSourceList c p (h.modifyPage p Page.reserve) >>= fun g =>
              addPageToEmptyingList c p g >>= fun g => pure (p, g)
          else pure (p, h.modifyPage p Page.reserve) := by
        have nr : ((h.modifyPage p Page.reserve).pages p).nrUsedPageBlocks =
            (h.pages p).nrUsedPageBlocks - 1 := by simp [Page.reserve]
        rw [takeSourcePage, hs]
        simp only [dropUsed_ok some, nr]
      by_cases last : (h.pages p).nrUsedPageBlocks - 1 = 0
      · have flag : ((h.modifyPage p Page.reserve).pages p).listFlags = .source := by
          simpa [Page.reserve] using source
        have hc' : ((h.modifyPage p Page.reserve).pages p).sc = c := by
          simpa [Page.reserve] using hc
        have off : (((h.modifyPage p Page.reserve).unlinkPage .source c p).pages p).listFlags =
            .none := by simp
        have run : takeSourcePage c h = .ok
            (p, ((h.modifyPage p Page.reserve).unlinkPage .source c p).linkPage .emptying c p) := by
          rw [start, if_pos last, removePageFromSourceList, removePage_ok flag, ok_bind,
            addPageToEmptyingList, addPage_ok off]
          rfl
        refine ⟨p, _, finish run page (.inl source) (by simp [Page.reserve]), hc, .inl source,
          ?_, ?_, ?_, ?_, ?_⟩
        · exact ((ok'.unlinkPage flag hc' (by simp)).linkPage off (by simpa using hc')
            (by simp)).modifyPage rfl (.inl rfl)
        · exact ((quiet.trans (quiet_unlinkPage _ _ _ _)).trans (quiet_linkPage _ _ _ _)).trans
            (quiet_modifyPage _ _ _ rfl)
        · simp [Page.enter, Page.reserve, Page.toSource, last]
        · simp [linkPage_nfullentries, unlinkPage_nfullentries, source]
        · simp only [Heap.modifyPage_classes, linkPage_nfullentries, unlinkPage_nfullentries,
            linkPage_sourceentries, unlinkPage_sourceentries]
          simp
          omega
      · have run : takeSourcePage c h = .ok (p, h.modifyPage p Page.reserve) := by
          rw [start, if_neg last]
          rfl
        refine ⟨p, _, finish run page (.inl source) (by simp [Page.reserve]), hc, .inl source,
          ok'.modifyPage rfl (.inl rfl), quiet.trans (quiet_modifyPage _ _ _ rfl), ?_,
          by simp [source], by simp⟩
        simp [Page.enter, Page.reserve, Page.toSource, last, source]
  | nil =>
      cases hn : (h.classes c).lists .nfull with
      | nil =>
          refine absurd ⟨?_, hs⟩ notFull
          rw [ok.lists.nfullentries c, hn]
          rfl
      | cons p rest =>
          obtain ⟨_, _, nfull, hc⟩ := (ok.lists.mem c .nfull p).mp (by rw [hn]; simp)
          have pos := ok.lists.nfullentries_pos nfull hc
          have page := pages p hc (.inr nfull)
          have some := (page.source_room (.inr nfull)).1
          have ok' := (ok.unlinkPage nfull hc (by simp)).modifyPage (p := p) (f := Page.reserve)
            rfl (.inl rfl)
          have quiet := (quiet_unlinkPage .nfull c p h).trans
            (quiet_modifyPage c p _ (f := Page.reserve) rfl)
          have off : (((h.unlinkPage .nfull c p).modifyPage p Page.reserve).pages p).listFlags =
              .none := by simp [Page.reserve]
          generalize hf : (if (h.pages p).nrUsedPageBlocks - 1 = 0 then ListFlag.emptying
            else .source) = f
          have kind : f = .source ∨ f = .emptying := by
            rw [← hf]
            split
            · exact .inr rfl
            · exact .inl rfl
          have listed : f ≠ .none ∧ f ≠ .free := by rcases kind with rfl | rfl <;> simp
          have notNfull : f ≠ .nfull := by rcases kind with rfl | rfl <;> simp
          have run : takeSourcePage c h =
              .ok (p, ((h.unlinkPage .nfull c p).modifyPage p Page.reserve).linkPage f c p) := by
            have nr :
                (((h.unlinkPage .nfull c p).modifyPage p Page.reserve).pages p).nrUsedPageBlocks =
                (h.pages p).nrUsedPageBlocks - 1 := by simp [Page.reserve]
            have dropped := dropUsed_ok (p := p) (h := h.unlinkPage .nfull c p)
              (by simpa using some)
            rw [takeSourcePage, hs, hn]
            simp only [removePageFromNfullList, removePage_ok nfull, ok_bind, dropped]
            rw [nr, ← hf]
            split
            · exact congrArg (· >>= fun g => pure (p, g)) (addPage_ok off)
            · exact congrArg (· >>= fun g => pure (p, g)) (addPage_ok off)
          refine ⟨p, _, finish run page (.inr nfull) (by simp [Page.reserve]), hc, .inr nfull,
            ?_, ?_, ?_, ?_, ?_⟩
          · exact (ok'.linkPage (c := c) off (by simpa [Page.reserve] using hc) listed).modifyPage
              rfl (.inl rfl)
          · exact (quiet.trans (quiet_linkPage _ _ _ _)).trans (quiet_modifyPage _ _ _ rfl)
          · simp [Page.enter, Page.reserve, Page.toSource, hf]
          · simp only [Heap.modifyPage_classes, linkPage_nfullentries, unlinkPage_nfullentries,
              notNfull, nfull]
            simp
            omega
          · simp only [Heap.modifyPage_classes, linkPage_nfullentries, unlinkPage_nfullentries,
              linkPage_sourceentries, unlinkPage_sourceentries, notNfull, kind]
            simp
            omega

end Source

/-! ### Allocating a block -/

/-- The end of the step of `cf_malloc` that takes a block: a page that is now full changes
list. -/
def regroupTaken (c p : Nat) (h : Heap π) : Except Fault (Heap π) := do
  if isPageFull p (blockSize c) h then
    let h ← removePageFromNfullList c p h
    addPageToFullList c p h
  else return h

theorem takePageBlock_eq (c p : Nat) (h : Heap π) :
    takePageBlock c p h = getFreePageBlock p h >>= fun r =>
      regroupTaken c p r.2 >>= fun h => pure (r.1, h) := by
  unfold takePageBlock
  congr 1
  funext r
  unfold regroupTaken
  by_cases full : isPageFull p (blockSize c) r.2
  · simp only [full, if_true]
    cases removePageFromNfullList c p r.2 <;> rfl
  · simp only [full, if_false]
    rfl

section Malloc
variable {cfg : Config} {c p : Nat} {h : Heap π}

/-- `cf_malloc` allocates from a free page, which becomes a page of the class, or from a
not-full page of the class. -/
theorem getNfullPage_step (t : Nat) (ok : Registered cfg h) :
    (getNfullPage cfg t c h = .ok (none, h) ∧ (h.classes c).lists .nfull = [] ∧
      getFreePage cfg t h = .ok (none, h)) ∨
    ∃ p h', getNfullPage cfg t c h = .ok (some p, h') ∧ Registered cfg h' ∧
      (∀ q, q ≠ p → h'.pages q = h.pages q) ∧ h'.memory = h.memory ∧
      h'.addresses = h.addresses ∧ (∀ d, d ≠ c → h'.classes d = h.classes d) ∧
      (h'.classes c).sourceentries = (h.classes c).sourceentries ∧
      (h'.classes c).nfullentries ≤ max (h.classes c).nfullentries 1 ∧
      ((h.pages p).listFlags = .free ∧ h'.pages p = { h.pages p with
        nrUsedPageBlocks := 0, sc := c, listFlags := .nfull } ∨
      (h.pages p).listFlags = .nfull ∧ (h.pages p).sc = c ∧ h' = h) := by
  by_cases none : (h.classes c).lists .nfull = []
  · obtain ⟨P, pool⟩ := ok.pool
    have zero : (h.classes c).nfullentries = 0 := by
      rw [ok.lists.nfullentries c, none]
      rfl
    rcases getFreePage_spec t pool with ⟨run, _⟩ | ⟨p, P', threads, head, run, free, pool', _⟩
    · refine .inl ⟨?_, none, run⟩
      simp only [getNfullPage, none, if_true, run, ok_bind]
      rfl
    · generalize hg : ({ h.modifyPage p fun pg => { pg with listFlags := .none } with
        threads := threads, freePageHead := head } : Heap π) = g at run pool'
      have gp : g.pages p = { h.pages p with listFlags := .none } := by rw [← hg]; simp
      have other : ∀ q, q ≠ p → g.pages q = h.pages q := by
        intro q hq; rw [← hg]; simp [hq]
      have classes : g.classes = h.classes := by rw [← hg]; rfl
      have memory : g.memory = h.memory := by rw [← hg]; rfl
      have addresses : g.addresses = h.addresses := by rw [← hg]; rfl
      have registered : Registered cfg g := by
        refine ⟨⟨?_, ?_, ?_, ?_, ?_⟩, P', pool'⟩ <;> simp only [classes]
        · exact ok.lists.nodup
        · intro d f q
          rw [ok.lists.mem d f q]
          by_cases hq : q = p
          · subst hq
            rw [gp, free]
            constructor
            · rintro ⟨_, ne, eq, _⟩; exact absurd eq.symm ne
            · rintro ⟨ne, _, eq, _⟩; exact absurd eq.symm ne
          · rw [other q hq]
        · exact ok.lists.nfullentries
        · exact ok.lists.sourceentries
        · exact ok.lists.nrPages
      let f : Page → Page := fun pg => { pg with nrUsedPageBlocks := 0, sc := c }
      have off : ((g.modifyPage p f).pages p).listFlags = .none := by simp [f, gp]
      refine .inr ⟨p, (g.modifyPage p f).linkPage .nfull c p, ?_, ?_, ?_, memory, addresses, ?_,
        ?_, ?_, .inl ⟨free, by simp [f, gp]⟩⟩
      · simp only [getNfullPage, none, if_true, run, ok_bind]
        change addPageToNfullList c p (g.modifyPage p f) >>= (fun h => pure (some p, h)) = _
        rw [addPageToNfullList, addPage_ok off]
        rfl
      · exact (registered.modifyPage (f := f) rfl (.inr (by simp [gp]))).linkPage off (by simp [f])
          (by simp)
      · intro q hq
        simp [Heap.linkPage, hq, other]
      · intro d hd
        simp [Heap.linkPage, hd, classes]
      · simp [linkPage_sourceentries, classes]
      · simp [linkPage_nfullentries, classes, zero]
  · obtain ⟨p, hp⟩ : ∃ p, getNfullPagesTail c h = some p :=
      ⟨_, List.getLast?_eq_getLast_of_ne_nil none⟩
    obtain ⟨_, _, nfull, sc⟩ := (ok.lists.mem c .nfull p).mp (List.mem_of_getLast? hp)
    refine .inr ⟨p, h, ?_, ok, fun _ _ => rfl, rfl, rfl, fun _ _ => rfl, rfl,
      Nat.le_max_left _ _, .inr ⟨nfull, sc, rfl⟩⟩
    simp only [getNfullPage, none, if_false, hp]
    rfl

/-- A page with room has a block for `get_free_page_block`, the least unused one. -/
theorem getFreePageBlock_least {cap : Nat} (cap_le : cap ≤ 1012)
    (room : (h.pages p).usedPageBlockBitmap.usedBlocks.card < cap) :
    ∃ i, getFreePageBlock p h = .ok (i, h.modifyPage p (Page.take i)) ∧ i < 1024 ∧ i < cap ∧
      ¬ (h.pages p).usedPageBlockBitmap.Used i ∧
      ∀ j, j < i → (h.pages p).usedPageBlockBitmap.Used j := by
  obtain ⟨j, hj, unusedJ⟩ : ∃ j, j < 1024 ∧ ¬ (h.pages p).usedPageBlockBitmap.Used j := by
    by_contra all
    push Not at all
    have sub : Finset.range 1024 ⊆ (h.pages p).usedPageBlockBitmap.usedBlocks := by
      intro j hj
      exact UsedBitmap.mem_usedBlocks.mpr (all j (Finset.mem_range.mp hj))
    have := Finset.card_le_card sub
    simp only [Finset.card_range] at this
    omega
  obtain ⟨i, found⟩ := UsedBitmap.findUnused_isSome hj unusedJ
  obtain ⟨i1024, unused, least⟩ := UsedBitmap.findUnused_least found
  refine ⟨i, ?_, i1024, Nat.lt_of_le_of_lt (UsedBitmap.findUnused_le_card found) room, unused,
    least⟩
  simp only [getFreePageBlock, found]
  rfl

theorem getFreePageBlock_ok (hc : c < sizeClasses)
    (room : (h.pages p).usedPageBlockBitmap.usedBlocks.card < capacity c) :
    ∃ i, getFreePageBlock p h = .ok (i, h.modifyPage p (Page.take i)) ∧ i < 1024 ∧
      ¬ (h.pages p).usedPageBlockBitmap.Used i ∧ i < capacity c := by
  obtain ⟨i, run, i1024, below, unused, _⟩ := getFreePageBlock_least (capacity_le hc) room
  exact ⟨i, run, i1024, unused, below⟩

theorem PageOk.take {pg : Page} {i : Nat} {f : ListFlag}
    (used : pg.nrUsedPageBlocks = pg.usedPageBlockBitmap.usedBlocks.card)
    (inside : ∀ j, pg.usedPageBlockBitmap.Used j → j < capacity pg.sc)
    (sc_lt : pg.sc < sizeClasses) (i1024 : i < 1024) (unused : ¬ pg.usedPageBlockBitmap.Used i)
    (room : i < capacity pg.sc)
    (flag : FlagOk (capacity pg.sc) (pg.nrUsedPageBlocks + 1) pg.sourceentries f) :
    PageOk { pg.take i with listFlags := f } := by
  refine ⟨?_, fun j hj => ?_, sc_lt, flag⟩
  · simp only [Page.take, UsedBitmap.usedBlocks_mark _ i1024]
    rw [Finset.card_insert_of_notMem (fun mem => unused (UsedBitmap.mem_usedBlocks.mp mem)), used]
  · rcases (UsedBitmap.used_mark i1024).mp hj with hj | rfl
    · exact inside j hj
    · exact room

/-- A page that has been taken a block from leaves the not-full list when it is full. -/
theorem regroupTaken_spec (ok : Registered cfg h) (hc : (h.pages p).sc = c)
    (flag : (h.pages p).listFlags = .nfull) :
    ∃ h', regroupTaken c p h = .ok h' ∧ Registered cfg h' ∧ Quiet c p h h' ∧
      h'.pages p = { h.pages p with
        listFlags := if (h.pages p).nrUsedPageBlocks = capacity c then .full else .nfull } ∧
      (h'.classes c).sourceentries = (h.classes c).sourceentries ∧
      (h'.classes c).nfullentries ≤ (h.classes c).nfullentries := by
  by_cases full : (h.pages p).nrUsedPageBlocks = capacity c
  · have off : ((h.unlinkPage .nfull c p).pages p).listFlags = .none := by simp
    refine ⟨(h.unlinkPage .nfull c p).linkPage .full c p, ?_, ?_, ?_, ?_, ?_, ?_⟩
    · rw [regroupTaken, if_pos (show isPageFull p (blockSize c) h from full),
        removePageFromNfullList, removePage_ok flag, ok_bind, addPageToFullList, addPage_ok off]
    · exact (ok.unlinkPage flag hc (by simp)).linkPage off (by simpa using hc) (by simp)
    · exact (quiet_unlinkPage _ _ _ _).trans (quiet_linkPage _ _ _ _)
    · simp [full]
    · simp [linkPage_sourceentries, unlinkPage_sourceentries]
    · simp [linkPage_nfullentries, unlinkPage_nfullentries]
  · refine ⟨h, ?_, ok, ⟨fun _ _ => rfl, rfl, fun _ _ => rfl, rfl, rfl⟩, ?_, rfl, le_rfl⟩
    · rw [regroupTaken, if_neg (show ¬ isPageFull p (blockSize c) h from full)]
      rfl
    · rw [if_neg full, ← flag]

end Malloc

end
end CompactFit
