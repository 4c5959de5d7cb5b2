import CompactFit.PageSteps

/-!
The invariant of pages, lists and pools, and what each page-level operation of
the source does to it. An operation works on one page at a time; between its
steps the heap is `Loose` at that page, where everything but the page's own
header condition holds.
-/

namespace CompactFit
open Function ByteMemory

section
variable {π : Type}

structure HeapOk (cfg : Config) (h : Heap π) : Prop where
  lists : ListsOk h
  pool : ∃ P, PoolOk cfg h P
  page : ∀ p, PageOk (h.pages p)
  range : ∀ p, (h.pages p).listFlags ≠ .none ↔ InHeap cfg p

structure Loose (cfg : Config) (p : Nat) (h : Heap π) : Prop where
  lists : ListsOk h
  pool : ∃ P, PoolOk cfg h P
  page : ∀ q, q ≠ p → PageOk (h.pages q)
  range : ∀ q, q ≠ p → ((h.pages q).listFlags ≠ .none ↔ InHeap cfg q)
  heap : InHeap cfg p

section Loose
variable {cfg : Config} {c p : Nat} {h : Heap π}

theorem HeapOk.loose (ok : HeapOk cfg h) (listed : (h.pages p).listFlags ≠ .none) :
    Loose cfg p h :=
  ⟨ok.lists, ok.pool, fun q _ => ok.page q, fun q _ => ok.range q, (ok.range p).mp listed⟩

theorem Loose.close (loose : Loose cfg p h) (page : PageOk (h.pages p))
    (listed : (h.pages p).listFlags ≠ .none) : HeapOk cfg h := by
  refine ⟨loose.lists, loose.pool, fun q => ?_, fun q => ?_⟩
  · by_cases hq : q = p
    · exact hq ▸ page
    · exact loose.page q hq
  · by_cases hq : q = p
    · subst hq; exact ⟨fun _ => loose.heap, fun _ => listed⟩
    · exact loose.range q hq

theorem Loose.registered (loose : Loose cfg p h) : Registered cfg h := ⟨loose.lists, loose.pool⟩

theorem Registered.loose {h' : Heap π} (registered : Registered cfg h') (loose : Loose cfg p h)
    (other : ∀ q, q ≠ p → h'.pages q = h.pages q) : Loose cfg p h' :=
  ⟨registered.lists, registered.pool, fun q hq => other q hq ▸ loose.page q hq,
    fun q hq => other q hq ▸ loose.range q hq, loose.heap⟩

theorem Loose.modifyPage (loose : Loose cfg p h) {f : Page → Page}
    (flag : (f (h.pages p)).listFlags = (h.pages p).listFlags)
    (sc : (f (h.pages p)).sc = (h.pages p).sc ∨ (h.pages p).listFlags = .none) :
    Loose cfg p (h.modifyPage p f) :=
  (loose.registered.modifyPage flag sc).loose loose fun q hq => by simp [hq]

/-- A step on the loose page closes it with a header that is right. -/
theorem Loose.step {h' : Heap π} {pg : Page} (loose : Loose cfg p h)
    (step : PageStep cfg c p pg h h') (page : PageOk pg) (listed : pg.listFlags ≠ .none) :
    HeapOk cfg h' :=
  (step.registered.loose loose step.only.pages).close (step.page ▸ page) (step.page ▸ listed)

end Loose

/-! ### Freeing a used block -/

/-- What a free operation on the used block `i` of page `p` leaves. -/
structure FreedBlock (cfg : Config) (c p i : Nat) (h h' : Heap π) : Prop where
  ok : HeapOk cfg h'
  only : OnlyPage c p h h'
  used : (h'.pages p).usedPageBlockBitmap = (h.pages p).usedPageBlockBitmap.clear i
  entries : (h'.pages p).sourceentries = (h.pages p).sourceentries
  sourceentries : (h'.classes c).sourceentries = (h.classes c).sourceentries
  nfullentries : (h'.classes c).nfullentries ≤
    (h.classes c).nfullentries + if (h.pages p).listFlags = .full then 1 else 0

section Free
variable {cfg : Config} {c p i : Nat} {h : Heap π}

theorem doFreeFullState_spec (t : Nat) (ok : HeapOk cfg h)
    (used : (h.pages p).usedPageBlockBitmap.Used i) (hc : (h.pages p).sc = c)
    (full : (h.pages p).listFlags = .full) :
    ∃ h', doFreeFullState cfg t c p i h = .ok h' ∧ FreedBlock cfg c p i h h' := by
  have page := ok.page p
  have flag := page.flag
  rw [full] at flag
  have loose := (ok.loose (p := p) (by simp [full])).modifyPage (f := Page.drop i) rfl (.inl rfl)
  have quiet := quiet_modifyPage c p h (f := Page.drop i) rfl
  obtain ⟨h', run, step, entries, nfull⟩ := regroupFull_spec t loose.registered loose.heap
    (by simpa [Page.drop] using hc) (by simpa [Page.drop] using full)
  refine ⟨h', ?_, loose.step step ?_ ?_, quiet.before step.only, ?_, ?_, entries, ?_⟩
  · rw [doFreeFullState_eq, freeUsedPageBlock_ok page used, ok_bind, run]
  · rw [Heap.modifyPage_same]
    by_cases empty : ((h.pages p).drop i).nrUsedPageBlocks = 0
    · rw [if_pos empty]
      exact page.drop used ⟨empty, flag.2⟩
    · rw [if_neg empty]
      refine page.drop used ⟨Nat.pos_of_ne_zero empty, ?_, flag.2⟩
      have pos := page.used_pos used
      have le := page.used_le
      omega
  · dsimp only
    split <;> simp
  · simp [step.page, Page.drop]
  · simp [step.page, Page.drop]
  · rw [if_pos full]
    exact nfull

theorem doFreeNfullState_spec (t : Nat) (ok : HeapOk cfg h)
    (used : (h.pages p).usedPageBlockBitmap.Used i) (hc : (h.pages p).sc = c)
    (notFull : (h.pages p).listFlags ≠ .full) :
    ∃ h', doFreeNfullState cfg t c p i h = .ok h' ∧ FreedBlock cfg c p i h h' := by
  have page := ok.page p
  have pos := page.used_pos used
  have flag := page.flag
  have flags := page.listed_of_used used notFull
  have listed : (h.pages p).listFlags ≠ .none := by rcases flags with ⟨f, _⟩ | ⟨f, _⟩ <;> simp [f]
  have loose := (ok.loose (p := p) listed).modifyPage (f := Page.drop i) rfl (.inl rfl)
  have quiet := quiet_modifyPage c p h (f := Page.drop i) rfl
  have room := (page.source_room (flags.symm.imp And.left And.left)).2
  rw [doFreeNfullState_eq, freeUsedPageBlock_ok page used, ok_bind]
  by_cases last : (h.pages p).nrUsedPageBlocks = 1
  · rw [if_pos last]
    obtain ⟨h', run, step, entries, nfull⟩ := regroupLast_spec t loose.registered loose.heap
      (c := c) (by simpa [Page.drop] using hc)
      (by rcases flags with ⟨f, e⟩ | ⟨f, e⟩ <;> simp [Page.drop, f, e])
    refine ⟨h', run, loose.step step ?_ ?_, quiet.before step.only, ?_, ?_, entries,
      Nat.le_add_right_of_le nfull⟩
    · rw [Heap.modifyPage_same]
      by_cases none : ((h.pages p).drop i).sourceentries = 0
      · rw [if_pos none]
        exact page.drop used ⟨by omega, none⟩
      · rw [if_neg none]
        have none : (h.pages p).sourceentries ≠ 0 := none
        exact page.drop used ⟨by omega, by omega, Nat.pos_of_ne_zero none⟩
    · dsimp only
      split <;> simp
    · simp [step.page, Page.drop]
    · simp [step.page, Page.drop]
  · rw [if_neg last]
    refine ⟨_, rfl, loose.close ?_ (by simpa [Page.drop] using listed), quiet.only,
      by simp [Page.drop], by simp [Page.drop], rfl, by simp⟩
    have keep : FlagOk (capacity (h.pages p).sc) ((h.pages p).nrUsedPageBlocks - 1)
        (h.pages p).sourceentries (h.pages p).listFlags := by
      rcases flags with ⟨f, _⟩ | ⟨f, _⟩
      · rw [f] at flag ⊢
        exact ⟨by omega, by have := flag.2.1; omega, flag.2.2⟩
      · rw [f] at flag ⊢
        exact ⟨by omega, by have := flag.2.1; omega, flag.2.2⟩
    simpa [Page.drop] using page.drop used keep

theorem doFree_spec (t : Nat) (ok : HeapOk cfg h)
    (used : (h.pages p).usedPageBlockBitmap.Used i) (hc : (h.pages p).sc = c) :
    ∃ h', doFree cfg t c p (blockSize c) i h = .ok h' ∧ FreedBlock cfg c p i h h' := by
  have full : isPageFull p (blockSize c) h ↔ (h.pages p).listFlags = .full := by
    rw [← (ok.page p).full_iff, hc]
    rfl
  by_cases hf : (h.pages p).listFlags = .full
  · rw [doFree, if_pos (full.mpr hf)]
    exact doFreeFullState_spec t ok used hc hf
  · rw [doFree, if_neg (fun is => hf (full.mp is))]
    exact doFreeNfullState_spec t ok used hc hf

end Free

/-! ### Source entries -/

/-- What giving up one source entry of page `p` leaves. A page that loses its last
entry leaves the source lists, and is not full unless it is empty. -/
structure ReleasedEntry (cfg : Config) (c p : Nat) (h h' : Heap π) : Prop where
  ok : HeapOk cfg h'
  only : OnlyPage c p h h'
  used : (h'.pages p).usedPageBlockBitmap = (h.pages p).usedPageBlockBitmap
  entries : (h'.pages p).sourceentries = (h.pages p).sourceentries - 1
  sourceentries : (h'.classes c).sourceentries +
    (if (h.pages p).sourceentries = 1 then 1 else 0) = (h.classes c).sourceentries
  nfullentries : (h'.classes c).nfullentries = (h.classes c).nfullentries +
    if (h.pages p).sourceentries = 1 ∧ (h.pages p).nrUsedPageBlocks ≠ 0 then 1 else 0

section Source
variable {cfg : Config} {c p : Nat} {h : Heap π}

theorem releaseSource_spec (t : Nat) (ok : HeapOk cfg h) (hc : (h.pages p).sc = c)
    (entries : 0 < (h.pages p).sourceentries) :
    ∃ h', releaseSource cfg t c p h = .ok h' ∧ ReleasedEntry cfg c p h h' := by
  have page := ok.page p
  have listed : (h.pages p).listFlags ≠ .none := by
    rcases page.source_of_entries entries with ⟨f, _⟩ | ⟨f, _⟩ <;> simp [f]
  have loose := ok.loose listed
  obtain ⟨h', run, step, counted, nfull⟩ :=
    releaseEntry_spec t loose.registered loose.heap hc entries
    (page.source_flag entries)
  refine ⟨h', run, loose.step step (page.release entries) ?_, step.only, by rw [step.page]; rfl,
    by rw [step.page]; rfl, counted, nfull⟩
  dsimp only
  split
  · split <;> simp
  · exact listed

/-- What `get_source_page` leaves: the page it returns has a new entry and counts
one used block less than its bitmap shows. -/
structure TakenSource (cfg : Config) (c p : Nat) (h h' : Heap π) : Prop where
  loose : Loose cfg p h'
  quiet : Quiet c p h h'
  sc : (h.pages p).sc = c
  notFull : (h.pages p).listFlags ≠ .full
  used : (h'.pages p).usedPageBlockBitmap = (h.pages p).usedPageBlockBitmap
  nrUsed : (h'.pages p).nrUsedPageBlocks = (h.pages p).nrUsedPageBlocks - 1
  some : ∃ i, (h.pages p).usedPageBlockBitmap.Used i
  entries : (h'.pages p).sourceentries = (h.pages p).sourceentries + 1
  flag : FlagOk (capacity c) (h'.pages p).nrUsedPageBlocks (h'.pages p).sourceentries
    (h'.pages p).listFlags
  listed : (h'.pages p).listFlags = .source ∨ (h'.pages p).listFlags = .emptying
  nfullentries : (h'.classes c).nfullentries +
    (if (h.pages p).sourceentries = 0 then 1 else 0) = (h.classes c).nfullentries
  total : (h'.classes c).nfullentries + (h'.classes c).sourceentries =
    (h.classes c).nfullentries + (h.classes c).sourceentries

/-- `get_source_page` finds a page in a class that is not in the full state. -/
theorem getSourcePage_spec (ok : HeapOk cfg h) (notFull : ¬ inFullState c h) :
    ∃ p h', getSourcePage c h = .ok (p, h') ∧ TakenSource cfg c p h h' := by
  have start : Registered cfg h := ⟨ok.lists, ok.pool⟩
  obtain ⟨p, h', run, hc, flags, registered, quiet, same, nfull, total⟩ :=
    getSourcePage_step start notFull fun p _ _ => ok.page p
  have page := ok.page p
  have flag := page.flag
  have listed : (h.pages p).listFlags ≠ .none := by rcases flags with f | f <;> simp [f]
  have some := page.source_room flags
  have entered : (h.pages p).listFlags = .nfull ↔ (h.pages p).sourceentries = 0 := by
    rcases flags with f | f
    · rw [f] at flag ⊢
      simp only [reduceCtorEq, false_iff]
      exact Nat.ne_of_gt flag.2.2
    · rw [f] at flag ⊢
      simp only [true_iff]
      exact flag.2.2
  refine ⟨p, h', run, registered.loose (ok.loose listed) quiet.pages, quiet, hc, ?_, ?_, ?_,
    page.exists_used some.1, ?_, ?_, ?_, ?_, total⟩
  · rcases flags with f | f <;> simp [f]
  · rw [same]; rfl
  · rw [same]; rfl
  · rw [same]; rfl
  · rw [same, ← hc]
    simp only [Page.toSource]
    split
    · next empty => exact ⟨empty, by omega, by omega⟩
    · next more => exact ⟨by omega, by omega, by omega⟩
  · rw [same]
    simp only [Page.toSource]
    split <;> simp
  · simp only [entered] at nfull
    exact nfull

end Source

/-! ### Allocating a block -/

/-- The header, lists and thread pointers are the same, and so are the links of
the free pages. -/
structure SameHeaders (h h' : Heap π) : Prop where
  pages : h'.pages = h.pages
  classes : h'.classes = h.classes
  threads : h'.threads = h.threads
  freePageHead : h'.freePageHead = h.freePageHead
  links : ∀ p, (h.pages p).listFlags = .free → AgreeOn h.memory h'.memory (pageAddress p) 8

theorem ListsOk.congr {h h' : Heap π} (lists : ListsOk h) (pages : h'.pages = h.pages)
    (classes : h'.classes = h.classes) : ListsOk h' := by
  refine ⟨?_, ?_, ?_, ?_, ?_⟩ <;> simp only [pages, classes]
  · exact lists.nodup
  · exact lists.mem
  · exact lists.nfullentries
  · exact lists.sourceentries
  · exact lists.nrPages

theorem Registered.congr {cfg : Config} {h h' : Heap π} (registered : Registered cfg h)
    (same : SameHeaders h h') : Registered cfg h' := by
  obtain ⟨P, pool⟩ := registered.pool
  exact ⟨registered.lists.congr same.pages same.classes,
    ⟨P, poolOk_congr pool (fun q => by rw [same.pages]) same.links same.threads
      same.freePageHead⟩⟩

theorem Loose.congr {cfg : Config} {p : Nat} {h h' : Heap π} (loose : Loose cfg p h)
    (same : SameHeaders h h') : Loose cfg p h' := by
  obtain ⟨lists, pool⟩ := loose.registered.congr same
  refine ⟨lists, pool, ?_, ?_, loose.heap⟩
  · rw [same.pages]; exact loose.page
  · rw [same.pages]; exact loose.range

theorem HeapOk.congr {cfg : Config} {h h' : Heap π} (ok : HeapOk cfg h)
    (same : SameHeaders h h') : HeapOk cfg h' := by
  have registered : Registered cfg h := ⟨ok.lists, ok.pool⟩
  obtain ⟨lists, pool⟩ := registered.congr same
  refine ⟨lists, pool, ?_, ?_⟩
  · rw [same.pages]; exact ok.page
  · rw [same.pages]; exact ok.range

/-- `get_source_page` looks at the headers only. -/
theorem TakenSource.congr {cfg : Config} {c p : Nat} {h h' g g' : Heap π}
    (taken : TakenSource cfg c p h h') (same : SameHeaders h g) (same' : SameHeaders h' g')
    (memory : g'.memory = g.memory) (addresses : g'.addresses = g.addresses) :
    TakenSource cfg c p g g' := by
  obtain ⟨loose, quiet, sc, notFull, used, nrUsed, some, entries, flag, listed, n, total⟩ := taken
  refine ⟨loose.congr same', ⟨?_, ?_, ?_, addresses, memory⟩, ?_, ?_, ?_, ?_, ?_, ?_, ?_, ?_, ?_,
    ?_⟩ <;> simp only [same.pages, same'.pages, same.classes, same'.classes]
  · exact quiet.pages
  · exact quiet.sc
  · exact quiet.classes
  all_goals assumption

/-- The block `find_used_page_block` picks on a page just taken as a source. -/
theorem TakenSource.clear {cfg : Config} {c p i : Nat} {h h' : Heap π}
    (ok : HeapOk cfg h) (taken : TakenSource cfg c p h h')
    (used : (h.pages p).usedPageBlockBitmap.Used i) {g : Heap π} (loose : Loose cfg p g)
    (pages : g.pages = h'.pages) :
    HeapOk cfg (g.modifyPage p fun pg =>
      { pg with usedPageBlockBitmap := pg.usedPageBlockBitmap.clear i }) := by
  have page := ok.page p
  refine (loose.modifyPage rfl (.inl rfl)).close ?_ ?_
  · refine ⟨?_, ?_, ?_, ?_⟩ <;> simp only [Heap.modifyPage_same, pages, taken.quiet.sc]
    · rw [taken.nrUsed, taken.used, UsedBitmap.usedBlocks_clear,
        Finset.card_erase_of_mem (UsedBitmap.mem_usedBlocks.mpr used), page.used]
    · intro j hj
      rw [taken.used, UsedBitmap.used_clear] at hj
      exact page.inside j hj.1
    · exact page.sc_lt
    · rw [taken.sc]; exact taken.flag
  · rcases taken.listed with f | f <;> simp [pages, f]

/-- What `get_nfull_pages_tail` or a fresh page gives to `cf_malloc`. -/
structure NfullPage (cfg : Config) (c p : Nat) (h h' : Heap π) : Prop where
  loose : Loose cfg p h'
  pages : ∀ q, q ≠ p → h'.pages q = h.pages q
  used : (h'.pages p).usedPageBlockBitmap = (h.pages p).usedPageBlockBitmap
  page : PageOk { h'.pages p with listFlags := if (h'.pages p).nrUsedPageBlocks = 0
    then .free else .nfull }
  sc : (h'.pages p).sc = c
  entries : (h'.pages p).sourceentries = 0 ∧ (h.pages p).sourceentries = 0
  flag : (h'.pages p).listFlags = .nfull
  room : (h'.pages p).nrUsedPageBlocks < capacity c
  was : (h.pages p).listFlags = .free ∨
    (h.pages p).listFlags = .nfull ∧ (h.pages p).sc = c
  memory : h'.memory = h.memory
  addresses : h'.addresses = h.addresses
  classes : ∀ d, d ≠ c → h'.classes d = h.classes d
  sourceentries : (h'.classes c).sourceentries = (h.classes c).sourceentries
  nfullentries : (h'.classes c).nfullentries ≤ max (h.classes c).nfullentries 1

section Malloc
variable {cfg : Config} {c p : Nat} {h : Heap π}

theorem getNfullPage_spec (t : Nat) (ok : HeapOk cfg h) (hc : c < sizeClasses) :
    (getNfullPage cfg t c h = .ok (none, h) ∧ (h.classes c).lists .nfull = [] ∧
      getFreePage cfg t h = .ok (none, h)) ∨
    ∃ p h', getNfullPage cfg t c h = .ok (some p, h') ∧ NfullPage cfg c p h h' := by
  rcases getNfullPage_step (c := c) t ⟨ok.lists, ok.pool⟩ with none |
    ⟨p, h', run, registered, other, memory, addresses, classes, entries, nfull, ⟨free, same⟩ |
      ⟨flag, sc, rfl⟩⟩
  · exact .inl none
  · have page := ok.page p
    have flag := page.flag
    rw [free] at flag
    have empty : (h.pages p).usedPageBlockBitmap.usedBlocks = ∅ := by
      rw [← Finset.card_eq_zero, ← page.used, flag.1]
    refine .inr ⟨p, h', run, registered.loose (ok.loose (by simp [free])) other, other,
      by rw [same], ?_, by rw [same], by rw [same]; exact ⟨flag.2, flag.2⟩, by rw [same],
      by rw [same]; exact capacity_pos hc, .inl free, memory, addresses, classes, entries, nfull⟩
    rw [same]
    refine ⟨by simp [empty], fun i used => ?_, hc, by simp [FlagOk, flag.2]⟩
    replace used : i ∈ (h.pages p).usedPageBlockBitmap.usedBlocks :=
      UsedBitmap.mem_usedBlocks.mpr used
    rw [empty] at used
    simp at used
  · have page := ok.page p
    have cond := page.flag
    rw [flag] at cond
    refine .inr ⟨p, h', run, ok.loose (by simp [flag]), fun _ _ => rfl, rfl, ?_, sc,
      ⟨cond.2.2, cond.2.2⟩, flag, sc ▸ cond.2.1, .inr ⟨flag, sc⟩, rfl, rfl, fun _ _ => rfl, rfl,
      Nat.le_max_left _ _⟩
    rw [if_neg (Nat.ne_of_gt cond.1), ← flag]
    exact page

/-- What `cf_malloc` leaves when it has taken block `i` of page `p`. -/
structure TakenBlock (cfg : Config) (c p i : Nat) (h h' : Heap π) : Prop where
  ok : HeapOk cfg h'
  pages : ∀ q, q ≠ p → h'.pages q = h.pages q
  used : ∀ j, (h'.pages p).usedPageBlockBitmap.Used j ↔
    (h.pages p).usedPageBlockBitmap.Used j ∨ j = i
  unused : ¬ (h.pages p).usedPageBlockBitmap.Used i
  inside : i < capacity c
  sc : (h'.pages p).sc = c
  entries : (h'.pages p).sourceentries = 0 ∧ (h.pages p).sourceentries = 0
  listed : (h'.pages p).listFlags = .nfull ∨ (h'.pages p).listFlags = .full
  was : (h.pages p).listFlags = .free ∨
    (h.pages p).listFlags = .nfull ∧ (h.pages p).sc = c
  memory : h'.memory = h.memory
  addresses : h'.addresses = h.addresses
  classes : ∀ d, d ≠ c → h'.classes d = h.classes d
  sourceentries : (h'.classes c).sourceentries = (h.classes c).sourceentries
  nfullentries : (h'.classes c).nfullentries ≤ max (h.classes c).nfullentries 1

theorem takePageBlock_spec {h' : Heap π} (hc : c < sizeClasses)
    (nfull : NfullPage cfg c p h h') :
    ∃ i g, takePageBlock c p h' = .ok (i, g) ∧ TakenBlock cfg c p i h g := by
  have page := nfull.page
  have room : (h'.pages p).usedPageBlockBitmap.usedBlocks.card < capacity c := by
    rw [← page.used]
    exact nfull.room
  obtain ⟨i, run, i1024, unused, inside⟩ := getFreePageBlock_ok hc room
  have loose := nfull.loose.modifyPage (f := Page.take i) rfl (.inl rfl)
  obtain ⟨g, run', registered, quiet, same, entries, nfullentries⟩ := regroupTaken_spec (c := c)
    (p := p) loose.registered (by simpa [Page.take] using nfull.sc)
    (by simpa [Page.take] using nfull.flag)
  rw [Heap.modifyPage_same] at same
  have other : ∀ q, q ≠ p → g.pages q = h.pages q := fun q hq => by
    rw [quiet.pages q hq, Heap.modifyPage_other _ _ hq, nfull.pages q hq]
  have used : ∀ j, (g.pages p).usedPageBlockBitmap.Used j ↔
      (h.pages p).usedPageBlockBitmap.Used j ∨ j = i := by
    intro j
    rw [same, ← nfull.used]
    exact UsedBitmap.used_mark i1024
  refine ⟨i, g, ?_, (registered.loose loose quiet.pages).close ?_ ?_, other, used, nfull.used ▸
    unused,
    inside, by rw [same]; exact nfull.sc, ⟨by rw [same]; exact nfull.entries.1, nfull.entries.2⟩,
    ?_, nfull.was, quiet.memory.trans nfull.memory, quiet.addresses.trans nfull.addresses,
    fun d hd => (quiet.classes d hd).trans (nfull.classes d hd), entries.trans nfull.sourceentries,
    nfullentries.trans nfull.nfullentries⟩
  · rw [takePageBlock_eq, run, ok_bind, run', ok_bind]
    rfl
  · rw [same]
    refine PageOk.take page.used page.inside page.sc_lt i1024 unused (nfull.sc ▸ inside) ?_
    have lt := nfull.room
    rw [nfull.sc]
    split
    · next full => exact ⟨full, nfull.entries.1⟩
    · next more =>
        simp only [Page.take] at more
        exact ⟨Nat.succ_pos _, by omega, nfull.entries.1⟩
  · rw [same]
    dsimp only
    split <;> simp
  · rw [same]
    dsimp only
    split <;> simp

end Malloc

end
end CompactFit
