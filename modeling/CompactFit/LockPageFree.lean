import CompactFit.LockPageInvariant

/-!
The steps of `cf_free` in the build with page locks: finding the class, freeing a block under the
lock of its page, and a compaction that goes on without the lock of the class.
-/

namespace CompactFit
namespace LockPage
open Function ByteMemory AddressPool LawfulAddressPool

section
variable {π : Type} [AddressPool π] [LawfulAddressPool π]

/-- From `h` to `h'`, block `⟨p, i⟩` is chosen as the source of a compaction: its bit is cleared,
and the word of its address `b` is `start`. -/
structure SelectedBlock (cfg : Config) (p i b start : Nat) (h h' : Heap π) : Prop where
  page : h'.pages p = { h.pages p with
    usedPageBlockBitmap := (h.pages p).usedPageBlockBitmap.clear i }
  others : ∀ q, q ≠ p → h'.pages q = h.pages q
  registered : Registered cfg h → Registered cfg h'
  memory : h'.memory = h.memory
  word : (h'.view cfg).word b = start
  words : ∀ a, a ≠ b → (h'.view cfg).word a = (h.view cfg).word a
  valid : ∀ (T : Nat) (out : Nat → Prop), out b →
    Valid cfg.toAddressConfig T (fun id => out (aaPointer cfg id)) h.addresses →
    Valid cfg.toAddressConfig T (fun id => out (aaPointer cfg id)) h'.addresses

theorem selectedBlock_spec {cfg : Config} {p i b w start : Nat} {h h' : Heap π} (isAa : IsAa cfg b)
    (hh : ((h.modifyPage p fun pg =>
      { pg with usedPageBlockBitmap := pg.usedPageBlockBitmap.clear i }).setAa cfg b w).setAa cfg b
        start = h') : SelectedBlock cfg p i b start h h' := by
  generalize hg : (h.modifyPage p fun pg =>
    { pg with usedPageBlockBitmap := pg.usedPageBlockBitmap.clear i }) = g at hh
  have pages : h'.pages = g.pages := by rw [← hh]; rfl
  refine ⟨?_, fun q hq => ?_, fun ok => ?_, by rw [← hh, ← hg]; rfl, ?_, fun a ne => ?_,
    fun T out outB valid => ?_⟩
  · rw [pages, ← hg, Heap.modifyPage_same]
  · rw [pages, ← hg, Heap.modifyPage_other _ _ hq]
  · have registered : Registered cfg g := hg ▸ ok.modifyPage rfl (.inl rfl)
    exact registered.congr (hh ▸ ⟨rfl, rfl, rfl, rfl, fun _ _ => .refl _ _ _⟩)
  · rw [← hh, Heap.setAa_word_same _ isAa]
  · rw [← hh, Heap.setAa_word_other _ isAa ne, Heap.setAa_word_other _ isAa ne]
    exact Good.word_congr (by rw [← hg]; rfl) a
  · have outId : out (aaPointer cfg ((b - cfg.aaSpace) / 4)) := by rwa [isAa.pointer]
    rw [← hh, ← hg]
    exact valid_setWord (valid_setWord valid outId) outId

namespace Invariant
variable {cfg : Config} {T t p c a : Nat} {S : System π} {f : Freeing} {m : Copy}

/-- The application calls `cf_free` for a live object. -/
theorem call_free (inv : Invariant cfg T S) (ht : t < T) (hP : S.places t = .idle)
    (alive : S.live a ≠ none) : Invariant cfg T { S with
      places := update S.places t (.freeRead a), live := update S.live a none } := by
  have sub : ∀ b o, update S.live a none b = some o → S.live b = some o := by
    intro b o now
    by_cases eq : b = a
    · subst eq
      rw [update_self] at now
      cases now
    · rwa [update_of_ne eq] at now
  have others : ∀ u b, u ≠ t → (S.places u).address = some b → b ≠ a := by
    rintro u b _ hu rfl
    exact alive (inv.dead u b hu)
  have kept : ∀ b, Kept (update S.live a none) (update S.places t (.freeRead a)) b ↔
      Kept S.live S.places b := by
    intro b
    by_cases eq : b = a
    · subst eq
      exact iff_of_true (.inr ⟨t, by rw [update_self]; rfl⟩) (.inl alive)
    · refine Owners.kept_update (update_of_ne eq _ _) ?_
      rw [hP]
      simp only [Place.keeps, Option.some.injEq, reduceCtorEq, iff_false]
      exact fun h => eq h.symm
  have out : ∀ b, Out (update S.live a none) (update S.places t (.freeRead a)) b ↔
      Out S.live S.places b := by
    intro b
    by_cases eq : b = a
    · subst eq
      exact iff_of_true (.inr ⟨t, by rw [update_self]; rfl⟩) (.inl alive)
    · refine out_congr ?_
      rw [update_of_ne eq, hP]
      simp [Place.address, Ne.symm eq]
  have headers : HeadersOk cfg T S.heap (update S.places t (.freeRead a)) := by
    refine inv.headers.move ht trivial (fun q loose => ?_) (by rw [hP]; rfl)
    rw [hP] at loose
    cases loose
  have owners : Owners cfg (S.heap.view cfg) (update S.live a none)
      (update S.places t (.freeRead a)) :=
    inv.owners.congr (Owns.keeps_refl _ _) (fun _ => Iff.rfl) kept
      (update_same Place.taken (by rw [hP]; rfl)) (update_same Place.copying (by rw [hP]; rfl))
      (fun _ _ => rfl) (fun u f m copying => .inr (inv.source_pinned copying)) sub
  refine inv.advance rfl headers (inv.owner_same (by rw [hP]; rfl)) owners
    (fun _ _ _ _ _ _ _ _ => ⟨rfl, rfl⟩) (.none rfl)
    (fun _ b _ _ _ => (copied_update (by rw [hP]; rfl) b).mp) (fun b hb => ?_)
    (fun u b hu hb => ?_) (valid_congr inv.valid fun id => out _)
    fun b hb => inv.isAa b ((out b).mp hb)
  · cases hb
    exact ⟨update_self _ _ _, fun u hu hb => others u a hu hb rfl⟩
  · simp only [update_of_ne (others u b hu hb)]
    exact inv.dead u b hb

theorem code_freeRead (inv : Invariant cfg T S) (hP : S.places t = .freeRead a) :
    ∃ r, code cfg t S.heap (.freeRead a) = .ok r ∧ Coded cfg T t S r := by
  have isAa := inv.isAa a (.inr ⟨t, by rw [hP]; rfl⟩)
  refine ⟨(.freeClass a (pageOfBlock ((S.heap.view cfg).word a)), S.heap), ?_, ?_⟩
  · simp only [code, S.heap.loadAa_ok isAa, ok_bind]
    rfl
  · refine inv.read (inv.not_idle (by simp [hP])) ?_ trivial ?_ ?_ ?_ (.none rfl) <;>
      rw [hP]
    · rfl
    · rfl
    · rfl
    · exact ⟨rfl, rfl, rfl, rfl⟩

theorem code_freeClass (inv : Invariant cfg T S) (hP : S.places t = .freeClass a p) :
    ∃ r, code cfg t S.heap (.freeClass a p) = .ok r ∧ Coded cfg T t S r := by
  refine ⟨(.freeLock a (S.heap.pages p).sc, S.heap), rfl, ?_⟩
  refine inv.read (inv.not_idle (by simp [hP])) ?_ trivial ?_ ?_ ?_ (.none rfl) <;>
    rw [hP]
  · rfl
  · rfl
  · rfl
  · exact ⟨rfl, rfl, rfl, rfl⟩

/-- The freed block as `cf_free` finds it. -/
theorem find_target (inv : Invariant cfg T S) (hP : S.places t = .freeCheck a c) :
    ∃ B, Holder.Has (S.heap.view cfg) S.places (.address a) B ∧ (S.heap.view cfg).used B ∧
      S.heap.loadAa cfg a = .ok ((S.heap.view cfg).start B) ∧
      pageOfBlock ((S.heap.view cfg).start B) = B.page ∧
      indexOfBlock B.page ((S.heap.view cfg).start B) (blockSize (S.heap.pages B.page).sc) =
        B.index := by
  have isAa := inv.isAa a (.inr ⟨t, by rw [hP]; rfl⟩)
  obtain ⟨B, used, has⟩ := inv.owners.has (.address a) (.inr ⟨t, by rw [hP]; rfl⟩)
  have size := has.placed.size_ge
  refine ⟨B, has, used, ?_, has.placed.pageOfBlock le_rfl (by omega),
    has.placed.indexOfBlock le_rfl (by omega)⟩
  rw [S.heap.loadAa_ok isAa]
  exact congrArg _ has.names

/-- The block that `cf_free` has found under the lock of the class of its page. -/
structure Found (cfg : Config) (S : System π) (t : Nat) (f : Freeing) : Prop where
  place : S.places t = .freeCheck f.address f.sc
  page : PageOk (S.heap.pages f.page)
  used : (S.heap.pages f.page).usedPageBlockBitmap.Used f.index
  sc : (S.heap.pages f.page).sc = f.sc
  has : Holder.Has (S.heap.view cfg) S.places (.address f.address) f.target

omit [LawfulAddressPool π] in
theorem Found.keeps {next : Place} (found : Found cfg S t f)
    (same : next.keeps = some f.address ∧ next.taken = none ∧ next.copying = none ∧
      next.address = some f.address) : next.keeps = (S.places t).keeps ∧
      next.taken = (S.places t).taken ∧ next.copying = (S.places t).copying ∧
      next.address = (S.places t).address := by
  rw [found.place]
  exact same

/-- `do_free` waits for the lock of the page. -/
theorem found_drop {next : Regroup} (inv : Invariant cfg T S) (found : Found cfg S t f)
    (fits : Fits (S.heap.pages f.page) next) : Coded cfg T t S (.dropLock f next, S.heap) := by
  have ht := inv.not_idle (t := t) (by simp [found.place])
  refine inv.read ht ?_ ⟨found.sc, fits⟩ ?_ ?_ (found.keeps ⟨rfl, rfl, rfl, rfl⟩)
    (.of_frees rfl found.has found.sc) <;> rw [found.place] <;> rfl

theorem found_free (inv : Invariant cfg T S) (found : Found cfg S t f) :
    Coded cfg T t S (doFreeLock f S.heap, S.heap) := by
  obtain ⟨next, eq, fits⟩ := doFreeLock_fits (i := f.index) found.page found.used found.sc
  rw [eq]
  exact inv.found_drop found fits

/-- A compaction reserves an entry of its source page and waits for the lock of the target. -/
theorem found_compact (inv : Invariant cfg T S) (found : Found cfg S t f)
    (notFull : ¬ inFullState f.sc S.heap) (flag : (S.heap.pages f.page).listFlags = .full) :
    ∃ q h', getSourcePage f.sc S.heap = .ok (q, h') ∧
      Coded cfg T t S (.compactLockTarget f q, h') := by
  have ht := inv.not_idle (t := t) (by simp [found.place])
  have lock : .sizeClass f.sc ∈ (S.places t).locks := by
    rw [found.place]
    exact List.mem_singleton_self _
  have pages : ∀ p, (S.heap.pages p).sc = f.sc →
      (S.heap.pages p).listFlags = .source ∨ (S.heap.pages p).listFlags = .nfull →
      PageOk (S.heap.pages p) := fun p scP _ =>
    inv.headers.page_of_class (scP ▸ inv.mine lock) (by simp [found.place, Place.loosens])
  obtain ⟨q, h', run, scQ, listed, registered, quiet, same, _⟩ :=
    getSourcePage_step inv.headers.registered notFull pages
  have apart : f.page ≠ q := by
    intro eq
    rw [← eq, flag] at listed
    rcases listed with f | f <;> cases f
  have reserved : Reserved f.sc (h'.pages q) :=
    same ▸ .of_toSource (pages q scQ listed) scQ listed
  refine ⟨q, h', run, inv.regroup ht lock (.inl scQ) registered quiet.pages (.inl quiet.sc)
    ⟨?_, reserved.listed.2⟩ (.inr rfl) (fun r _ loose => ?_) ⟨?_, ?_, reserved⟩ ?_ (fun r => ?_)
    (by rw [same]; rfl) (fun x _ => by rw [quiet.memory]) quiet.addresses
    (by rw [found.place]; rfl) (found.keeps ⟨rfl, rfl, rfl, rfl⟩)
    (.of_frees rfl found.has found.sc)⟩
  · rcases listed with f | f <;> simp [f]
  · rw [found.place] at loose
    cases loose
  · rw [quiet.pages _ apart, found.sc]
  · rw [quiet.pages _ apart, flag]
  · rintro _ _ ⟨⟩
    exact reserved.sc
  · rw [found.place]
    by_cases hr : r = q
    · subst hr
      simp [same, Page.toSource, Place.entries, Place.pinned]
    · have other : ¬ q = r := fun eq => hr eq.symm
      simp [quiet.pages r hr, Place.entries, Place.pinned, other]

/-- `cf_free` under the lock of the class of its page waits for the lock of the page next, to
free the block or to start a compaction. -/
theorem code_freeCheck (inv : Invariant cfg T S) (hP : S.places t = .freeCheck a c) :
    ∃ r, code cfg t S.heap (.freeCheck a c) = .ok r ∧ Coded cfg T t S r := by
  have ht := inv.not_idle (t := t) (by simp [hP])
  have lock : .sizeClass c ∈ (S.places t).locks := by
    rw [hP]
    exact List.mem_singleton_self _
  obtain ⟨B, has, used, load, pageB, indexB⟩ := inv.find_target hP
  by_cases sc : (S.heap.pages B.page).sc = c
  · have page : PageOk (S.heap.pages B.page) :=
      inv.headers.page_of_class (sc ▸ inv.mine lock) (by simp [hP, Place.loosens])
    rw [sc] at indexB
    have run : code cfg t S.heap (.freeCheck a c) =
        if inFullState c S.heap then pure (.dropLock ⟨a, c, B.page, B.index⟩ .full, S.heap)
        else if validNfullPagesRatio cfg c 1 S.heap then
          pure (doFreeLock ⟨a, c, B.page, B.index⟩ S.heap, S.heap)
        else if isPageFull B.page (blockSize c) S.heap then
          getSourcePage c S.heap >>= fun r =>
            pure (.compactLockTarget ⟨a, c, B.page, B.index⟩ r.1, r.2)
        else pure (doFreeLock ⟨a, c, B.page, B.index⟩ S.heap, S.heap) := by
      simp only [code, checkFree, load, ok_bind, pageB, indexB, sc, ne_eq, not_true_eq_false,
        if_false]
    have found : Found cfg S t ⟨a, c, B.page, B.index⟩ := ⟨hP, page, used, sc, has⟩
    rw [run]
    by_cases full : inFullState c S.heap
    · rw [if_pos full]
      exact ⟨_, rfl, inv.found_drop found
        (full_of_fullState inv.headers.registered.lists page used sc full)⟩
    rw [if_neg full]
    by_cases ratio : validNfullPagesRatio cfg c 1 S.heap
    · rw [if_pos ratio]
      exact ⟨_, rfl, inv.found_free found⟩
    rw [if_neg ratio]
    by_cases pageFull : isPageFull B.page (blockSize c) S.heap
    · rw [if_pos pageFull]
      have flagB : (S.heap.pages B.page).listFlags = .full := by
        rw [← page.full_iff, sc]
        exact pageFull
      obtain ⟨q, h', source, coded⟩ := inv.found_compact found full flagB
      exact ⟨_, by rw [source, ok_bind]; rfl, coded⟩
    · rw [if_neg pageFull]
      exact ⟨_, rfl, inv.found_free found⟩
  · refine ⟨(.freeRetry a c, S.heap), ?_, ?_⟩
    · simp only [code, checkFree, load, ok_bind, pageB, ne_eq, sc, not_false_eq_true, if_true]
      rfl
    · refine inv.read ht ?_ trivial ?_ ?_ ?_ (.none rfl) <;> rw [hP]
      · rfl
      · rfl
      · rfl
      · exact ⟨rfl, rfl, rfl, rfl⟩

/-- `free_used_page_block` under the lock of the page. -/
theorem code_dropBlock {next : Regroup} (inv : Invariant cfg T S)
    (hP : S.places t = .dropBlock f next) :
    ∃ r, code cfg t S.heap (.dropBlock f next) = .ok r ∧ Coded cfg T t S r := by
  have ht := inv.not_idle (t := t) (by simp [hP])
  obtain ⟨sc, fits⟩ : (S.heap.pages f.page).sc = f.sc ∧ Fits (S.heap.pages f.page) next := by
    have header := inv.headers.header t
    rw [hP] at header
    exact header
  have lock : .sizeClass f.sc ∈ (S.places t).locks := by
    rw [hP]
    exact List.mem_cons_self
  have lockP : .page f.page ∈ (S.places t).locks := by
    rw [hP]
    simp [Place.locks]
  have has := (inv.relies t).target f (by rw [hP]; rfl)
  have mine : (S.places t).address = some f.address := by rw [hP]; rfl
  have used : (S.heap.pages f.page).usedPageBlockBitmap.Used f.index :=
    inv.owners.used (x := .address f.address) (.inr ⟨t, by rw [hP]; rfl⟩) has
  have page : PageOk (S.heap.pages f.page) :=
    inv.headers.page_of_class (sc ▸ inv.mine lock) (by simp [hP, Place.loosens])
  have run := freeUsedPageBlock_ok page used
  generalize hh : S.heap.modifyPage f.page (Page.drop f.index) = h' at run
  have same : h'.pages f.page = (S.heap.pages f.page).drop f.index := by
    rw [← hh, Heap.modifyPage_same]
  have others : ∀ q, q ≠ f.page → h'.pages q = S.heap.pages q :=
    fun q hq => by rw [← hh, Heap.modifyPage_other _ _ hq]
  have entries : ∀ q, (h'.pages q).sourceentries = (S.heap.pages q).sourceentries :=
    field_same Page.sourceentries others (by rw [same]; rfl)
  have classes : ∀ q, (h'.pages q).sc = (S.heap.pages q).sc :=
    field_same Page.sc others (by rw [same]; rfl)
  have usedIff : ∀ C, (h'.view cfg).used C ↔ (S.heap.view cfg).used C ∧ C ≠ f.target :=
    used_cleared others (by rw [same]; rfl)
  have dropped : Dropped (h'.pages f.page) next := same ▸ fits.drop page used
  have headers : HeadersOk cfg T h' (update S.places t (.dropUnlock f next)) := by
    refine inv.headers.step ht (inv.mine lock) (.inl sc) ?_ others (.inl (classes _))
      ⟨fits.listed.2, dropped.listed.2⟩ (.inr rfl) (fun q _ loose => ?_)
      ⟨(classes _).trans sc, dropped⟩ (fun _ _ pin => by cases pin) fun q => ?_
    · exact hh ▸ inv.headers.registered.modifyPage rfl (.inl rfl)
    · rw [hP] at loose
      cases loose
    · rw [hP, entries]
      rfl
  have only : ∀ u, (S.places u).keeps = some f.address → u = t :=
    fun u hu => inv.single u t _ (Place.address_of_keeps hu) mine
  have owners : Owners cfg (h'.view cfg) S.live (update S.places t (.dropUnlock f next)) :=
    inv.owners.drop (by rw [hP]; exact ⟨rfl, rfl, rfl⟩) ⟨rfl, rfl, rfl⟩ (inv.dead t _ mine) only
      (inv.not_copied has lockP (by rw [hP]; rfl)) has
      (fun u f m copying => inv.source_pinned copying) usedIff (funext entries) (funext classes)
      (by rw [← hh]; rfl) (by rw [← hh]; rfl)
  refine ⟨(.dropUnlock f next, h'), by simp only [code, run, ok_bind]; rfl, ?_, fun q ne => ?_⟩
  · exact inv.inside headers (inv.owner_same (by rw [hP]; rfl)) owners
      (fun u a c B _ _ _ _ => ⟨classes _, by rw [← hh]; rfl⟩) (.none rfl)
      (fun u a c _ _ => (copied_update (by rw [hP]; rfl) a).mp) (by rw [hP]; rfl)
      (by rw [← hh]; exact inv.valid)
  · have eq : q = f.page := by
      by_contra hq
      exact ne (by rw [others q hq])
    rw [eq]
    exact lockP

/-- The page changes its list after the block is freed. -/
theorem code_dropMove {next : Regroup} (inv : Invariant cfg T S)
    (hP : S.places t = .dropMove f next) :
    ∃ r, code cfg t S.heap (.dropMove f next) = .ok r ∧ Coded cfg T t S r := by
  have ht := inv.not_idle (t := t) (by simp [hP])
  obtain ⟨sc, dropped⟩ : (S.heap.pages f.page).sc = f.sc ∧ Dropped (S.heap.pages f.page) next := by
    have header := inv.headers.header t
    rw [hP] at header
    exact header
  have lock : .sizeClass f.sc ∈ (S.places t).locks := by
    rw [hP]
    exact List.mem_singleton_self _
  have heap : InHeap cfg f.page := (inv.headers.range _).mp dropped.listed.2
  have moved : ∀ {h' pg}, PageStep cfg f.sc f.page pg S.heap h' → PageOk pg →
      pg.usedPageBlockBitmap = (S.heap.pages f.page).usedPageBlockBitmap →
      pg.sourceentries = (S.heap.pages f.page).sourceentries → pg.listFlags ≠ .none →
      Coded cfg T t S (.freeClear f.address f.sc, h') := by
    intro h' pg step page bitmap entries listed
    refine inv.regroup ht lock (.inl sc) step.registered step.only.pages (.inl step.only.sc)
      ⟨dropped.listed.2, by rw [step.page]; exact listed⟩ (.inl (step.page ▸ page))
      (fun q hq loose => ?_) trivial (fun _ _ pin => by cases pin) (fun q => ?_)
      (by rw [step.page, bitmap]) step.only.memory step.only.addresses (by rw [hP]; rfl)
      (by rw [hP]; exact ⟨rfl, rfl, rfl, rfl⟩) (.none rfl)
    · rw [hP] at loose
      exact absurd (Option.some.inj loose).symm hq
    · rw [hP]
      by_cases hq : q = f.page
      · rw [hq, step.page, entries]
        rfl
      · rw [step.only.pages q hq]
        rfl
  cases next with
  | full =>
      obtain ⟨h', run, step, _⟩ := regroupFull_spec t inv.headers.registered heap sc dropped.1
      refine ⟨(.freeClear f.address f.sc, h'),
        by simp only [code, doFreeRegroup, run, ok_bind]; rfl,
        moved step dropped.2 rfl rfl ?_⟩
      dsimp only
      split <;> simp
  | last =>
      obtain ⟨h', run, step, _⟩ := regroupLast_spec t inv.headers.registered heap sc dropped.1
      refine ⟨(.freeClear f.address f.sc, h'),
        by simp only [code, doFreeRegroup, run, ok_bind]; rfl,
        moved step dropped.2 rfl rfl ?_⟩
      dsimp only
      split <;> simp
  | other =>
      refine ⟨(.freeClear f.address f.sc, S.heap), rfl, ?_, fun _ ne => absurd rfl ne⟩
      refine inv.still ht (inv.owner_same (by rw [hP]; rfl)) trivial (fun q loose => .inl ?_)
        (by rw [hP]; rfl) (by rw [hP]; exact ⟨rfl, rfl, rfl, rfl⟩) (.none rfl)
      rw [hP] at loose
      rw [← Option.some.inj loose]
      exact dropped.2

/-- The source block that `find_used_page_block` finds is that of an object nobody copies. -/
theorem find_source (inv : Invariant cfg T S) (hP : S.places t = .compactSelect f p) {i : Nat}
    (used : (S.heap.pages p).usedPageBlockBitmap.Used i) :
    ∃ b, Kept S.live S.places b ∧ Holder.Has (S.heap.view cfg) S.places (.address b) ⟨p, i⟩ ∧
      ¬ Copied S.places b := by
  have reserved : Reserved f.sc (S.heap.pages p) := by
    have header := inv.headers.header t
    rw [hP] at header
    exact header.2.2
  obtain ⟨x, active, has⟩ := inv.owners.owned ⟨p, i⟩ used
  cases x with
  | address b => exact ⟨b, active, has, inv.not_copied has (by rw [hP]; simp [Place.locks])
      (by rw [hP]; rfl)⟩
  | thread u =>
      have taken : (S.places u).taken = some ⟨p, i⟩ := has.names
      have filled : ∃ c, Filled c (S.heap.pages p) := by
        have header := inv.headers.header u
        cases hU : S.places u <;> rw [hU] at taken header <;>
          simp only [Place.taken, reduceCtorEq, Option.some.injEq, Block.mk.injEq] at taken
        case mallocUnlockPage | mallocName => exact ⟨_, taken.1 ▸ header⟩
      obtain ⟨c, filled⟩ := filled
      have flags := reserved.flag
      rw [filled.flag] at flags
      simp at flags

/-- The run of `do_compaction` up to the choice of the source. -/
theorem select_run (inv : Invariant cfg T S) (hP : S.places t = .compactSelect f p) {i b : Nat}
    (found : (S.heap.pages p).usedPageBlockBitmap.findUsed = some i)
    (kept : Kept S.live S.places b)
    (has : Holder.Has (S.heap.view cfg) S.places (.address b) ⟨p, i⟩) (still : ¬ Copied S.places b)
    (apart : f.page ≠ p) {g : Heap π}
    (hg : (S.heap.modifyPage p fun pg =>
      { pg with usedPageBlockBitmap := pg.usedPageBlockBitmap.clear i }) = g) :
    selectBlock cfg f p S.heap = .ok (.compactUnlock f
        { srcPage := p
          srcIndex := i
          srcAa := b
          targetAaVal := (S.heap.view cfg).start f.target
          copied := 0 },
      (g.setAa cfg b ((g.view cfg).word b ||| abortCompactFlag)).setAa cfg b
        ((S.heap.view cfg).start f.target)) := by
  obtain ⟨sc, _, reserved⟩ : (S.heap.pages f.page).sc = f.sc ∧
      (S.heap.pages f.page).listFlags = .full ∧ Reserved f.sc (S.heap.pages p) := by
    have header := inv.headers.header t
    rw [hP] at header
    exact header
  have mine : (S.places t).address = some f.address := by rw [hP]; rfl
  have hasT := (inv.relies t).target f (by rw [hP]; rfl)
  have keptT : Kept S.live S.places f.address := .inr ⟨t, by rw [hP]; rfl⟩
  have stillT := inv.not_copied hasT (t := t) (by rw [hP]; simp [Place.locks, Freeing.target])
    (by rw [hP]; rfl)
  have isAaT := inv.isAa _ (kept_out keptT)
  have isAa := inv.isAa b (kept_out kept)
  have ne : f.address ≠ b := by
    rintro rfl
    exact apart (congrArg Block.page (hasT.unique has))
  have back := (inv.owners.complete b _ kept still has).back
  have backT := (inv.owners.complete _ _ keptT stillT hasT).back
  simp only [View.back, View.size, Heap.view, reserved.sc] at back
  simp only [View.back, View.size, Heap.view, Freeing.target, sc] at backT
  have memory : g.memory = S.heap.memory := by rw [← hg]; rfl
  have words : ∀ a, (g.view cfg).word a = (S.heap.view cfg).word a :=
    Good.word_congr (by rw [← hg]; rfl)
  have value :
      ((g.setAa cfg b ((g.view cfg).word b ||| abortCompactFlag)).view cfg).word f.address =
      (S.heap.view cfg).start f.target := by
    rw [Heap.setAa_word_other _ isAa ne, words]
    exact hasT.names
  have memoryF : (g.setAa cfg b ((g.view cfg).word b ||| abortCompactFlag)).memory =
      S.heap.memory := memory
  simp only [selectBlock, found, hg, memory, back, ensure_true (Nat.ne_of_gt isAa.bounds.1),
    ok_bind,
    Heap.flagAa_ok _ g isAa, memoryF, backT, ensure_true (Nat.ne_of_gt isAaT.bounds.1),
    Heap.loadAa_ok _ isAaT, value, Heap.storeAa_ok _ _ isAa]
  rfl

/-- The code of `do_compaction` up to the unlock of the class: the object of the source block is
in the target block from now on, without its bytes. -/
theorem code_compactSelect (inv : Invariant cfg T S) (hP : S.places t = .compactSelect f p) :
    ∃ r, code cfg t S.heap (.compactSelect f p) = .ok r ∧ Coded cfg T t S r := by
  have ht := inv.not_idle (t := t) (by simp [hP])
  obtain ⟨sc, flag, reserved⟩ : (S.heap.pages f.page).sc = f.sc ∧
      (S.heap.pages f.page).listFlags = .full ∧ Reserved f.sc (S.heap.pages p) := by
    have header := inv.headers.header t
    rw [hP] at header
    exact header
  have lock : .sizeClass f.sc ∈ (S.places t).locks := by
    rw [hP]
    exact List.mem_cons_self
  have lockT : .page f.page ∈ (S.places t).locks := by
    rw [hP]
    simp [Place.locks]
  have lockP : .page p ∈ (S.places t).locks := by
    rw [hP]
    simp [Place.locks]
  have mine : (S.places t).address = some f.address := by rw [hP]; rfl
  have hasT := (inv.relies t).target f (by rw [hP]; rfl)
  have apart : f.page ≠ p := by
    rintro rfl
    have flags := reserved.flag
    rw [flag] at flags
    simp at flags
  obtain ⟨i₀, some⟩ := reserved.some
  obtain ⟨i, found⟩ := UsedBitmap.findUsed_isSome some
  have used := (UsedBitmap.findUsed_least found).1
  obtain ⟨b, kept, has, still⟩ := inv.find_source hP used
  have isAa := inv.isAa b (kept_out kept)
  generalize hg : (S.heap.modifyPage p fun pg =>
    { pg with usedPageBlockBitmap := pg.usedPageBlockBitmap.clear i }) = g
  have run := inv.select_run hP found kept has still apart hg
  generalize hm : Copy.mk p i b ((S.heap.view cfg).start f.target) 0 = m at run
  have source : m.source = ⟨p, i⟩ := by rw [← hm]; rfl
  have aa : m.srcAa = b := by rw [← hm]
  generalize hh : (g.setAa cfg b ((g.view cfg).word b ||| abortCompactFlag)).setAa cfg b
    ((S.heap.view cfg).start f.target) = h' at run
  have selected : SelectedBlock cfg p i b ((S.heap.view cfg).start f.target) S.heap h' :=
    selectedBlock_spec isAa (hg ▸ hh)
  have same := selected.page
  have classes : ∀ q, (h'.pages q).sc = (S.heap.pages q).sc :=
    field_same Page.sc selected.others (by rw [same])
  have entries : ∀ q, (h'.pages q).sourceentries = (S.heap.pages q).sourceentries :=
    field_same Page.sourceentries selected.others (by rw [same])
  have usedIff : ∀ C, (h'.view cfg).used C ↔ (S.heap.view cfg).used C ∧ C ≠ m.source := by
    rw [source]
    exact used_cleared selected.others (by rw [same])
  have headers : HeadersOk cfg T h' (update S.places t (.compactUnlock f m)) := by
    refine inv.headers.step ht (inv.mine lock) (.inl reserved.sc)
      (selected.registered inv.headers.registered) selected.others (.inl (classes p))
      ⟨reserved.listed.2, ?_⟩ (.inl (same ▸ reserved.page i used)) (fun q hq loose => ?_) ?_ ?_
      fun q => ?_
    · rw [same]
      exact reserved.listed.2
    · rw [hP] at loose
      exact absurd (Option.some.inj loose).symm hq
    · rw [← hm]
      exact apart
    · rintro _ _ ⟨⟩
      rw [classes, ← hm]
      exact reserved.sc
    · rw [hP, entries, ← hm]
      rfl
  have owners : Owners cfg (h'.view cfg) S.live (update S.places t (.compactUnlock f m)) := by
    refine inv.owners.select (by rw [hP]; exact ⟨rfl, rfl, rfl⟩) ⟨rfl, rfl, rfl⟩ (inv.dead t _ mine)
      (fun u hu => inv.single u t _ (Place.address_of_keeps hu) mine)
      (inv.not_copied hasT lockT (by rw [hP]; rfl)) hasT (aa ▸ kept) (aa ▸ still)
      (by rw [aa, source]; exact has) (fun eq => apart (congrArg Block.page (eq.trans source)))
      ⟨sc, by rw [← hm]; exact reserved.sc⟩ (by rw [← hm]) (by rw [← hm])
      (fun u f m copying => inv.source_pinned copying) usedIff (funext entries) (funext classes)
      selected.memory (aa ▸ selected.word) (aa ▸ selected.words)
  -- Nobody else relies on the moved object: its class is locked by this thread.
  have foreign : ∀ u d, u ≠ t → (S.places u).settled ≠ .some (b, d) := by
    intro u d hu hs
    obtain ⟨C, hasC, scC⟩ := (inv.relies u).settled b d hs
    have class_ : f.sc = d := by
      rw [← reserved.sc, ← scC, hasC.unique has]
      rfl
    exact hu (inv.exclusive (class_ ▸ (Place.locks_of_settled hs).1) lock)
  refine ⟨(.compactUnlock f m, h'), run, ?_, fun q ne => ?_⟩
  · refine inv.inside headers (inv.owner_same ?_) owners (fun u a d B hu hs hasA usedA => ?_)
      (.none rfl) (fun u a d hu hs copied => ?_) (by rw [hP]; rfl) ?_
    · rw [hP, ← hm]
      rfl
    · refine ⟨classes _, selected.words a ?_⟩
      rintro rfl
      exact foreign u d hu hs
    · obtain ⟨w, g', n, copying, rfl⟩ := copied
      by_cases hw : w = t
      · rw [hw, update_self] at copying
        cases copying
        exact absurd (aa ▸ hs) (foreign u d hu)
      · rw [update_of_ne hw] at copying
        exact ⟨w, g', n, copying, rfl⟩
    · exact selected.valid T _ (kept_out kept) inv.valid
  · have eq : q = p := by
      by_contra hq
      exact ne (by rw [selected.others q hq])
    rw [eq]
    exact lockP

/-- The next byte of a copy, or its end. -/
theorem code_compactCopy (inv : Invariant cfg T S) (hP : S.places t = .compactCopy f m) :
    ∃ r, code cfg t S.heap (.compactCopy f m) = .ok r ∧ Coded cfg T t S r := by
  have ht := inv.not_idle (t := t) (by simp [hP])
  have copying : (S.places t).copying = some (f, m) := by rw [hP]; rfl
  have apart : f.page ≠ m.srcPage := by
    have header := inv.headers.header t
    rw [hP] at header
    exact header
  obtain ⟨kept, ok⟩ := inv.owners.copy t f m copying
  have isAa := inv.isAa _ (kept_out kept)
  have sizes := ok.size
  by_cases more : m.copied < blockSize f.sc
  · generalize hn : Place.compactCopy f { m with copied := m.copied + 1 } = place'
    have start : (S.heap.view cfg).start f.target = blockStart f.page f.index (blockSize f.sc) := by
      rw [View.start, sizes.1]
      rfl
    have startS : (S.heap.view cfg).start m.source =
        blockStart m.srcPage m.srcIndex (blockSize f.sc) := by
      rw [View.start, sizes.2]
      rfl
    have memory : (copyByte f m S.heap).memory = writeByte S.heap.memory
        ((S.heap.view cfg).start f.target + m.copied)
        (S.heap.memory ((S.heap.view cfg).start m.source + m.copied)) := by
      rw [start, startS]
      rfl
    have headers : HeadersOk cfg T (copyByte f m S.heap) (update S.places t place') := by
      refine (inv.headers.congr (sameHeaders_memory S.heap fun x free => ?_)).move ht ?_
        (fun q loose => ?_) (by rw [hP, ← hn]; rfl)
      · rw [← start, ← startS]
        refine if_neg ?_
        rintro rfl
        have page : pageOfBlock _ = f.page := ok.placed.pageOfBlock (Nat.le_add_right _ m.copied)
          (by rw [sizes.1]; omega)
        rw [show _ / pageSize = f.page from page] at free
        exact (inv.headers.used_listed (inv.owners.target_used copying)).1 free
      · rw [← hn]
        exact apart
      · rw [hP] at loose
        cases loose
    have owners : Owners cfg ((copyByte f m S.heap).view cfg) S.live (update S.places t place') :=
      inv.owners.copyByte (by rw [hP]; exact ⟨rfl, rfl, rfl⟩) (by rw [← hn]; exact ⟨rfl, rfl, rfl⟩)
        more (fun u f m copying => inv.source_pinned copying) rfl rfl rfl rfl memory
    refine ⟨(place', copyByte f m S.heap), by rw [code, if_pos more, hn], ?_,
      fun _ ne => absurd rfl ne⟩
    refine inv.inside headers (inv.owner_same (by rw [hP, ← hn]; rfl)) owners
      (fun _ _ _ _ _ _ _ _ => ⟨rfl, rfl⟩) (.none (by rw [← hn]; rfl))
      (fun _ _ _ _ _ => copied_sub fun g n now => ?_) (by rw [hP, ← hn]; rfl) inv.valid
    rw [← hn] at now
    cases now
    exact ⟨f, m, copying, rfl⟩
  · have done : blockSize f.sc ≤ m.copied := Nat.le_of_not_lt more
    generalize hg : S.heap.setAa cfg m.srcAa m.targetAaVal = g
    have word : (g.view cfg).word m.srcAa = m.targetAaVal := by
      rw [← hg, Heap.setAa_word_same _ isAa]
    have words : ∀ b, b ≠ m.srcAa → (g.view cfg).word b = (S.heap.view cfg).word b := fun b ne => by
      rw [← hg, Heap.setAa_word_other _ isAa ne]
    have headers : HeadersOk cfg T g (update S.places t (.compactUnlockTarget f m.srcPage)) := by
      refine (inv.headers.congr (hg ▸ ⟨rfl, rfl, rfl, rfl, fun _ _ => .refl _ _ _⟩)).move ht apart
        (fun q loose => ?_) (by rw [hP]; rfl)
      rw [hP] at loose
      cases loose
    have owners : Owners cfg (g.view cfg) S.live
        (update S.places t (.compactUnlockTarget f m.srcPage)) :=
      inv.owners.finish (by rw [hP]; exact ⟨rfl, rfl, rfl⟩) ⟨rfl, rfl, rfl⟩ done
        (fun u f m copying => inv.source_pinned copying) (by rw [← hg]; rfl) (by rw [← hg]; rfl)
        (by rw [← hg]; rfl) (by rw [← hg]; rfl) word words
    have outS : Out S.live S.places (aaPointer cfg ((m.srcAa - cfg.aaSpace) / 4)) := by
      rw [isAa.pointer]
      exact kept_out kept
    refine ⟨(.compactUnlockTarget f m.srcPage, g), ?_, ?_,
      fun _ ne => absurd (by rw [← hg]; rfl) ne⟩
    · rw [code, if_neg more, S.heap.storeAa_ok _ isAa, hg, ok_bind]
      rfl
    · refine inv.inside headers (inv.owner_same (by rw [hP]; rfl)) owners
        (fun u a d B _ hs _ _ => ⟨by rw [← hg]; rfl, ?_⟩) (.none rfl)
        (fun _ _ _ _ _ => copied_sub fun _ _ now => by cases now) (by rw [hP]; rfl) ?_
      · by_cases eq : a = m.srcAa
        · rw [eq, word, ok.value, ok.word]
        · exact words a eq
      · rw [← hg]
        exact valid_setWord inv.valid outS

/-- The source page loses the entry of the copy. -/
theorem code_compactRelease (inv : Invariant cfg T S) (hP : S.places t = .compactRelease f p) :
    ∃ r, code cfg t S.heap (.compactRelease f p) = .ok r ∧ Coded cfg T t S r := by
  have ht := inv.not_idle (t := t) (by simp [hP])
  have lock : .sizeClass f.sc ∈ (S.places t).locks := by
    rw [hP]
    exact List.mem_singleton_self _
  have pinned : (S.places t).pinned = some (p, f.sc) := by rw [hP]; rfl
  have sc := inv.headers.pinned t p f.sc pinned
  have entries := inv.headers.pinned_pos pinned
  have page : PageOk (S.heap.pages p) :=
    inv.headers.page_of_class (sc ▸ inv.mine lock) (by simp [hP, Place.loosens])
  have listed := (inv.headers.pinned_listed pinned).2
  have heap : InHeap cfg p := (inv.headers.range _).mp listed
  obtain ⟨h', run, step, _, _⟩ := releaseEntry_spec t inv.headers.registered heap sc entries
    (page.source_flag entries)
  refine ⟨(.freeClear f.address f.sc, h'), by simp only [code, run, ok_bind]; rfl, ?_⟩
  refine inv.regroup ht lock (.inl sc) step.registered step.only.pages (.inl step.only.sc)
    ⟨listed, ?_⟩ (.inl ?_) (fun q hq loose => ?_) trivial (fun _ _ pin => by cases pin)
    (fun q => ?_) ?_ step.only.memory step.only.addresses (by rw [hP]; rfl)
    (by rw [hP]; exact ⟨rfl, rfl, rfl, rfl⟩) (.none rfl)
  · rw [step.page]
    dsimp only
    split
    · split <;> simp
    · exact listed
  · rw [step.page]
    exact page.release entries
  · rw [hP] at loose
    cases loose
  · rw [hP]
    by_cases hq : q = p
    · subst hq
      simp only [step.page, Page.release, Place.entries, Place.pinned, Option.map, if_true,
        reduceCtorEq, if_false]
      omega
    · have other : ¬ p = q := fun eq => hq eq.symm
      simp [step.only.pages q hq, Place.entries, Place.pinned, other]
  · rw [step.page]
    rfl

/-- The freed address goes back to the pool. -/
theorem code_freeClear (inv : Invariant cfg T S) (hP : S.places t = .freeClear a c) :
    Succeeds π cfg T (code cfg t S.heap (.freeClear a c)) (Coded cfg T t S) := by
  have ht := inv.not_idle (t := t) (by simp [hP])
  have mine : (S.places t).address = some a := by rw [hP]; rfl
  have isAa := inv.isAa a (.inr ⟨t, mine⟩)
  have notKept : ¬ Kept S.live S.places a := by
    rintro (alive | ⟨u, hu⟩)
    · exact alive (inv.dead t a mine)
    · rw [inv.single u t a (Place.address_of_keeps hu) mine, hP] at hu
      cases hu
  have out' : ∀ b, Out S.live (update S.places t (.freeUnlock c)) b ↔
      Out S.live S.places b ∧ b ≠ a := by
    intro b
    by_cases eq : b = a
    · subst eq
      simp only [ne_eq, not_true_eq_false, and_false, iff_false, out_after]
      rintro ((alive | here) | ⟨u, hu, there⟩)
      · exact alive (inv.dead t b mine)
      · cases here
      · exact hu (inv.single u t b there mine)
    · simp only [ne_eq, eq, not_false_eq_true, and_true]
      refine out_congr ?_
      rw [mine]
      simp [Place.address, Ne.symm eq]
  refine (clearAbstractAddress_spec inv.valid ht (isAa.pointer.symm ▸ .inr ⟨t, mine⟩)).bind ?_
  rintro h' ⟨σ, rfl, valid, words⟩
  refine .ok ⟨?_, fun _ ne => absurd rfl ne⟩
  have word : ∀ b, Out S.live S.places b → b ≠ a →
      (({ S.heap with addresses := σ } : Heap π).view cfg).word b = (S.heap.view cfg).word b := by
    intro b out ne
    have isAaB := inv.isAa b out
    exact aaWord_congr words isAa isAaB (isAaB.pointer.symm ▸ out) ne rfl
  have wordKept : ∀ b, Kept S.live S.places b →
      (({ S.heap with addresses := σ } : Heap π).view cfg).word b = (S.heap.view cfg).word b :=
    fun b kept => word b (kept_out kept) fun eq => notKept (eq ▸ kept)
  have headers : HeadersOk cfg T ({ S.heap with addresses := σ } : Heap π)
      (update S.places t (.freeUnlock c)) := by
    have headers : HeadersOk cfg T ({ S.heap with addresses := σ } : Heap π) S.places :=
      inv.headers.congr ⟨rfl, rfl, rfl, rfl, fun _ _ => .refl _ _ _⟩
    refine headers.move ht trivial (fun q loose => ?_) (by rw [hP]; rfl)
    rw [hP] at loose
    cases loose
  have owners : Owners cfg (({ S.heap with addresses := σ } : Heap π).view cfg) S.live
      (update S.places t (.freeUnlock c)) :=
    inv.owners.congr ⟨fun _ _ => rfl, fun _ _ _ _ => .refl _ _ _⟩ (fun _ => Iff.rfl)
      (fun b => Owners.kept_update rfl (by rw [hP]; rfl))
      (update_same Place.taken (by rw [hP]; rfl)) (update_same Place.copying (by rw [hP]; rfl))
      wordKept (fun u f m copying => .inr (inv.source_pinned copying)) fun _ _ => id
  refine inv.advance rfl headers (inv.owner_same (by rw [hP]; rfl)) owners
    (fun u b d B _ hs _ _ => ⟨rfl, wordKept b (.inr ⟨u, (Place.locks_of_settled hs).2.2⟩)⟩)
    (.none rfl) (fun _ b _ _ _ => (copied_update (by rw [hP]; rfl) b).mp)
    (fun _ eq => by cases eq) (fun u b _ hu => inv.dead u b hu) (valid_congr valid fun id => ?_)
    fun b out => inv.isAa b ((out' b).mp out).1
  rw [out']
  refine and_congr_right fun _ => not_congr ⟨fun eq => ?_, fun eq => ?_⟩
  · rw [← eq, aaPointer_id]
  · rw [eq, isAa.pointer]

end Invariant

end
end LockPage
end CompactFit
