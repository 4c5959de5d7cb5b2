import CompactFit.PagePoolInit

/-!
The part of `cf_init` that carves the pages out of a mapping. It computes with 32-bit words:
the length of the mapping, the loss by the alignment and the number of pages can all wrap.
The signed differences of the source are the same words.
-/

namespace CompactFit
open Function ByteMemory LinkedChain

def pageSizeWord : BitVec 32 := 16384#32

def pageMask : BitVec 32 := pageSizeWord - 1#32

/-- The result of a successful `mmap` of `length` bytes: it starts on a machine page behind
address 0 and lies in the address space. -/
structure Mapping (length : BitVec 32) where
  base : BitVec 32
  base_page : base.toNat % 4096 = 0
  base_pos : 0 < base.toNat
  length_pos : 0 < length.toNat
  base_end : base.toNat + length.toNat ≤ 4294967296

def Mapping.Has {length : BitVec 32} (m : Mapping length) (x : Nat) : Prop :=
  m.base.toNat ≤ x ∧ x < m.base.toNat + length.toNat

/-- The local variable `alignment` of `cf_init`. -/
def alignment (base : BitVec 32) : BitVec 32 :=
  if base &&& pageMask ≠ 0#32 then
    let tmp := base &&& (0xffffffff#32 ^^^ pageMask)
    pageSizeWord + tmp - base
  else 0#32

/-- `pages` after the alignment step. -/
def alignPages (base : BitVec 32) : BitVec 32 :=
  if base &&& pageMask ≠ 0#32 then (base &&& (0xffffffff#32 ^^^ pageMask)) + pageSizeWord
  else base

def countPages (heapSize nrLocalPages base : BitVec 32) : BitVec 32 :=
  (heapSize - alignment base) / pageSizeWord / nrLocalPages * nrLocalPages

section
variable {π : Type}

/-- The loop of `init_free_pages_list` over the words of its pointers. -/
def initFreePages (nrLocalPages : Nat) : Nat → BitVec 32 → Nat → BitVec 32 → Heap π → Heap π
  | 0, _, _, _, h => h
  | n + 1, p, j, mp, h =>
      let h := h.modifyPage (pageOfBlock p.toNat) fun pg => { pg with listFlags := .free }
      let (h, mp, j) :=
        if j < nrLocalPages then (h.writeMemory (p + 4#32).toNat mp.toNat, p, j + 1)
        else (h, mp, j)
      if j = nrLocalPages then
        initFreePages nrLocalPages n (p + pageSizeWord) 0 0#32 (pagePut mp.toNat mp.toNat h)
      else initFreePages nrLocalPages n (p + pageSizeWord) j mp h

/-- `cf_init` from the alignment step to the end of `init_free_pages_list`. -/
def carvePages (heapSize nrLocalPages base : BitVec 32) (h : Heap π) : Heap π :=
  initFreePages nrLocalPages.toNat (countPages heapSize nrLocalPages base).toNat (alignPages base) 0
    0#32 { h with freePageHead := 0 }

/-- The heap before `init_free_pages_list`: zero-filled mappings and empty size classes. -/
def blankHeap (addresses : π) : Heap π :=
  { pages := fun _ =>
      { nrUsedPageBlocks := 0, listFlags := .none, sourceentries := 0, sc := 0,
        usedPageBlockBitmap := .empty }
    memory := fun _ => 0
    classes := fun _ =>
      { lists := fun _ => [], nfullentries := 0, maxNfullentries := 0, sourceentries := 0,
        maxSourceentries := 0, nrPages := 0, maxNrPages := 0 }
    freePageHead := 0
    threads := fun _ =>
      { pagesCount := 0, pages := 0, pbucketsCount := 0, pbuckets := 0, lastPbucket := 0 }
    addresses := addresses }

theorem initHeap_eq (cfg : Config) (addresses : π) :
    initHeap cfg addresses = initFreePagesList cfg (blankHeap addresses) := rfl

end

/-! ### The arithmetic -/

section Words
variable {base : BitVec 32}

/-- The bytes from `base` to the next page boundary. -/
def padding (base : Nat) : Nat := (pageSize - base % pageSize) % pageSize

theorem and_pageMask (base : BitVec 32) : (base &&& pageMask).toNat = base.toNat % pageSize := by
  rw [BitVec.toNat_and]
  exact Nat.and_two_pow_sub_one_eq_mod _ 14

theorem and_pageMask_not (base : BitVec 32) :
    (base &&& (0xffffffff#32 ^^^ pageMask)).toNat = base.toNat - base.toNat % pageSize := by
  have split : base &&& (0xffffffff#32 ^^^ pageMask) = base >>> 14 <<< 14 := by
    refine BitVec.eq_of_getLsbD_eq fun i hi => ?_
    have mask : (0xffffffff#32 ^^^ pageMask).getLsbD i = decide (14 ≤ i) := by
      revert i
      decide
    rw [BitVec.getLsbD_and, mask, BitVec.getLsbD_shiftLeft, BitVec.getLsbD_ushiftRight]
    by_cases low : 14 ≤ i
    · simp [low, hi, Nat.not_lt.mpr low]
    · simp [low, Nat.lt_of_not_le low]
  have small := base.isLt
  rw [split, BitVec.toNat_shiftLeft, BitVec.toNat_ushiftRight, Nat.shiftLeft_eq,
    Nat.shiftRight_eq_div_pow, pageSize]
  omega

theorem toNat_alignment (base : BitVec 32) : (alignment base).toNat = padding base.toNat := by
  have small := base.isLt
  have low := and_pageMask base
  have high := and_pageMask_not base
  simp only [alignment, padding]
  split
  next ne =>
    have rest : base.toNat % pageSize ≠ 0 := by
      intro zero
      exact ne (BitVec.eq_of_toNat_eq (low.trans zero))
    rw [BitVec.toNat_sub, BitVec.toNat_add, high]
    simp only [pageSizeWord, pageSize, BitVec.toNat_ofNat] at rest ⊢
    omega
  next eq =>
    have none : base.toNat % pageSize = 0 := by
      rw [← low, not_not.mp eq]
      rfl
    rw [none]
    rfl

theorem toNat_alignPages (base : BitVec 32) :
    (alignPages base).toNat = (base.toNat + padding base.toNat) % 4294967296 := by
  have small := base.isLt
  have low := and_pageMask base
  have high := and_pageMask_not base
  simp only [alignPages, padding]
  split
  next ne =>
    have rest : base.toNat % pageSize ≠ 0 := by
      intro zero
      exact ne (BitVec.eq_of_toNat_eq (low.trans zero))
    rw [BitVec.toNat_add, high]
    simp only [pageSizeWord, pageSize, BitVec.toNat_ofNat] at rest ⊢
    omega
  next eq =>
    have none : base.toNat % pageSize = 0 := by
      rw [← low, not_not.mp eq]
      rfl
    rw [none]
    simp only [pageSize]
    omega

theorem padding_dvd (base : Nat) : pageSize ∣ base + padding base := by
  simp only [padding, pageSize]
  omega

theorem padding_lt (base : Nat) : padding base < pageSize := Nat.mod_lt _ (by decide)

theorem alignPages_dvd (base : BitVec 32) : pageSize ∣ (alignPages base).toNat := by
  rw [toNat_alignPages]
  exact (Nat.dvd_mod_iff (by decide)).mpr (padding_dvd _)

theorem toNat_countPages (heapSize nrLocalPages base : BitVec 32) :
    (countPages heapSize nrLocalPages base).toNat =
      (heapSize.toNat + (4294967296 - padding base.toNat)) % 4294967296 / pageSize /
        nrLocalPages.toNat * nrLocalPages.toNat := by
  have le := padding_lt base.toNat
  have diff : (heapSize - alignment base).toNat =
      (heapSize.toNat + (4294967296 - padding base.toNat)) % 4294967296 := by
    rw [BitVec.toNat_sub, toNat_alignment, Nat.add_comm]
  rw [countPages, BitVec.toNat_mul, BitVec.toNat_udiv, BitVec.toNat_udiv, diff]
  refine Nat.mod_eq_of_lt (Nat.lt_of_le_of_lt (Nat.div_mul_le_self _ _) ?_)
  exact Nat.lt_of_le_of_lt (Nat.div_le_self _ _) (Nat.mod_lt _ (by decide))

end Words

/-! ### The pages -/

section Pages
variable {π : Type}

theorem pageAddress_succ (p : Nat) : pageAddress (p + 1) = pageAddress p + 16384 := by
  rw [pageAddress, Nat.add_mul, Nat.one_mul]
  rfl

theorem pageAddress_mono {p q : Nat} (le : p ≤ q) : pageAddress p ≤ pageAddress q :=
  Nat.mul_le_mul_right _ le

theorem ofNat_pageSize (a : Nat) : BitVec.ofNat 32 a + pageSizeWord = BitVec.ofNat 32 (a + 16384) :=
  (BitVec.ofNat_add a 16384).symm

/-- The loop writes to its own pages only. -/
theorem initFreePagesLoop_frame {cfg : Config} (n : Nat) {p j mp : Nat} {h : Heap π}
    (open_lt : j < cfg.nrLocalPages) :
    (∀ x, x < pageAddress p ∨ pageAddress (p + n) ≤ x →
      (initFreePagesLoop cfg n p j mp h).memory x = h.memory x) ∧
    ∀ q, q < p ∨ p + n ≤ q → (initFreePagesLoop cfg n p j mp h).pages q = h.pages q := by
  induction n generalizing p j mp h with
  | zero => exact ⟨fun _ _ => rfl, fun _ _ => rfl⟩
  | succ n ih =>
      simp only [initFreePagesLoop, open_lt, if_true]
      have next := pageAddress_succ p
      have last : pageAddress (p + 1) ≤ pageAddress (p + 1 + n) := pageAddress_mono (by omega)
      have link : ∀ x, x < pageAddress p ∨ pageAddress (p + 1) ≤ x →
          writeWord h.memory (pageAddress p + 4) mp x = h.memory x := by
        intro x outside
        exact writeWord_of_outside _ (by omega)
      rw [show p + (n + 1) = p + 1 + n by omega]
      split
      next full =>
        obtain ⟨memory, pages⟩ := @ih (p + 1) 0 0 (pagePut (pageAddress p) (pageAddress p)
          ((h.modifyPage p fun pg => { pg with listFlags := .free }).writeMemory
            (pageAddress p + 4) mp)) cfg.nrLocalPages_pos
        refine ⟨fun x outside => ?_, fun q outside => ?_⟩
        · rw [memory x (by omega)]
          exact Eq.trans (writeWord_of_outside _ (by omega)) (link x (by omega))
        · rw [pages q (by omega)]
          have ne : q ≠ p := by omega
          simp only [pagePut, Heap.writeMemory, Heap.modifyPage_other _ _ ne]
      next notFull =>
        obtain ⟨memory, pages⟩ := @ih (p + 1) (j + 1) (pageAddress p)
          ((h.modifyPage p fun pg => { pg with listFlags := .free }).writeMemory
            (pageAddress p + 4) mp) (by omega)
        refine ⟨fun x outside => ?_, fun q outside => ?_⟩
        · rw [memory x (by omega)]
          exact link x (by omega)
        · rw [pages q (by omega)]
          have ne : q ≠ p := by omega
          simp only [Heap.writeMemory, Heap.modifyPage_other _ _ ne]

/-- Below the end of the address space the words are the page addresses. -/
theorem initFreePages_eq {cfg : Config} (n : Nat) {p j : Nat} {mp : BitVec 32} {h : Heap π}
    (fits : (p + n) * pageSize ≤ 4294967296) (open_lt : j < cfg.nrLocalPages) :
    initFreePages cfg.nrLocalPages n (BitVec.ofNat 32 (pageAddress p)) j mp h =
      initFreePagesLoop cfg n p j mp.toNat h := by
  induction n generalizing p j mp h with
  | zero => rfl
  | succ n ih =>
      have succ := pageAddress_succ p
      have small : pageAddress (p + 1) ≤ 4294967296 := (pageAddress_mono (by omega)).trans fits
      have word : (BitVec.ofNat 32 (pageAddress p)).toNat = pageAddress p := by
        rw [BitVec.toNat_ofNat]
        exact Nat.mod_eq_of_lt (by omega)
      have local_ : (BitVec.ofNat 32 (pageAddress p) + 4#32).toNat = pageAddress p + 4 := by
        rw [BitVec.toNat_add, word]
        exact Nat.mod_eq_of_lt (by rw [BitVec.toNat_ofNat]; omega)
      have next : BitVec.ofNat 32 (pageAddress p) + pageSizeWord =
          BitVec.ofNat 32 (pageAddress (p + 1)) := by
        rw [succ]
        exact ofNat_pageSize _
      have fits' : (p + 1 + n) * pageSize ≤ 4294967296 :=
        (Nat.mul_le_mul_right _ (by omega)).trans fits
      simp only [initFreePages, initFreePagesLoop, open_lt, if_true, word, local_, next,
        pageOfBlock_pageAddress]
      split
      next full => exact ih fits' cfg.nrLocalPages_pos
      next notFull =>
        rw [ih fits' (by omega), word]

/-- The global stack of `h` holds the buckets `bs`, and the `count` pages from number `first` on
are in exactly one bucket each. -/
structure Bucketed (nrLocalPages first count : Nat) (h : Heap π) (bs : List (List Nat)) : Prop where
  shared : Chain (nextLink h.memory) h.freePageHead (bs.map bucketAddress) 0
  bucket : ∀ b, b ∈ bs → b.length = nrLocalPages ∧
    Chain (localLink h.memory) (bucketAddress b) (b.map pageAddress) 0
  pages : ∀ q, bs.flatten.count q = if first ≤ q ∧ q < first + count then 1 else 0

end Pages

/-- The pages are carved inside the mapping, and `init_free_pages_list` works on mapped memory
only and puts each page in one bucket. -/
structure CarvedInside (heapSize nrLocalPages : BitVec 32)
    (m : Mapping (heapSize + pageSizeWord)) : Prop where
  aligned : pageSize ∣ (alignPages m.base).toNat
  above : m.base.toNat ≤ (alignPages m.base).toNat
  whole : nrLocalPages.toNat ∣ (countPages heapSize nrLocalPages m.base).toNat
  inside : ∀ i, i < (countPages heapSize nrLocalPages m.base).toNat → ∀ x, x < pageSize →
    m.Has ((alignPages m.base).toNat + i * pageSize + x)
  memory : ∀ (π : Type) (h : Heap π) (x : Nat), ¬ m.Has x →
    (carvePages heapSize nrLocalPages m.base h).memory x = h.memory x
  headers : ∀ (π : Type) (h : Heap π) (q : Nat),
    (carvePages heapSize nrLocalPages m.base h).pages q ≠ h.pages q →
    ∀ x, x < pageSize → m.Has (pageAddress q + x)
  buckets : ∀ (π : Type) (addresses : π), ∃ bs, Bucketed nrLocalPages.toNat
    ((alignPages m.base).toNat / pageSize) (countPages heapSize nrLocalPages m.base).toNat
    (carvePages heapSize nrLocalPages m.base (blankHeap addresses)) bs

/-- Either the loss by the alignment is below `heap_size` and the length of the mapping does not
wrap, or no bucket of pages fits into the words that are left and the alignment does not wrap. -/
def Carvable (heapSize nrLocalPages base : BitVec 32) : Prop :=
  (padding base.toNat ≤ heapSize.toNat ∧ heapSize.toNat + pageSize < 4294967296) ∨
  ((heapSize.toNat + (4294967296 - padding base.toNat)) % 4294967296 <
    nrLocalPages.toNat * pageSize ∧ base.toNat + padding base.toNat < 4294967296)

section Carve
variable {heapSize nrLocalPages : BitVec 32} {m : Mapping (heapSize + pageSizeWord)}

/-- Only the fields that the page pool looks at matter. -/
private def carvedConfig (first count nrLocalPages : Nat) (pos : 0 < first)
    (fits : (first + count) * pageSize ≤ 4294967296) (local_pos : 0 < nrLocalPages)
    (whole : nrLocalPages ∣ count) : Config where
  nrAaBuckets := 1
  nrLocalAas := 1
  nrLocalAbuckets := 1
  nrLocalFreeAbuckets := 1
  nrAaBuckets_pos := Nat.one_pos
  nrLocalAas_pos := Nat.one_pos
  nrLocalAbuckets_pos := Nat.one_pos
  nrLocalFreeAbuckets_pos := Nat.one_pos
  partialCompactionBound := 1
  incrementalMemcpy := 0
  memcpyMultiplicator := 1
  firstPage := first
  nrPages := count
  nrLocalPages := nrLocalPages
  nrLocalPbuckets := 1
  aaSpace := 1
  past := 0
  partialCompactionBound_int := partialCompactionBound_one
  incrementalMemcpy_int := incrementalMemcpy_off
  memcpyMultiplicator_pos := Nat.one_pos
  nrLocalPages_pos := local_pos
  nrLocalPbuckets_pos := Nat.one_pos
  firstPage_pos := pos
  heap_end := fits
  nrPages_buckets := whole
  aaSpace_pos := Nat.one_pos
  aaSpace_end := by decide

theorem countPages_dvd (heapSize nrLocalPages base : BitVec 32) :
    nrLocalPages.toNat ∣ (countPages heapSize nrLocalPages base).toNat := by
  rw [toNat_countPages]
  exact Nat.dvd_mul_left _ _

/-- What is left is about the end of the last page. -/
theorem carvedInside_of_room (local_pos : 0 < nrLocalPages.toNat)
    (above : m.base.toNat ≤ (alignPages m.base).toNat)
    (room : (countPages heapSize nrLocalPages m.base).toNat = 0 ∨
      (alignPages m.base).toNat + (countPages heapSize nrLocalPages m.base).toNat * pageSize ≤
        m.base.toNat + (heapSize + pageSizeWord).toNat) :
    CarvedInside heapSize nrLocalPages m := by
  have whole := countPages_dvd heapSize nrLocalPages m.base
  generalize hn : (countPages heapSize nrLocalPages m.base).toNat = n at room whole
  obtain ⟨first, start⟩ := alignPages_dvd m.base
  rw [Nat.mul_comm] at start
  change _ = pageAddress first at start
  have base_pos := m.base_pos
  have base_end := m.base_end
  have small := (alignPages m.base).isLt
  have last : pageAddress (first + n) = pageAddress first + n * pageSize := Nat.add_mul _ _ _
  have pos : 0 < first := by
    refine Nat.pos_of_ne_zero fun zero => ?_
    subst zero
    have : pageAddress 0 = 0 := rfl
    omega
  have fits : (first + n) * pageSize ≤ 4294967296 := by
    change pageAddress (first + n) ≤ _
    rcases room with rfl | room
    · rw [Nat.add_zero]; omega
    · omega
  have within : ∀ x, pageAddress first ≤ x → x < pageAddress (first + n) → m.Has x := by
    intro x lo hi
    rcases room with rfl | room
    · rw [Nat.add_zero] at hi; omega
    · exact ⟨by omega, by omega⟩
  let cfg := carvedConfig first n nrLocalPages.toNat pos fits local_pos whole
  have run : ∀ (π : Type) (h : Heap π),
      carvePages heapSize nrLocalPages m.base h = initFreePagesList cfg h := by
    intro π h
    have word : alignPages m.base = BitVec.ofNat 32 (pageAddress first) := by
      rw [← start, BitVec.ofNat_toNat, BitVec.setWidth_eq]
    rw [carvePages, hn, word]
    exact @initFreePages_eq π cfg n first 0 0#32 { h with freePageHead := 0 } fits local_pos
  have frame : ∀ (π : Type) (h : Heap π), _ := fun π h =>
    @initFreePagesLoop_frame π cfg n first 0 0 { h with freePageHead := 0 } local_pos
  refine ⟨alignPages_dvd m.base, above, hn ▸ whole, ?_, ?_, ?_, ?_⟩
  · intro i hi x hx
    rw [hn] at hi
    have page := pageAddress_mono (show first + i + 1 ≤ first + n by omega)
    have succ := pageAddress_succ (first + i)
    have here : pageAddress (first + i) = pageAddress first + i * pageSize := Nat.add_mul _ _ _
    have data : pageSize = 16384 := rfl
    rw [start]
    exact within _ (by omega) (by omega)
  · intro π h x unmapped
    rw [run]
    refine (frame π h).1 x ?_
    by_contra inside
    exact unmapped (within x (by omega) (by omega))
  · intro π h q changed x hx
    rw [run] at changed
    have here : first ≤ q ∧ q < first + n := by
      by_contra outside
      exact changed ((frame π h).2 q (by omega))
    have page := pageAddress_mono (show q + 1 ≤ first + n by omega)
    have lower := pageAddress_mono here.1
    have succ := pageAddress_succ q
    have data : pageSize = 16384 := rfl
    exact within _ (by omega) (by omega)
  · intro π addresses
    obtain ⟨bs, ok, order⟩ := initHeap_pool cfg addresses
    rw [initHeap_eq] at ok
    rw [run, hn, start, pageAddress, Nat.mul_div_cancel _ (by decide)]
    refine ⟨bs, ok.rep.shared, fun b mem => ⟨?_, ok.rep.bucket b (.inl mem)⟩, fun q => ?_⟩
    · exact ok.wellFormed.shared_length b mem
    · rw [order, List.count_reverse, List.Nodup.count List.nodup_range']
      simp only [List.mem_range'_1]
      rfl

end Carve

/-- `cf_init` carves the heap inside its mapping exactly if the alignment loss and the length do
not wrap, or no page is carved. -/
theorem carvedInside_iff (heapSize nrLocalPages : BitVec 32) (heapSize_pos : 0 < heapSize.toNat)
    (nrLocalPages_pos : 0 < nrLocalPages.toInt) (m : Mapping (heapSize + pageSizeWord)) :
    CarvedInside heapSize nrLocalPages m ↔ Carvable heapSize nrLocalPages m.base := by
  have local_pos : 0 < nrLocalPages.toNat := by
    refine Nat.pos_of_ne_zero fun zero => ?_
    have none : nrLocalPages = 0#32 := BitVec.eq_of_toNat_eq zero
    rw [none] at nrLocalPages_pos
    exact absurd nrLocalPages_pos (by decide)
  have data : pageSize = 16384 := rfl
  have heapSize_lt := heapSize.isLt
  have base_end := m.base_end
  have pad_lt := padding_lt m.base.toNat
  have start := toNat_alignPages m.base
  have count := toNat_countPages heapSize nrLocalPages m.base
  have length : (heapSize + pageSizeWord).toNat = (heapSize.toNat + 16384) % 4294967296 := by
    rw [BitVec.toNat_add]
    rfl
  generalize hx : (heapSize.toNat + (4294967296 - padding m.base.toNat)) % 4294967296 = x at count
  constructor
  · intro carved
    have above := carved.above
    rw [Carvable, hx]
    by_contra not
    -- a first page starts `padding` bytes behind the base and does not fit
    have some : 0 < (countPages heapSize nrLocalPages m.base).toNat := by
      rw [count]
      have whole : nrLocalPages.toNat * pageSize ≤ x := by omega
      have one : nrLocalPages.toNat ≤ x / pageSize :=
        (Nat.le_div_iff_mul_le (by decide)).mpr whole
      exact Nat.mul_pos (Nat.div_pos one local_pos) local_pos
    obtain ⟨_, last⟩ := carved.inside 0 some (pageSize - 1) (by decide)
    omega
  · rintro (⟨loss, fits⟩ | ⟨few, fits⟩)
    · have start : (alignPages m.base).toNat = m.base.toNat + padding m.base.toNat := by omega
      refine carvedInside_of_room local_pos (by omega) (.inr ?_)
      have pages : (countPages heapSize nrLocalPages m.base).toNat ≤ x / pageSize := by
        rw [count]
        exact Nat.div_mul_le_self _ _
      have bytes := (Nat.mul_le_mul_right pageSize pages).trans (Nat.div_mul_le_self _ _)
      omega
    · refine carvedInside_of_room local_pos (by omega) (.inl ?_)
      rw [hx] at few
      rw [count, Nat.div_eq_of_lt (Nat.div_lt_of_lt_mul (by rwa [Nat.mul_comm])), Nat.zero_mul]

/-- 200000 bytes at a base that is one machine page behind a page boundary. -/
def misalignedMapping : Mapping (200000#32 + pageSizeWord) where
  base := 0xb7401000#32
  base_page := by decide
  base_pos := by decide
  length_pos := by decide
  base_end := by decide

theorem carvedInside_misaligned : CarvedInside 200000#32 1#32 misalignedMapping :=
  (carvedInside_iff 200000#32 1#32 (by decide) (by decide) misalignedMapping).mpr
    (.inl (by decide))

/-- A heap of one machine page at the same base. -/
def smallMapping : Mapping (4096#32 + pageSizeWord) where
  base := 0xb7401000#32
  base_page := by decide
  base_pos := by decide
  length_pos := by decide
  base_end := by decide

/-- The alignment takes 12288 bytes, and `heap_size - alignment` wraps. -/
theorem carved_outside : (countPages 4096#32 1#32 smallMapping.base).toNat = 262143 ∧
    ¬ CarvedInside 4096#32 1#32 smallMapping := by
  refine ⟨by decide, fun carved => ?_⟩
  obtain ⟨_, last⟩ := carved.inside 1 (by decide) 0 (by decide)
  exact absurd last (by decide)

end CompactFit
