import CompactFit.HeapCarving
import CompactFit.PageSteps
import Mathlib.Order.Bounds.Defs

/-!
Runs of the operations on the blocks of one page. Blocks are taken by `get_free_page_block`
and given up by `page_clear_used_bit`, which leaves the counter of the page alone, or by
`free_used_page_block`. The index below the capacity comes from two facts only: the least
unused index is taken, and it is taken while there is room.
-/

namespace CompactFit

section
variable {π : Type}

def pageClearUsedBit (p index : Nat) (h : Heap π) : Heap π :=
  h.modifyPage p fun pg =>
    { pg with usedPageBlockBitmap := pg.usedPageBlockBitmap.clear index }

def findUsedPageBlock (p : Nat) (h : Heap π) : Option Nat :=
  (h.pages p).usedPageBlockBitmap.findUsed

def Heap.usedBlocks (p : Nat) (h : Heap π) : Finset Nat :=
  (h.pages p).usedPageBlockBitmap.usedBlocks

def Heap.ZeroBitmap (p : Nat) (h : Heap π) : Prop :=
  ∀ w, w < 34 → (h.pages p).usedPageBlockBitmap.words w = 0#32

inductive BlockCall where
  | getFreePageBlock
  | pageClearUsedBit (index : Nat)
  | freeUsedPageBlock (index : Nat)

/-- Blocks are taken while fewer than `cap` are used, and only used blocks are given up. -/
def BlockCall.Allowed (cap p : Nat) (h : Heap π) : BlockCall → Prop
  | getFreePageBlock => (h.usedBlocks p).card < cap
  | pageClearUsedBit index | freeUsedPageBlock index => index ∈ h.usedBlocks p

def BlockCall.perform (p : Nat) (h : Heap π) : BlockCall → Except Fault (Heap π)
  | getFreePageBlock => do
      let (_, h) ← CompactFit.getFreePageBlock p h
      return h
  | pageClearUsedBit index => .ok (CompactFit.pageClearUsedBit p index h)
  | freeUsedPageBlock index => CompactFit.freeUsedPageBlock p index h

inductive BlockRun (cap p : Nat) (h₀ : Heap π) : Heap π → Prop where
  | start : BlockRun cap p h₀ h₀
  | step {h h' : Heap π} (call : BlockCall) : BlockRun cap p h₀ h → call.Allowed cap p h →
      call.perform p h = .ok h' → BlockRun cap p h₀ h'

variable {cap p i : Nat} {h h' : Heap π}

theorem mem_usedBlocks_iff :
    i ∈ h.usedBlocks p ↔ (h.pages p).usedPageBlockBitmap.Used i :=
  UsedBitmap.mem_usedBlocks

/-- The bitmap is all zero exactly when no block is used. -/
theorem zeroBitmap_iff : h.ZeroBitmap p ↔ h.usedBlocks p = ∅ := by
  constructor
  · intro zero
    refine Finset.eq_empty_of_forall_notMem fun i used => ?_
    obtain ⟨small, bit⟩ := mem_usedBlocks_iff.mp used
    rw [zero (i / 32 + 2) (by omega)] at bit
    simp at bit
  · intro empty w hw
    refine UsedBitmap.words_of_unused (fun i used => ?_) hw
    have mem := mem_usedBlocks_iff.mpr used
    rw [empty] at mem
    exact absurd mem (Finset.notMem_empty i)

@[simp] theorem usedBlocks_clearUsedBit (p index : Nat) (h : Heap π) :
    (pageClearUsedBit p index h).usedBlocks p = (h.usedBlocks p).erase index := by
  simp [Heap.usedBlocks, pageClearUsedBit]

/-- What the page looks like between two calls: the used blocks lie below `cap`, and the
counter is not below their number. -/
structure BlocksOk (cap p : Nat) (h : Heap π) : Prop where
  inside : ∀ i, i ∈ h.usedBlocks p → i < cap
  counted : (h.usedBlocks p).card ≤ (h.pages p).nrUsedPageBlocks

theorem BlocksOk.start (zero : h.ZeroBitmap p) : BlocksOk cap p h := by
  have none := zeroBitmap_iff.mp zero
  refine ⟨fun i used => ?_, ?_⟩
  · rw [none] at used
    exact absurd used (Finset.notMem_empty i)
  · rw [none, Finset.card_empty]
    exact Nat.zero_le _

/-- `get_free_page_block` takes the least unused block, and there is one below `cap`. -/
theorem BlocksOk.take (ok : BlocksOk cap p h) (cap_le : cap ≤ 1012)
    (room : (h.usedBlocks p).card < cap) :
    ∃ i h', getFreePageBlock p h = .ok (i, h') ∧ i < cap ∧ IsLeast {j | j ∉ h.usedBlocks p} i ∧
      h'.usedBlocks p = insert i (h.usedBlocks p) ∧ BlocksOk cap p h' := by
  obtain ⟨i, run, i1024, below, unused, least⟩ := getFreePageBlock_least cap_le room
  have used : (h.modifyPage p (Page.take i)).usedBlocks p = insert i (h.usedBlocks p) := by
    simp only [Heap.usedBlocks, Heap.modifyPage_same, Page.take,
      UsedBitmap.usedBlocks_mark _ i1024]
  refine ⟨i, _, run, below, ⟨?_, fun k hk => ?_⟩, used, ?_, ?_⟩
  · exact fun mem => unused (mem_usedBlocks_iff.mp mem)
  · by_contra lt
    exact hk (mem_usedBlocks_iff.mpr (least k (Nat.lt_of_not_le lt)))
  · intro k hk
    rw [used, Finset.mem_insert] at hk
    rcases hk with rfl | hk
    · exact below
    · exact ok.inside k hk
  · rw [used, Heap.modifyPage_same]
    have := Finset.card_insert_le i (h.usedBlocks p)
    have := ok.counted
    simp only [Page.take]
    omega

theorem BlocksOk.clear (ok : BlocksOk cap p h) (index : Nat) :
    BlocksOk cap p (pageClearUsedBit p index h) := by
  refine ⟨fun i used => ?_, ?_⟩
  · rw [usedBlocks_clearUsedBit] at used
    exact ok.inside i (Finset.mem_of_mem_erase used)
  · rw [usedBlocks_clearUsedBit]
    have := Finset.card_erase_le (s := h.usedBlocks p) (a := index)
    have := ok.counted
    simp only [pageClearUsedBit, Heap.modifyPage_same]
    omega

/-- The assertion of `free_used_page_block` holds for a used block. -/
theorem BlocksOk.free (ok : BlocksOk cap p h) (used : i ∈ h.usedBlocks p) :
    ∃ h', freeUsedPageBlock p i h = .ok h' ∧ h'.usedBlocks p = (h.usedBlocks p).erase i ∧
      BlocksOk cap p h' := by
  have some : 0 < (h.usedBlocks p).card := Finset.card_pos.mpr ⟨i, used⟩
  have counted := ok.counted
  have pos : 0 < ((pageClearUsedBit p i h).pages p).nrUsedPageBlocks := by
    simp only [pageClearUsedBit, Heap.modifyPage_same]
    omega
  have erased : ((pageClearUsedBit p i h).dropUsed p).usedBlocks p = (h.usedBlocks p).erase i := by
    rw [← usedBlocks_clearUsedBit]
    simp [Heap.usedBlocks, Heap.dropUsed]
  refine ⟨(pageClearUsedBit p i h).dropUsed p, ?_, erased, ?_, ?_⟩
  · change (ensure (0 < ((pageClearUsedBit p i h).pages p).nrUsedPageBlocks) .usedPageBlocks >>=
      fun _ => pure _) = _
    rw [ensure_true pos]
    rfl
  · intro k hk
    rw [erased] at hk
    exact ok.inside k (Finset.mem_of_mem_erase hk)
  · rw [erased, Finset.card_erase_of_mem used]
    have left := decrement_of_pos pos
    simp only [pageClearUsedBit, Heap.dropUsed, Heap.modifyPage_same] at left ⊢
    omega

theorem BlocksOk.perform (ok : BlocksOk cap p h) (cap_le : cap ≤ 1012) {call : BlockCall}
    (allowed : call.Allowed cap p h) (run : call.perform p h = .ok h') : BlocksOk cap p h' := by
  cases call with
  | getFreePageBlock =>
      obtain ⟨i, g, took, _, _, _, ok'⟩ := ok.take cap_le allowed
      rw [BlockCall.perform, took] at run
      cases run
      exact ok'
  | pageClearUsedBit index =>
      cases run
      exact ok.clear index
  | freeUsedPageBlock index =>
      obtain ⟨g, freed, _, ok'⟩ := ok.free allowed
      rw [BlockCall.perform, freed] at run
      cases run
      exact ok'

theorem BlockRun.ok {h₀ : Heap π} (zero : h₀.ZeroBitmap p) (cap_le : cap ≤ 1012)
    (run : BlockRun cap p h₀ h) : BlocksOk cap p h := by
  induction run with
  | start => exact .start zero
  | step call _ allowed perform ih => exact ih.perform cap_le allowed perform

/-- `find_used_page_block` finds the least used block whenever one exists. -/
theorem findUsedPageBlock_least (inUse : (h.usedBlocks p).Nonempty) :
    ∃ i, findUsedPageBlock p h = some i ∧ IsLeast {j | j ∈ h.usedBlocks p} i := by
  obtain ⟨j, used⟩ := inUse
  obtain ⟨i, found⟩ := UsedBitmap.findUsed_isSome (mem_usedBlocks_iff.mp used)
  obtain ⟨usedI, least⟩ := UsedBitmap.findUsed_least found
  have mem : i ∈ h.usedBlocks p := mem_usedBlocks_iff.mpr usedI
  refine ⟨i, found, mem, fun k hk => ?_⟩
  by_contra lt
  exact least k (Nat.lt_of_not_le lt) (mem_usedBlocks_iff.mp hk)

/-- The bitmap of a page with blocks of `size` bytes agrees with its used blocks, and each
operation changes them by its own block only. -/
structure BlocksExact (size p : Nat) (h : Heap π) : Prop where
  summary : ExactSummary (h.pages p).usedPageBlockBitmap.words
  inside : ∀ i, i ∈ h.usedBlocks p → (i + 1) * size ≤ pageDataSize
  taken : (h.usedBlocks p).card < pageDataSize / size → ∃ i h', getFreePageBlock p h = .ok (i, h') ∧
    i < pageDataSize / size ∧ IsLeast {j | j ∉ h.usedBlocks p} i ∧
    h'.usedBlocks p = insert i (h.usedBlocks p)
  cleared : ∀ i, i ∈ h.usedBlocks p →
    (pageClearUsedBit p i h).usedBlocks p = (h.usedBlocks p).erase i
  freed : ∀ i, i ∈ h.usedBlocks p → ∃ h', freeUsedPageBlock p i h = .ok h' ∧
    h'.usedBlocks p = (h.usedBlocks p).erase i
  found : (h.usedBlocks p).Nonempty →
    ∃ i, findUsedPageBlock p h = some i ∧ IsLeast {j | j ∈ h.usedBlocks p} i
  zero : h.ZeroBitmap p ↔ h.usedBlocks p = ∅

/-- From an all-zero bitmap, every run of the operations keeps the bitmap exact. -/
theorem pageBlocks_exact (size p : Nat) (cap_le : pageDataSize / size ≤ 1012) (h₀ h : Heap π)
    (zero : h₀.ZeroBitmap p) (run : BlockRun (pageDataSize / size) p h₀ h) :
    BlocksExact size p h := by
  have ok := run.ok zero cap_le
  refine ⟨(h.pages p).usedPageBlockBitmap.exactSummary, fun i used => ?_, fun room => ?_,
    fun i _ => usedBlocks_clearUsedBit p i h, fun i used => ?_, findUsedPageBlock_least,
    zeroBitmap_iff⟩
  · exact (Nat.mul_le_mul_right size (ok.inside i used)).trans (Nat.div_mul_le_self _ _)
  · obtain ⟨i, h', took, below, least, used, _⟩ := ok.take cap_le room
    exact ⟨i, h', took, below, least, used⟩
  · obtain ⟨h', freed, erased, _⟩ := ok.free used
    exact ⟨h', freed, erased⟩

/-- Blocks are taken from the front of a new page. -/
theorem BlockRun.fill {h₀ : Heap π} (zero : h₀.ZeroBitmap p) (cap_le : cap ≤ 1012) {n : Nat}
    (hn : n ≤ cap) : ∃ h, BlockRun cap p h₀ h ∧ h.usedBlocks p = Finset.range n := by
  induction n with
  | zero => exact ⟨h₀, .start, zeroBitmap_iff.mp zero⟩
  | succ n ih =>
      obtain ⟨h, run, used⟩ := ih (Nat.le_of_succ_le hn)
      have room : (h.usedBlocks p).card < cap := by
        rw [used, Finset.card_range]
        exact hn
      obtain ⟨i, h', took, _, least, used', _⟩ := (run.ok zero cap_le).take cap_le room
      have next : i = n := by
        rw [used] at least
        have free : i ∉ Finset.range n := least.1
        have below : i ≤ n := least.2 (show n ∉ Finset.range n by simp)
        rw [Finset.mem_range] at free
        omega
      refine ⟨h', .step .getFreePageBlock run room (by rw [BlockCall.perform, took]; rfl), ?_⟩
      rw [used', used, next, ← Finset.range_add_one]

/-- On a page with blocks of 16 bytes the first word of the bitmap is full and the second one
begun when block 5 is cleared; block 5 is then taken next, and block 0 is found. -/
theorem pageBlocks_exact_refill : ∃ h h' : Heap Unit,
    BlockRun (pageDataSize / 16) 0 (blankHeap ()) h ∧ h.usedBlocks 0 = (Finset.range 33).erase 5 ∧
    findUsedPageBlock 0 h = some 0 ∧ getFreePageBlock 0 h = .ok (5, h') ∧
    h'.usedBlocks 0 = Finset.range 33 := by
  have zero : (blankHeap ()).ZeroBitmap 0 := fun _ _ => rfl
  obtain ⟨g, fill, all⟩ : ∃ g, BlockRun (pageDataSize / 16) 0 (blankHeap ()) g ∧
      g.usedBlocks 0 = Finset.range 33 := BlockRun.fill zero (by decide) (by decide)
  have used5 : 5 ∈ g.usedBlocks 0 := by
    rw [all]
    decide
  have cleared := (pageBlocks_exact 16 0 (by decide) _ g zero fill).cleared 5 used5
  rw [all] at cleared
  have run : BlockRun (pageDataSize / 16) 0 (blankHeap ()) (pageClearUsedBit 0 5 g) :=
    .step (.pageClearUsedBit 5) fill used5 rfl
  have exact := pageBlocks_exact 16 0 (by decide) _ _ zero run
  obtain ⟨j, found, _, least⟩ := exact.found (by rw [cleared]; exact ⟨0, by decide⟩)
  have first : j = 0 := Nat.le_zero.mp (least (by
    rw [cleared]
    exact (by decide : 0 ∈ (Finset.range 33).erase 5)))
  obtain ⟨i, h', took, _, ⟨unused, lowest⟩, used⟩ := exact.taken (by
    rw [cleared]
    decide)
  have hole : i = 5 := by
    have le : i ≤ 5 := lowest (by
      rw [cleared]
      exact Finset.notMem_erase 5 _)
    have out : i ∉ (Finset.range 33).erase 5 := cleared ▸ unused
    simp only [Finset.mem_erase, Finset.mem_range] at out
    omega
  refine ⟨_, h', run, cleared, first ▸ found, hole ▸ took, ?_⟩
  rw [used, cleared, hole]
  exact Finset.insert_erase (by decide)

end
end CompactFit
