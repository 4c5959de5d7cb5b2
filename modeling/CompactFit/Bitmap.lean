import Mathlib.Data.Finset.Card
import Mathlib.Logic.Function.Basic
import Mathlib.Tactic.Common

/-!
The two-level bitmap of the used page blocks of a page. Word 0 summarises the
rows that hold a set bit, word 1 the rows that are full, and row `r` of 32
blocks is word `r + 2`. `UsedBitmap` carries the exactness of both summary
words, so every page header built by the operations has it.
-/

namespace CompactFit
open Function

/-- `uint32_t used_page_block_bitmap[34]`. -/
abbrev BitmapWords := Nat → BitVec 32

/-- `_ffs`: the lowest set bit; the source's `-1` for the zero word is `none`. -/
def ffs (x : BitVec 32) : Option Nat :=
  (List.range 32).find? fun i => x.getLsbD i

def clearBit (mem : BitmapWords) (bitmapIndex bitmap2DIndex : Nat) : BitmapWords :=
  let row := mem (bitmapIndex + 2) &&& ((1#32 <<< bitmap2DIndex) ^^^ 0xffffffff#32)
  let mem := update mem (bitmapIndex + 2) row
  let mem := if row = 0#32 then
      update mem 0 (mem 0 &&& ((1#32 <<< bitmapIndex) ^^^ 0xffffffff#32))
    else mem
  update mem 1 (mem 1 &&& ((1#32 <<< bitmapIndex) ^^^ 0xffffffff#32))

def setBit (mem : BitmapWords) (bitmapIndex bitmap2DIndex : Nat) : BitmapWords :=
  let mem := update mem 0 (mem 0 ||| (1#32 <<< bitmapIndex))
  let row := mem (bitmapIndex + 2) ||| (1#32 <<< bitmap2DIndex)
  let mem := update mem (bitmapIndex + 2) row
  if row = 0xffffffff#32 then update mem 1 (mem 1 ||| (1#32 <<< bitmapIndex)) else mem

/-- Both summary words say exactly which rows are non-empty and which are full. -/
def ExactSummary (mem : BitmapWords) : Prop :=
  ∀ r, r < 32 → ((mem 0).getLsbD r = true ↔ mem (r + 2) ≠ 0#32) ∧
    ((mem 1).getLsbD r = true ↔ mem (r + 2) = 0xffffffff#32)

section Words

theorem ffs_some {x : BitVec 32} {i : Nat} (h : ffs x = some i) :
    i < 32 ∧ x.getLsbD i = true ∧ ∀ j, j < i → x.getLsbD j = false := by
  rw [ffs, List.find?_range_eq_some] at h
  obtain ⟨bit, mem, least⟩ := h
  refine ⟨by simpa using mem, bit, fun j hj => ?_⟩
  simpa using least j hj

theorem ffs_isSome_iff (x : BitVec 32) : (∃ i, ffs x = some i) ↔ x ≠ 0#32 := by
  constructor
  · rintro ⟨i, h⟩ rfl
    simpa using (ffs_some h).2.1
  · intro ne
    by_contra none
    apply ne
    apply BitVec.eq_of_getLsbD_eq
    intro i hi
    have all : ffs x = Option.none := Option.eq_none_iff_forall_ne_some.mpr (by simpa using none)
    rw [ffs, List.find?_eq_none] at all
    simpa using all i (List.mem_range.mpr hi)

private theorem oneBit (k i : Nat) : (1#32 <<< k).getLsbD i =
    (decide (i < 32) && decide (i = k)) := by
  by_cases hi : i < 32 <;> by_cases hk : i = k
  · simp [hk, hk ▸ hi]
  · simp only [BitVec.getLsbD_shiftLeft, BitVec.getLsbD_one, hi, hk, decide_true, decide_false,
      Bool.true_and]
    by_cases lt : i < k
    · simp [lt]
    · have : i - k ≠ 0 := by omega
      simp [this]
  · simp [hi]
  · simp [hi]

private theorem maskBit (k i : Nat) :
    ((1#32 <<< k) ^^^ 0xffffffff#32).getLsbD i = (decide (i < 32) && decide (i ≠ k)) := by
  rw [BitVec.getLsbD_xor, oneBit, show 0xffffffff#32 = BitVec.allOnes 32 from rfl,
    BitVec.getLsbD_allOnes]
  by_cases hi : i < 32 <;> by_cases hk : i = k <;> simp [hi, hk]

private theorem clearBit_self (mem : BitmapWords) (r c : Nat) :
    clearBit mem r c (r + 2) = mem (r + 2) &&& ((1#32 <<< c) ^^^ 0xffffffff#32) := by
  simp only [clearBit]
  split <;> simp

private theorem clearBit_other (mem : BitmapWords) {r c s : Nat} (h : s ≠ r) :
    clearBit mem r c (s + 2) = mem (s + 2) := by
  simp only [clearBit]
  split <;> simp [h]

private theorem clearBit_word0 (mem : BitmapWords) (r c : Nat) :
    clearBit mem r c 0 =
      if mem (r + 2) &&& ((1#32 <<< c) ^^^ 0xffffffff#32) = 0#32 then
        mem 0 &&& ((1#32 <<< r) ^^^ 0xffffffff#32) else mem 0 := by
  simp only [clearBit]
  split <;> simp

private theorem clearBit_word1 (mem : BitmapWords) (r c : Nat) :
    clearBit mem r c 1 = mem 1 &&& ((1#32 <<< r) ^^^ 0xffffffff#32) := by
  simp only [clearBit]
  split <;> simp

private theorem setBit_self (mem : BitmapWords) (r c : Nat) :
    setBit mem r c (r + 2) = mem (r + 2) ||| (1#32 <<< c) := by
  simp only [setBit]
  split <;> simp

private theorem setBit_other (mem : BitmapWords) {r c s : Nat} (h : s ≠ r) :
    setBit mem r c (s + 2) = mem (s + 2) := by
  simp only [setBit]
  split <;> simp [h]

private theorem setBit_word0 (mem : BitmapWords) (r c : Nat) :
    setBit mem r c 0 = mem 0 ||| (1#32 <<< r) := by
  simp only [setBit]
  split <;> simp

private theorem setBit_word1 (mem : BitmapWords) (r c : Nat) :
    setBit mem r c 1 =
      if mem (r + 2) ||| (1#32 <<< c) = 0xffffffff#32 then mem 1 ||| (1#32 <<< r)
      else mem 1 := by
  simp only [setBit]
  split <;> simp_all

theorem clearBit_row (mem : BitmapWords) (r c s i : Nat) :
    (clearBit mem r c (s + 2)).getLsbD i =
      ((mem (s + 2)).getLsbD i && !(decide (s = r) && decide (i = c))) := by
  by_cases hs : s = r
  · subst hs
    rw [clearBit_self, BitVec.getLsbD_and, maskBit]
    by_cases hi : i < 32
    · simp [hi]
    · simp [BitVec.getLsbD_of_ge _ _ (Nat.le_of_not_lt hi)]
  · rw [clearBit_other mem hs]
    simp [hs]

theorem setBit_row (mem : BitmapWords) (r c s i : Nat) (hc : c < 32) :
    (setBit mem r c (s + 2)).getLsbD i =
      ((mem (s + 2)).getLsbD i || (decide (s = r) && decide (i = c))) := by
  by_cases hs : s = r
  · subst hs
    rw [setBit_self, BitVec.getLsbD_or, oneBit]
    by_cases hi : i < 32
    · simp [hi]
    · have ne : i ≠ c := by omega
      simp [hi, ne]
  · rw [setBit_other mem hs]
    simp [hs]

/-- Clearing keeps both summaries exact: a row that becomes zero leaves word 0,
and a row with a cleared bit cannot be full. -/
theorem exactSummary_clearBit {mem : BitmapWords} (h : ExactSummary mem) (r c : Nat)
    (hc : c < 32) : ExactSummary (clearBit mem r c) := by
  intro s hs
  by_cases hsr : s = r
  · subst hsr
    have notFull : clearBit mem s c (s + 2) ≠ 0xffffffff#32 := by
      intro full
      have bit := clearBit_row mem s c s c
      rw [full, show 0xffffffff#32 = BitVec.allOnes 32 from rfl, BitVec.getLsbD_allOnes] at bit
      simp [hc] at bit
    constructor
    · rw [clearBit_word0, clearBit_self]
      split
      next zero =>
        rw [zero, BitVec.getLsbD_and, maskBit]
        simp
      next nonzero =>
        rw [(h s hs).1]
        have before : mem (s + 2) ≠ 0#32 := by
          intro z
          apply nonzero
          rw [z, BitVec.zero_and]
        simp [before, nonzero]
    · rw [clearBit_word1, BitVec.getLsbD_and, maskBit]
      simp [notFull]
  · have word0 : (clearBit mem r c 0).getLsbD s = (mem 0).getLsbD s := by
      rw [clearBit_word0]
      split
      · rw [BitVec.getLsbD_and, maskBit]
        simp [hs, hsr]
      · rfl
    have word1 : (clearBit mem r c 1).getLsbD s = (mem 1).getLsbD s := by
      rw [clearBit_word1, BitVec.getLsbD_and, maskBit]
      simp [hs, hsr]
    rw [clearBit_other mem hsr, word0, word1]
    exact h s hs

theorem exactSummary_setBit {mem : BitmapWords} (h : ExactSummary mem) (r c : Nat)
    (hc : c < 32) : ExactSummary (setBit mem r c) := by
  intro s hs
  by_cases hsr : s = r
  · subst hsr
    have nonzero : setBit mem s c (s + 2) ≠ 0#32 := by
      intro zero
      have bit := setBit_row mem s c s c hc
      rw [zero] at bit
      simp at bit
    constructor
    · rw [setBit_word0, BitVec.getLsbD_or, oneBit]
      simp [hs, nonzero]
    · rw [setBit_word1, setBit_self]
      split
      next full =>
        rw [full, BitVec.getLsbD_or, oneBit]
        simp [hs]
      next notFull =>
        rw [(h s hs).2]
        constructor
        · intro was
          rw [was, show 0xffffffff#32 = BitVec.allOnes 32 from rfl, BitVec.allOnes_or]
        · intro now
          exact absurd now notFull
  · have word0 : (setBit mem r c 0).getLsbD s = (mem 0).getLsbD s := by
      rw [setBit_word0, BitVec.getLsbD_or, oneBit]
      simp [hsr]
    have word1 : (setBit mem r c 1).getLsbD s = (mem 1).getLsbD s := by
      rw [setBit_word1]
      split
      · rw [BitVec.getLsbD_or, oneBit]
        simp [hsr]
      · rfl
    rw [setBit_other mem hsr, word0, word1]
    exact h s hs

end Words

structure UsedBitmap where
  words : BitmapWords
  exactSummary : ExactSummary words

namespace UsedBitmap

/-- The bitmap of a page that was never used: the mapping is zero-filled. -/
def empty : UsedBitmap where
  words := fun _ => 0#32
  exactSummary := fun _ _ => by simp

/-- Block `i` of the page is marked as used; the bitmap has 32 rows. -/
def Used (bm : UsedBitmap) (i : Nat) : Prop :=
  i < 1024 ∧ (bm.words (i / 32 + 2)).getLsbD (i % 32) = true

instance (bm : UsedBitmap) : DecidablePred bm.Used := fun i =>
  inferInstanceAs (Decidable (i < 1024 ∧ (bm.words (i / 32 + 2)).getLsbD (i % 32) = true))

/-- `page_clear_used_bit` on the words. -/
def clear (bm : UsedBitmap) (index : Nat) : UsedBitmap where
  words := clearBit bm.words (index / 32) (index % 32)
  exactSummary := exactSummary_clearBit bm.exactSummary _ _ (Nat.mod_lt _ (by decide))

def mark (bm : UsedBitmap) (index : Nat) : UsedBitmap where
  words := setBit bm.words (index / 32) (index % 32)
  exactSummary := exactSummary_setBit bm.exactSummary _ _ (Nat.mod_lt _ (by decide))

/-- The index arithmetic of `get_free_page_block`. -/
def findUnused (bm : UsedBitmap) : Option Nat := do
  let bitmapIndex ← ffs (bm.words 1 ^^^ 0xffffffff#32)
  let bitmap2DIndex ← ffs (bm.words (bitmapIndex + 2) ^^^ 0xffffffff#32)
  return bitmapIndex * 32 + bitmap2DIndex

/-- The index arithmetic of `find_used_page_block`. -/
def findUsed (bm : UsedBitmap) : Option Nat := do
  let bitmapIndex ← ffs (bm.words 0)
  let bitmap2DIndex ← ffs (bm.words (bitmapIndex + 2))
  return bitmapIndex * 32 + bitmap2DIndex

def usedBlocks (bm : UsedBitmap) : Finset Nat := (Finset.range 1024).filter bm.Used

@[simp] theorem mem_usedBlocks {bm : UsedBitmap} {i : Nat} : i ∈ bm.usedBlocks ↔ bm.Used i := by
  simp only [usedBlocks, Finset.mem_filter, Finset.mem_range, and_iff_right_iff_imp]
  exact fun h => h.1

@[simp] theorem used_empty (i : Nat) : ¬ empty.Used i := by
  simp [empty, Used]

theorem words_of_unused {bm : UsedBitmap} (unused : ∀ i, ¬ bm.Used i) {w : Nat} (hw : w < 34) :
    bm.words w = 0#32 := by
  have row : ∀ r, r < 32 → bm.words (r + 2) = 0#32 := by
    intro r hr
    apply BitVec.eq_of_getLsbD_eq
    intro i hi
    have bit := unused (32 * r + i)
    rw [Used, show (32 * r + i) / 32 = r by omega, show (32 * r + i) % 32 = i by omega] at bit
    simpa [show 32 * r + i < 1024 by omega] using bit
  match w, hw with
  | 0, _ =>
      apply BitVec.eq_of_getLsbD_eq
      intro r hr
      simpa [row r hr] using (bm.exactSummary r hr).1
  | 1, _ =>
      apply BitVec.eq_of_getLsbD_eq
      intro r hr
      simpa [row r hr] using (bm.exactSummary r hr).2
  | r + 2, hw => exact row r (by omega)

@[simp] theorem used_clear {bm : UsedBitmap} {i j : Nat} :
    (bm.clear i).Used j ↔ bm.Used j ∧ j ≠ i := by
  have split : (j / 32 = i / 32 ∧ j % 32 = i % 32) ↔ j = i := by omega
  simp only [Used, clear, clearBit_row, Bool.and_eq_true, Bool.not_eq_true',
    Bool.and_eq_false_iff, decide_eq_false_iff_not]
  tauto

theorem used_mark {bm : UsedBitmap} {i j : Nat} (hi : i < 1024) :
    (bm.mark i).Used j ↔ bm.Used j ∨ j = i := by
  have split : (j / 32 = i / 32 ∧ j % 32 = i % 32) ↔ j = i := by omega
  simp only [Used, mark, setBit_row _ _ _ _ _ (Nat.mod_lt i (show 0 < 32 by decide)),
    Bool.or_eq_true, Bool.and_eq_true, decide_eq_true_eq, split]
  constructor
  · rintro ⟨hj, h | h⟩
    · exact .inl ⟨hj, h⟩
    · exact .inr h
  · rintro (⟨hj, h⟩ | rfl)
    · exact ⟨hj, .inl h⟩
    · exact ⟨hi, .inr rfl⟩

@[simp] theorem usedBlocks_clear (bm : UsedBitmap) (i : Nat) :
    (bm.clear i).usedBlocks = bm.usedBlocks.erase i := by
  ext j
  simp [and_comm]

theorem usedBlocks_mark (bm : UsedBitmap) {i : Nat} (hi : i < 1024) :
    (bm.mark i).usedBlocks = insert i bm.usedBlocks := by
  ext j
  simp [used_mark hi, or_comm]

private theorem rowIndex {r c : Nat} (hc : c < 32) :
    (r * 32 + c) / 32 = r ∧ (r * 32 + c) % 32 = c := by omega

/-- `find_used_page_block` returns the least used index. -/
theorem findUsed_least {bm : UsedBitmap} {i : Nat} (h : bm.findUsed = some i) :
    bm.Used i ∧ ∀ j, j < i → ¬ bm.Used j := by
  simp only [findUsed, Option.bind_eq_bind, Option.bind_eq_some_iff, Option.pure_def,
    Option.some.injEq] at h
  obtain ⟨r, hr, c, hc, rfl⟩ := h
  obtain ⟨r32, rSet, rLeast⟩ := ffs_some hr
  obtain ⟨c32, cSet, cLeast⟩ := ffs_some hc
  refine ⟨⟨by omega, by rw [(rowIndex c32).1, (rowIndex c32).2]; exact cSet⟩, ?_⟩
  rintro j hj ⟨j1024, bit⟩
  rcases Nat.lt_or_ge (j / 32) r with lt | ge
  · have clear := rLeast _ lt
    have zero : bm.words (j / 32 + 2) = 0#32 := by
      by_contra ne
      have set := (bm.exactSummary (j / 32) (by omega)).1.mpr ne
      rw [clear] at set
      cases set
    rw [zero] at bit
    simp at bit
  · have row : j / 32 = r := by omega
    have clear := cLeast (j % 32) (by omega)
    rw [row, clear] at bit
    cases bit

theorem findUsed_isSome {bm : UsedBitmap} {j : Nat} (h : bm.Used j) :
    ∃ i, bm.findUsed = some i := by
  obtain ⟨j1024, bit⟩ := h
  have nonzero : bm.words (j / 32 + 2) ≠ 0#32 := by
    intro zero
    rw [zero] at bit
    simp at bit
  have summary := (bm.exactSummary (j / 32) (by omega)).1.mpr nonzero
  have word0 : bm.words 0 ≠ 0#32 := by
    intro zero
    rw [zero] at summary
    simp at summary
  obtain ⟨r, hr⟩ := (ffs_isSome_iff _).mpr word0
  obtain ⟨r32, rSet, _⟩ := ffs_some hr
  obtain ⟨c, hc⟩ := (ffs_isSome_iff _).mpr ((bm.exactSummary r r32).1.mp rSet)
  exact ⟨r * 32 + c, by simp [findUsed, hr, hc]⟩

private theorem flipBit (x : BitVec 32) {i : Nat} (hi : i < 32) :
    (x ^^^ 0xffffffff#32).getLsbD i = !x.getLsbD i := by
  rw [BitVec.getLsbD_xor, show 0xffffffff#32 = BitVec.allOnes 32 from rfl,
    BitVec.getLsbD_allOnes]
  simp [hi]

/-- `get_free_page_block` returns the least unused index. -/
theorem findUnused_least {bm : UsedBitmap} {i : Nat} (h : bm.findUnused = some i) :
    i < 1024 ∧ ¬ bm.Used i ∧ ∀ j, j < i → bm.Used j := by
  simp only [findUnused, Option.bind_eq_bind, Option.bind_eq_some_iff, Option.pure_def,
    Option.some.injEq] at h
  obtain ⟨r, hr, c, hc, rfl⟩ := h
  obtain ⟨r32, rSet, rLeast⟩ := ffs_some hr
  obtain ⟨c32, cSet, cLeast⟩ := ffs_some hc
  rw [flipBit _ c32] at cSet
  refine ⟨by omega, ?_, ?_⟩
  · rintro ⟨_, bit⟩
    rw [(rowIndex c32).1, (rowIndex c32).2] at bit
    simp [bit] at cSet
  · intro j hj
    refine ⟨by omega, ?_⟩
    have c32' : j % 32 < 32 := Nat.mod_lt _ (by decide)
    rcases Nat.lt_or_ge (j / 32) r with lt | ge
    · have summary := rLeast _ lt
      rw [flipBit _ (by omega)] at summary
      have full := (bm.exactSummary (j / 32) (by omega)).2.mp (by simpa using summary)
      rw [full, show 0xffffffff#32 = BitVec.allOnes 32 from rfl, BitVec.getLsbD_allOnes]
      simp [c32']
    · have row : j / 32 = r := by omega
      have bit := cLeast (j % 32) (by omega)
      rw [flipBit _ c32'] at bit
      rw [row]
      simpa using bit

theorem findUnused_isSome {bm : UsedBitmap} {j : Nat} (hj : j < 1024) (h : ¬ bm.Used j) :
    ∃ i, bm.findUnused = some i := by
  have notFull : bm.words (j / 32 + 2) ≠ 0xffffffff#32 := by
    intro full
    apply h
    refine ⟨hj, ?_⟩
    rw [full, show 0xffffffff#32 = BitVec.allOnes 32 from rfl, BitVec.getLsbD_allOnes]
    simp [Nat.mod_lt]
  have summary : (bm.words 1).getLsbD (j / 32) = false := by
    by_contra set
    exact notFull ((bm.exactSummary (j / 32) (by omega)).2.mp (by simpa using set))
  have word1 : bm.words 1 ^^^ 0xffffffff#32 ≠ 0#32 := by
    intro zero
    have bit := flipBit (bm.words 1) (i := j / 32) (by omega)
    rw [zero, summary] at bit
    simp at bit
  obtain ⟨r, hr⟩ := (ffs_isSome_iff _).mpr word1
  obtain ⟨r32, rSet, _⟩ := ffs_some hr
  rw [flipBit _ r32] at rSet
  have rowNotFull : bm.words (r + 2) ^^^ 0xffffffff#32 ≠ 0#32 := by
    intro zero
    have full := (bm.exactSummary r r32).2.mpr (BitVec.xor_eq_zero_iff.mp zero)
    simp [full] at rSet
  obtain ⟨c, hc⟩ := (ffs_isSome_iff _).mpr rowNotFull
  exact ⟨r * 32 + c, by simp [findUnused, hr, hc]⟩

/-- The least unused index is at most the number of used blocks. -/
theorem findUnused_le_card {bm : UsedBitmap} {i : Nat} (h : bm.findUnused = some i) :
    i ≤ bm.usedBlocks.card := by
  have sub : Finset.range i ⊆ bm.usedBlocks := by
    intro j hj
    exact mem_usedBlocks.mpr ((findUnused_least h).2.2 j (Finset.mem_range.mp hj))
  simpa using Finset.card_le_card sub

end UsedBitmap
end CompactFit
