import Mathlib.Data.List.GetD
import Mathlib.Tactic.Common

/-!
The size-class tables of `init_size_classes_mapping` and the lookup. The two
tables are built by the source's own loop: multiplicative growth by 9/8,
rounding up to words, an early break, the tail fill and the catch-all class.
-/

namespace CompactFit

def pageSize : Nat := 16384
def pageHeader : Nat := 184
def pageDataSize : Nat := pageSize - pageHeader
def sizeClasses : Nat := 51
def minPageBlockSize : Nat := 16
def largestSc : Nat := 8000

/-- One growth step: `base = (int)base*SIZECLASSESFACTOR`, rounded up to a
word. The products stay below 9000, so the 16-bit stores do not truncate. -/
def growBase (base : Nat) : Nat :=
  let base := base * 9 / 8
  let res := base % 4
  if res ≠ 0 then base + (4 - res) else base

structure SizeTables where
  size2SizeClassMap : List Nat
  sizeClass2SizeMap : List Nat

/-- The middle loop; `class` is the number of classes already sized. The break
`base*SIZECLASSESFACTOR >= LARGESTSC` is taken before the fuel ends. -/
def fillClasses : Nat → Nat → SizeTables → SizeTables
  | 0, _, t => t
  | fuel + 1, base, t =>
      if base < largestSc then
        let class' := t.sizeClass2SizeMap.length
        let grown := growBase base
        let t := { size2SizeClassMap :=
                     t.size2SizeClassMap ++ List.replicate ((grown - base) / 4) class'
                   sizeClass2SizeMap := t.sizeClass2SizeMap ++ [grown] }
        if largestSc * 8 ≤ grown * 9 then t else fillClasses fuel grown t
      else t

def initSizeClassesMapping : SizeTables :=
  let t := fillClasses sizeClasses minPageBlockSize
    { size2SizeClassMap := List.replicate (minPageBlockSize / 4) 0
      sizeClass2SizeMap := [minPageBlockSize] }
  let class' := t.sizeClass2SizeMap.length
  { size2SizeClassMap := t.size2SizeClassMap ++
      List.replicate (largestSc / 4 - t.size2SizeClassMap.length) class'
    sizeClass2SizeMap := t.sizeClass2SizeMap ++ [largestSc, pageDataSize] }

/-- `get_size_class_index`. The table has 2000 entries, so the request
`LARGESTSC` reads one half-word past its end; `past` is what lies there. -/
def getSizeClassIndex (past size : Nat) : Nat :=
  if size ≤ largestSc then initSizeClassesMapping.size2SizeClassMap.getD (size / 4) past
  else sizeClasses - 1

/-- `get_page_block_size_of_index`, and so the `block_size` of every class. -/
def blockSize (c : Nat) : Nat := initSizeClassesMapping.sizeClass2SizeMap.getD c 0

/-- `PAGEDATASIZE/page_block_size`, the comparison value of `is_page_full`. -/
def capacity (c : Nat) : Nat := pageDataSize / blockSize c

theorem sizeClass2SizeMap_length :
    initSizeClassesMapping.sizeClass2SizeMap.length = sizeClasses := by decide +kernel

theorem size2SizeClassMap_length :
    initSizeClassesMapping.size2SizeClassMap.length = largestSc / 4 := by decide +kernel

private theorem blockSizes_checked : ∀ c, c < sizeClasses →
    minPageBlockSize ≤ blockSize c ∧ blockSize c ≤ pageDataSize ∧ blockSize c % 4 = 0 := by
  decide +kernel

private theorem lookups_checked :
    initSizeClassesMapping.size2SizeClassMap.zipIdx.all
      (fun e => decide (e.1 < sizeClasses) && decide (4 * e.2 + 3 ≤ blockSize e.1)) = true := by
  decide +kernel

private theorem blocks_checked : ∀ c, c < sizeClasses - 1 →
    blockSize c ≤ largestSc ∧
      initSizeClassesMapping.size2SizeClassMap.getD (blockSize c / 4 - 1) 0 = c := by
  decide +kernel

theorem blockSize_min {c : Nat} (hc : c < sizeClasses) : 16 ≤ blockSize c :=
  (blockSizes_checked c hc).1

theorem blockSize_max {c : Nat} (hc : c < sizeClasses) : blockSize c ≤ 16200 :=
  (blockSizes_checked c hc).2.1

theorem blockSize_word {c : Nat} (hc : c < sizeClasses) : blockSize c % 4 = 0 :=
  (blockSizes_checked c hc).2.2

/-- Every lookup inside the table yields a class whose blocks are large enough. -/
theorem getSizeClassIndex_small (past : Nat) {size : Nat} (h : size < largestSc) :
    getSizeClassIndex past size < sizeClasses ∧
      size ≤ blockSize (getSizeClassIndex past size) := by
  have bound : size / 4 < initSizeClassesMapping.size2SizeClassMap.length := by
    rw [size2SizeClassMap_length]
    simp only [largestSc] at h ⊢
    omega
  have entry := List.all_eq_true.mp lookups_checked
    (initSizeClassesMapping.size2SizeClassMap[size / 4], size / 4)
    (List.mk_mem_zipIdx_iff_getElem?.mpr (List.getElem?_eq_getElem bound))
  simp only [Bool.and_eq_true, decide_eq_true_eq] at entry
  have lookup : getSizeClassIndex past size =
      initSizeClassesMapping.size2SizeClassMap[size / 4] := by
    simp only [getSizeClassIndex, Nat.le_of_lt h, if_true, List.getD_eq_getElem _ _ bound]
  rw [lookup]
  exact ⟨entry.1, by omega⟩

theorem getSizeClassIndex_large (past : Nat) {size : Nat} (h : largestSc < size) :
    getSizeClassIndex past size = sizeClasses - 1 := by
  have no : ¬ size ≤ largestSc := by omega
  simp only [getSizeClassIndex, no, if_false]

theorem blockSize_largest : blockSize (sizeClasses - 1) = pageDataSize := by decide +kernel

/-- A size that its block exceeds by less than a word. -/
theorem getSizeClassIndex_near (past : Nat) {size c : Nat} (hc : c < sizeClasses)
    (above : size < blockSize c) (below : blockSize c < size + 4) :
    getSizeClassIndex past size = c := by
  have word := blockSize_word hc
  rcases Nat.lt_or_eq_of_le (Nat.le_sub_one_of_lt hc) with lt | rfl
  · obtain ⟨table, entry⟩ := blocks_checked c lt
    have index : size / 4 = blockSize c / 4 - 1 := by omega
    have bound : size / 4 < initSizeClassesMapping.size2SizeClassMap.length := by
      rw [size2SizeClassMap_length]
      simp only [largestSc] at table ⊢
      omega
    rw [getSizeClassIndex, if_pos (by omega), List.getD_eq_getElem _ _ bound,
      ← List.getD_eq_getElem _ 0 bound, index, entry]
  · refine getSizeClassIndex_large past ?_
    rw [blockSize_largest] at below
    simp only [pageDataSize, pageSize, pageHeader, largestSc] at below ⊢
    omega

theorem getSizeClassIndex_boundary (past : Nat) : getSizeClassIndex past largestSc = past := by
  have outside : initSizeClassesMapping.size2SizeClassMap.length ≤ largestSc / 4 :=
    Nat.le_of_eq size2SizeClassMap_length
  simp only [getSizeClassIndex, Nat.le_refl, if_true, List.getD_eq_default _ _ outside]

theorem capacity_pos {c : Nat} (hc : c < sizeClasses) : 0 < capacity c := by
  have lo := blockSize_min hc
  have hi := blockSize_max hc
  exact Nat.div_pos hi (by omega)

theorem capacity_le {c : Nat} (hc : c < sizeClasses) : capacity c ≤ 1012 := by
  have lo := blockSize_min hc
  have : capacity c ≤ pageDataSize / 16 := Nat.div_le_div_left lo (by decide)
  exact this

/-- Every block below the capacity lies inside the page's `memory` array. -/
theorem block_inside {c i : Nat} (h : i < capacity c) :
    i * blockSize c + blockSize c ≤ pageDataSize := by
  have mul : (i + 1) * blockSize c ≤ capacity c * blockSize c :=
    Nat.mul_le_mul_right _ h
  have whole : capacity c * blockSize c ≤ pageDataSize := Nat.div_mul_le_self _ _
  rw [Nat.add_mul, Nat.one_mul] at mul
  omega

end CompactFit
