import CompactFit.SizeClassTable
import Mathlib.Data.List.Chain
import Mathlib.Order.Nat

/-!
The lookup of `get_size_class_index` against the tables. The only size it serves badly
is `LARGESTSC` itself: the bound test admits it, the table ends before it.
-/

namespace CompactFit

/-- Facts about the two tables alone. -/
structure TablesSound : Prop where
  word : ∀ c, c < sizeClasses → blockSize c % 4 = 0
  increasing : ∀ c d, c < d → d < sizeClasses → blockSize c < blockSize d
  /-- The class filled last is the one that larger sizes are sent to. -/
  last : initSizeClassesMapping.sizeClass2SizeMap.length - 1 = sizeClasses - 1 ∧
    ∀ past size, largestSc < size →
      getSizeClassIndex past size = initSizeClassesMapping.sizeClass2SizeMap.length - 1

/-- One lookup reads inside the table and finds a class that is large enough, no larger
than needed, and no smaller than the one of a smaller size. -/
structure LookupSound (past size : Nat) : Prop where
  inBounds : size ≤ largestSc → size / 4 < initSizeClassesMapping.size2SizeClassMap.length
  index : getSizeClassIndex past size < sizeClasses
  sufficient : size ≤ blockSize (getSizeClassIndex past size)
  monotone : ∀ s, s ≤ size →
    blockSize (getSizeClassIndex past s) ≤ blockSize (getSizeClassIndex past size)
  tight : minPageBlockSize ≤ size → size ≤ largestSc →
    8 * blockSize (getSizeClassIndex past size) ≤ 9 * size + 8 * 3

private theorem sizes_checked :
    initSizeClassesMapping.sizeClass2SizeMap.Pairwise (· < ·) := by decide +kernel

private theorem classes_checked :
    initSizeClassesMapping.size2SizeClassMap.IsChain (· ≤ ·) := by decide +kernel

private theorem tightness_checked :
    initSizeClassesMapping.size2SizeClassMap.zipIdx.all (fun e =>
      decide (e.2 < minPageBlockSize / 4 ∨ 8 * blockSize e.1 ≤ 9 * (4 * e.2) + 8 * 3)) = true := by
  decide +kernel

theorem blockSize_lt {c d : Nat} (lt : c < d) (hd : d < sizeClasses) :
    blockSize c < blockSize d := by
  have last : d < initSizeClassesMapping.sizeClass2SizeMap.length := by
    rw [sizeClass2SizeMap_length]
    exact hd
  have increasing := List.pairwise_iff_getElem.mp sizes_checked c d (by omega) last lt
  simpa only [blockSize, List.getD_eq_getElem _ _ last, List.getD_eq_getElem _ _ (lt.trans last)]

theorem blockSize_mono {c d : Nat} (le : c ≤ d) (hd : d < sizeClasses) :
    blockSize c ≤ blockSize d := by
  rcases Nat.eq_or_lt_of_le le with rfl | lt
  · exact le_rfl
  · exact (blockSize_lt lt hd).le

/-- No entry at all, inside the table or not, names a class with larger blocks. -/
theorem blockSize_le (c : Nat) : blockSize c ≤ pageDataSize := by
  by_cases hc : c < sizeClasses
  · exact blockSize_max hc
  · have outside : initSizeClassesMapping.sizeClass2SizeMap.length ≤ c := by
      rw [sizeClass2SizeMap_length]
      omega
    rw [blockSize, List.getD_eq_default _ _ outside]
    exact Nat.zero_le _

/-- A size below `LARGESTSC` is served by its entry of the table. -/
theorem getSizeClassIndex_entry (past : Nat) {size : Nat} (h : size < largestSc) :
    ∃ bound : size / 4 < initSizeClassesMapping.size2SizeClassMap.length,
      getSizeClassIndex past size = initSizeClassesMapping.size2SizeClassMap[size / 4] := by
  have bound : size / 4 < initSizeClassesMapping.size2SizeClassMap.length := by
    rw [size2SizeClassMap_length]
    simp only [largestSc] at h ⊢
    omega
  refine ⟨bound, ?_⟩
  simp only [getSizeClassIndex, h.le, if_true, List.getD_eq_getElem _ _ bound]

theorem getSizeClassIndex_mono (past : Nat) {s size : Nat} (le : s ≤ size)
    (h : size < largestSc) : getSizeClassIndex past s ≤ getSizeClassIndex past size := by
  obtain ⟨bound, entry⟩ := getSizeClassIndex_entry past h
  obtain ⟨bound', entry'⟩ := getSizeClassIndex_entry past (Nat.lt_of_le_of_lt le h)
  rw [entry, entry']
  rcases Nat.eq_or_lt_of_le (Nat.div_le_div_right (c := 4) le) with same | lt
  · exact (getElem_congr_idx same).le
  · exact List.pairwise_iff_getElem.mp classes_checked.pairwise _ _ bound' bound lt

theorem getSizeClassIndex_tight (past : Nat) {size : Nat} (min : minPageBlockSize ≤ size)
    (h : size < largestSc) : 8 * blockSize (getSizeClassIndex past size) ≤ 9 * size + 8 * 3 := by
  obtain ⟨bound, entry⟩ := getSizeClassIndex_entry past h
  have checked := List.all_eq_true.mp tightness_checked
    (initSizeClassesMapping.size2SizeClassMap[size / 4], size / 4)
    (List.mk_mem_zipIdx_iff_getElem?.mpr (List.getElem?_eq_getElem bound))
  rw [entry]
  rw [minPageBlockSize] at min
  rcases of_decide_eq_true checked with small | tight
  · simp only [minPageBlockSize] at small
    omega
  · simp only at tight
    omega

theorem lookupSound_small (past : Nat) {size : Nat} (h : size < largestSc) :
    LookupSound past size := by
  obtain ⟨index, sufficient⟩ := getSizeClassIndex_small past h
  obtain ⟨bound, _⟩ := getSizeClassIndex_entry past h
  exact ⟨fun _ => bound, index, sufficient,
    fun s le => blockSize_mono (getSizeClassIndex_mono past le h) index,
    fun min _ => getSizeClassIndex_tight past min h⟩

theorem lookupSound_large (past : Nat) {size : Nat} (h : largestSc < size)
    (page : size ≤ pageDataSize) : LookupSound past size := by
  have last := getSizeClassIndex_large past h
  refine ⟨fun le => absurd le (Nat.not_le.mpr h), ?_, ?_, fun s _ => ?_,
    fun _ le => absurd le (Nat.not_le.mpr h)⟩
  · rw [last]
    decide
  · rw [last, blockSize_largest]
    exact page
  · rw [last, blockSize_largest]
    exact blockSize_le _

theorem tablesSound : TablesSound := by
  refine ⟨fun c => blockSize_word, fun c d => blockSize_lt, ?_, fun past size h => ?_⟩
  · rw [sizeClass2SizeMap_length]
  · rw [sizeClass2SizeMap_length]
    exact getSizeClassIndex_large past h

/-- The lookup is in bounds, sufficient and tight, but for a size of `LARGESTSC`. -/
theorem sizeLookup_sound_iff (past size : Nat) (page : size ≤ pageDataSize) :
    TablesSound ∧ (LookupSound past size ↔ size ≠ largestSc) := by
  refine ⟨tablesSound, fun sound => ?_, fun ne => ?_⟩
  · rintro rfl
    have inside := sound.inBounds le_rfl
    rw [size2SizeClassMap_length] at inside
    exact lt_irrefl _ inside
  · rcases Nat.lt_or_gt_of_ne ne with small | large
    · exact lookupSound_small past small
    · exact lookupSound_large past large page

theorem sizeLookup_sound_7999 : LookupSound 0 7999 :=
  (sizeLookup_sound_iff 0 7999 (by decide)).2.mpr (by decide)

/-- The read for `LARGESTSC` lies behind the end of the table. -/
theorem sizeLookup_unsound : 8000 ≤ pageDataSize ∧ ∀ past, ¬ LookupSound past 8000 := by
  refine ⟨by decide, fun past sound => ?_⟩
  have inside := sound.inBounds (by decide)
  rw [size2SizeClassMap_length] at inside
  exact absurd inside (by decide)

end CompactFit
