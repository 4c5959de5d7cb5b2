import Mathlib.Algebra.Ring.Nat
import Mathlib.Tactic.Common

/-!
Byte-addressed memory with 32-bit little-endian words and block copies. Every
operation comes with the range it leaves alone, stated through `AgreeOn`, so
that a client transports facts about a range instead of unfolding a write.
-/

namespace ByteMemory

abbrev Memory := Nat → UInt8

def readWord (m : Memory) (a : Nat) : Nat :=
  (m a).toNat + 256 * (m (a + 1)).toNat + 65536 * (m (a + 2)).toNat +
    16777216 * (m (a + 3)).toNat

def writeByte (m : Memory) (a : Nat) (v : UInt8) : Memory :=
  fun x => if x = a then v else m x

def writeWord (m : Memory) (a w : Nat) : Memory := fun x =>
  if x = a then UInt8.ofNat w
  else if x = a + 1 then UInt8.ofNat (w / 256)
  else if x = a + 2 then UInt8.ofNat (w / 65536)
  else if x = a + 3 then UInt8.ofNat (w / 16777216)
  else m x

/-- `memcpy(dest, src, n)` for ranges that do not overlap. -/
def memcpy (m : Memory) (dest src n : Nat) : Memory := fun x =>
  if dest ≤ x ∧ x < dest + n then m (src + (x - dest)) else m x

/-- Two memories hold the same `n` bytes from address `a` on. -/
def AgreeOn (m m' : Memory) (a n : Nat) : Prop := ∀ j, j < n → m' (a + j) = m (a + j)

theorem AgreeOn.refl (m : Memory) (a n : Nat) : AgreeOn m m a n := fun _ _ => rfl

theorem AgreeOn.trans {m m' m'' : Memory} {a n : Nat}
    (h : AgreeOn m m' a n) (h' : AgreeOn m' m'' a n) : AgreeOn m m'' a n :=
  fun j hj => (h' j hj).trans (h j hj)

theorem AgreeOn.mono {m m' : Memory} {a n b k : Nat} (h : AgreeOn m m' a n)
    (ha : a ≤ b) (hn : b + k ≤ a + n) : AgreeOn m m' b k := by
  intro j hj
  have eq : b + j = a + (b + j - a) := by omega
  rw [eq]
  exact h _ (by omega)

theorem AgreeOn.apply {m m' : Memory} {a n x : Nat} (h : AgreeOn m m' a n)
    (lo : a ≤ x) (hi : x < a + n) : m' x = m x := by
  have eq : x = a + (x - a) := by omega
  rw [eq]
  exact h _ (by omega)

theorem readWord_congr {m m' : Memory} {a b : Nat} (h : ∀ j, j < 4 → m' (b + j) = m (a + j)) :
    readWord m' b = readWord m a := by
  have first := h 0 (by decide)
  simp only [Nat.add_zero] at first
  simp only [readWord, first, h 1 (by decide), h 2 (by decide), h 3 (by decide)]

theorem AgreeOn.readWord {m m' : Memory} {a n b : Nat} (h : AgreeOn m m' a n)
    (lo : a ≤ b) (hi : b + 4 ≤ a + n) : readWord m' b = readWord m b :=
  readWord_congr fun _ _ => h.apply (by omega) (by omega)

/-- A word determines its bytes. -/
theorem readWord_inj {m m' : Memory} {a b : Nat} (eq : readWord m' b = readWord m a)
    {j : Nat} (hj : j < 4) : m' (b + j) = m (a + j) := by
  have bytes : ∀ (m : Memory) (x : Nat), (m x).toNat < 256 := fun m x => (m x).toNat_lt
  have := bytes m a
  have := bytes m (a + 1)
  have := bytes m (a + 2)
  have := bytes m (a + 3)
  have := bytes m' b
  have := bytes m' (b + 1)
  have := bytes m' (b + 2)
  have := bytes m' (b + 3)
  simp only [readWord] at eq
  refine UInt8.toNat_inj.mp ?_
  match j, hj with
  | 0, _ => simp only [Nat.add_zero]; omega
  | 1, _ => omega
  | 2, _ => omega
  | 3, _ => omega

theorem readWord_writeWord (m : Memory) (a : Nat) {w : Nat} (h : w < 4294967296) :
    readWord (writeWord m a w) a = w := by
  have h1 : a + 1 ≠ a := by omega
  have h2 : a + 2 ≠ a ∧ a + 2 ≠ a + 1 := by omega
  have h3 : a + 3 ≠ a ∧ a + 3 ≠ a + 1 ∧ a + 3 ≠ a + 2 := by omega
  simp only [readWord, writeWord, if_true, h1, h2, h3, if_false, UInt8.toNat_ofNat']
  omega

theorem writeWord_of_inside (m : Memory) {a w i : Nat} (h : i < 4) :
    writeWord m a w (a + i) = UInt8.ofNat (w / 256 ^ i) := by
  match i, h with
  | 0, _ => simp [writeWord]
  | 1, _ => simp [writeWord]
  | 2, _ => simp [writeWord]
  | 3, _ => simp [writeWord]

theorem writeWord_of_outside (m : Memory) {a w x : Nat} (h : x < a ∨ a + 4 ≤ x) :
    writeWord m a w x = m x := by
  have h0 : x ≠ a := by omega
  have h1 : x ≠ a + 1 := by omega
  have h2 : x ≠ a + 2 := by omega
  have h3 : x ≠ a + 3 := by omega
  simp only [writeWord, h0, h1, h2, h3, if_false]

theorem writeWord_agreeOn (m : Memory) {a w b n : Nat} (h : b + n ≤ a ∨ a + 4 ≤ b) :
    AgreeOn m (writeWord m a w) b n :=
  fun _ _ => writeWord_of_outside m (by omega)

theorem writeByte_agreeOn (m : Memory) {a b n : Nat} (v : UInt8) (h : b + n ≤ a ∨ a < b) :
    AgreeOn m (writeByte m a v) b n := by
  intro j hj
  have ne : b + j ≠ a := by omega
  simp only [writeByte, ne, if_false]

theorem memcpy_of_outside (m : Memory) {dest src n x : Nat} (h : x < dest ∨ dest + n ≤ x) :
    memcpy m dest src n x = m x := by
  have no : ¬ (dest ≤ x ∧ x < dest + n) := by omega
  simp only [memcpy, no, if_false]

theorem memcpy_of_inside (m : Memory) {dest src n j : Nat} (h : j < n) :
    memcpy m dest src n (dest + j) = m (src + j) := by
  have yes : dest ≤ dest + j ∧ dest + j < dest + n := by omega
  simp only [memcpy, yes, and_self, if_true, Nat.add_sub_cancel_left]

/-- A copy between ranges that do not overlap may start with its first byte. -/
theorem memcpy_succ (m : Memory) {dest src n : Nat} (apart : src + (n + 1) ≤ dest ∨ dest < src) :
    memcpy (writeByte m dest (m src)) (dest + 1) (src + 1) n = memcpy m dest src (n + 1) := by
  funext x
  by_cases first : x = dest
  · subst first
    have inside : memcpy m x src (n + 1) x = m src := memcpy_of_inside m (j := 0) (by omega)
    rw [memcpy_of_outside _ (by omega), inside]
    simp only [writeByte, if_true]
  · by_cases rest : dest < x ∧ x < dest + (n + 1)
    · obtain ⟨j, rfl⟩ : ∃ j, x = dest + 1 + j := ⟨x - dest - 1, by omega⟩
      have ne : src + (1 + j) ≠ dest := by omega
      rw [memcpy_of_inside _ (by omega), Nat.add_assoc dest 1 j, memcpy_of_inside _ (by omega),
        Nat.add_assoc src 1 j]
      simp only [writeByte, ne, if_false]
    · rw [memcpy_of_outside _ (by omega), memcpy_of_outside _ (by omega)]
      simp only [writeByte, first, if_false]

end ByteMemory
