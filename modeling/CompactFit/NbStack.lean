import CompactFit.Library.LifoStack
import CompactFit.Library.LinkedChain
import Mathlib.Algebra.Ring.Nat

/-!
The lock-free stack that holds the shared buckets. Its head is one 64-bit word: the address
of the first element without its low zero bits, and above it a version number that every
update increments. A thread takes one step for each access to shared memory.
-/

namespace CompactFit
namespace NbStack
open Function LifoStack LinkedChain

/-- The address bits of a head word: `PAGE_BITS` of `page_put` and `page_get`, `AA_BITS` of
`aa_put` and `aa_get`. -/
structure Layout where
  bits : Nat
  pos : 0 < bits
  le : bits ≤ 30

def Layout.shift (l : Layout) : Nat := 32 - l.bits

def Layout.mask (l : Layout) : BitVec 32 := 1#32 <<< l.bits - 1#32

def pageLayout : Layout := { bits := 18, pos := by decide, le := by decide }

def aaLayout : Layout := { bits := 30, pos := by decide, le := by decide }

example : pageLayout.shift = 14 ∧ aaLayout.shift = 2 := by decide

/-- A 32-bit address; `0` is `NULL`. -/
abbrev Elem := BitVec 32

def lifoToElem (l : Layout) (stack : BitVec 64) : Elem :=
  (stack.setWidth 32 &&& l.mask) <<< l.shift

def lifoToCount (l : Layout) (stack : BitVec 64) : BitVec 64 := stack >>> l.bits

def pack (l : Layout) (p : Elem) (count : BitVec 64) : BitVec 64 :=
  (p >>> l.shift).setWidth 64 ||| count <<< l.bits

/-- The argument of the assertion in `nb_stack_put`. -/
def aligned (l : Layout) (p : Elem) : Bool := p &&& ~~~(l.mask <<< l.shift) == 0

section Words
variable {l : Layout} {p : Elem} {count : BitVec 64}

@[simp] theorem Layout.toNat_mask (l : Layout) : l.mask.toNat = 2 ^ l.bits - 1 := by
  have le := l.le
  have small : 2 ^ l.bits < 2 ^ 32 := Nat.pow_lt_pow_right (by decide) (by omega)
  have pos := Nat.two_pow_pos l.bits
  rw [Layout.mask, BitVec.toNat_sub, BitVec.toNat_shiftLeft, BitVec.toNat_one (by decide),
    Nat.shiftLeft_eq, Nat.one_mul, Nat.mod_eq_of_lt small]
  omega

@[simp] theorem Layout.getLsbD_mask (l : Layout) (i : Nat) :
    l.mask.getLsbD i = decide (i < l.bits) := by
  rw [BitVec.getLsbD, l.toNat_mask, Nat.testBit_two_pow_sub_one]

theorem getLsbD_lifoToElem (stack : BitVec 64) {i : Nat} (lt : i < 32) :
    (lifoToElem l stack).getLsbD i = (decide (l.shift ≤ i) && stack.getLsbD (i - l.shift)) := by
  have le := l.le
  have pos := l.pos
  simp only [lifoToElem, BitVec.getLsbD_shiftLeft, BitVec.getLsbD_and, BitVec.getLsbD_setWidth,
    Layout.getLsbD_mask, lt, decide_true, Bool.true_and]
  by_cases low : i < l.shift
  · simp [low, Nat.not_le.mpr low]
  · have : i - l.shift < 32 := by omega
    have : i - l.shift < l.bits := by unfold Layout.shift at *; omega
    simp [*, Nat.le_of_not_lt low]

theorem aligned_iff : aligned l p = true ↔ ∀ i, i < l.shift → p.getLsbD i = false := by
  have le := l.le
  rw [aligned, beq_iff_eq]
  constructor
  · intro h i lt
    have bit := congrArg (BitVec.getLsbD · i) h
    have small : i < 32 := by unfold Layout.shift at lt; omega
    simpa [small, lt] using bit
  · intro low
    refine BitVec.eq_of_getLsbD_eq fun i small => ?_
    by_cases lt : i < l.shift
    · simp [low i lt]
    · have : i - l.shift < l.bits := by unfold Layout.shift at *; omega
      simp [small, lt, this]

theorem lifoToElem_pack (fits : aligned l p = true) : lifoToElem l (pack l p count) = p := by
  have le := l.le
  refine BitVec.eq_of_getLsbD_eq fun i small => ?_
  rw [getLsbD_lifoToElem _ small]
  by_cases low : i < l.shift
  · simp [Nat.not_le.mpr low, aligned_iff.mp fits i low]
  · have inside : i - l.shift < l.bits := by unfold Layout.shift at *; omega
    have back : l.shift + (i - l.shift) = i := by omega
    have wide : i < 64 := by omega
    simp [pack, Nat.le_of_not_lt low, inside, back, wide, Nat.lt_of_le_of_lt (Nat.sub_le i _) wide]

/-- The version keeps the bits that the head word has room for. -/
theorem lifoToCount_pack :
    (lifoToCount l (pack l p count)).toNat = count.toNat % 2 ^ (64 - l.bits) := by
  have le := l.le
  refine Nat.eq_of_testBit_eq fun i => ?_
  rw [Nat.testBit_mod_two_pow, ← BitVec.getLsbD, ← BitVec.getLsbD, lifoToCount, pack,
    BitVec.getLsbD_ushiftRight, BitVec.getLsbD_or, BitVec.getLsbD_setWidth,
    BitVec.getLsbD_ushiftRight, BitVec.getLsbD_shiftLeft]
  have above : p.getLsbD (l.shift + (l.bits + i)) = false :=
    BitVec.getLsbD_of_ge _ _ (by unfold Layout.shift; omega)
  have room : l.bits + i < 64 ↔ i < 64 - l.bits := by omega
  simp [above, room, Nat.not_lt.mpr (Nat.le_add_right l.bits i)]

/-- The version of the next head word. -/
theorem lifoToCount_succ {old : BitVec 64} {n : Nat}
    (h : (lifoToCount l old).toNat = n % 2 ^ (64 - l.bits)) :
    (lifoToCount l (pack l p (lifoToCount l old + 1))).toNat = (n + 1) % 2 ^ (64 - l.bits) := by
  have divides : 2 ^ (64 - l.bits) ∣ 2 ^ 64 := Nat.pow_dvd_pow 2 (Nat.sub_le 64 l.bits)
  rw [lifoToCount_pack, BitVec.toNat_add, Nat.mod_mod_of_dvd _ divides, h]
  exact Nat.mod_add_mod n _ 1

@[simp] theorem aligned_zero : aligned l 0 = true :=
  aligned_iff.mpr fun _ _ => BitVec.getLsbD_zero

@[simp] theorem lifoToElem_zero : lifoToElem l 0 = 0 := by simp [lifoToElem]

@[simp] theorem lifoToCount_zero : lifoToCount l 0 = 0 := by simp [lifoToCount]

end Words

/-- The shared memory: the head word, and `next` of every element. -/
structure Memory where
  head : BitVec 64
  next : Elem → Elem

def Memory.setNext (m : Memory) (x v : Elem) : Memory := { m with next := update m.next x v }

/-- The atomic compare-and-swap on the head word returns the word that it found. -/
def cmpxchg64 (m : Memory) (old new : BitVec 64) : BitVec 64 × Memory :=
  (m.head, if m.head = old then { m with head := new } else m)

/-- Where a thread is in `nb_stack_put` or `nb_stack_get`, with the variables it has set. -/
inductive Local where
  | idle
  /-- The assertion of `nb_stack_put` has failed. -/
  | aborted
  | putHead (p last : Elem)
  | putLink (p last : Elem) (old : BitVec 64)
  | putSwap (p last : Elem) (old : BitVec 64)
  | getHead
  | getNext (old : BitVec 64)
  | getSwap (old : BitVec 64) (next : Elem)
deriving DecidableEq

inductive Result where
  | put
  | got (p : Elem)

/-- The call of `nb_stack_put`, up to its first memory access. -/
def nbStackPut (l : Layout) (p last : Elem) : Local :=
  if aligned l p then .putHead p last else .aborted

/-- The call of `nb_stack_get`, up to its first memory access. -/
def nbStackGet : Local := .getHead

/-- The next memory access of a thread, and what it returns when it is through. -/
def access (l : Layout) : Local → Memory → Local × Memory × Option Result
  | .idle, m => (.idle, m, none)
  | .aborted, m => (.aborted, m, none)
  | .putHead p last, m => (.putLink p last m.head, m, none)
  | .putLink p last old, m => (.putSwap p last old, m.setNext last (lifoToElem l old), none)
  | .putSwap p last old, m =>
      let swap := cmpxchg64 m old (pack l p (lifoToCount l old + 1))
      if swap.1 = old then (.idle, swap.2, some .put) else (.putHead p last, swap.2, none)
  | .getHead, m =>
      if lifoToElem l m.head = 0 then (.idle, m, some (.got 0)) else (.getNext m.head, m, none)
  | .getNext old, m => (.getSwap old (m.next (lifoToElem l old)), m, none)
  | .getSwap old next, m =>
      let swap := cmpxchg64 m old (pack l next (lifoToCount l old + 1))
      if swap.1 = old then (.idle, swap.2, some (.got (lifoToElem l old)))
      else (.getHead, swap.2, none)

/-- A run of any number of threads. The code has the memory and where each thread is; the
other fields say who may use an element, which chain a thread puts, how many updates there
have been, and how many when a thread last read the head word. -/
structure System (τ : Type) where
  memory : Memory
  locals : τ → Local
  held : τ → Finset Elem
  chain : τ → List Elem
  updates : Nat
  since : τ → Nat

inductive Action (τ : Type) where
  | callPut (t : τ) (p last : Elem) (xs : List Elem)
  | callGet (t : τ)
  | access (t : τ)
  /-- The owner of an element writes the word that is its `next` field on the stack. -/
  | write (t : τ) (x v : Elem)
  | pass (t u : τ) (x : Elem)

def Local.readsHead : Local → Bool
  | .putHead .. | .getHead => true
  | _ => false

def Local.swaps : Local → Bool
  | .putSwap .. | .getSwap .. => true
  | _ => false

variable {τ : Type} [DecidableEq τ]

def System.setLocal (S : System τ) (t : τ) (c : Local) : System τ :=
  { S with locals := update S.locals t c }

/-- What a finished operation means to the threads. -/
def System.finish (S : System τ) (t : τ) : Option Result → System τ × Option (Event τ Elem)
  | none => (S, none)
  | some .put =>
      ({ S with held := release S.held t (S.chain t), updates := S.updates + 1 },
        some (.push t (S.chain t)))
  | some (.got p) =>
      if p = 0 then (S, some (.empty t))
      else ({ S with held := acquire S.held t p, updates := S.updates + 1 }, some (.pop t p))

def System.perform (l : Layout) (S : System τ) : Action τ → System τ × Option (Event τ Elem)
  | .callPut t p last xs =>
      ({ S.setLocal t (nbStackPut l p last) with chain := update S.chain t xs }, none)
  | .callGet t => (S.setLocal t nbStackGet, none)
  | .access t =>
      let r := NbStack.access l (S.locals t) S.memory
      let since := if (S.locals t).readsHead then update S.since t S.updates else S.since
      { S.setLocal t r.1 with memory := r.2.1, since := since }.finish t r.2.2
  | .write _ x v => ({ S with memory := S.memory.setNext x v }, none)
  | .pass t u x =>
      ({ S with held := acquire (release S.held t [x]) u x }, some (.pass t u x))

/-- What the callers owe: only the holder of an element uses it, `last` is reached from `p`,
and a compare-and-swap comes before the version has gone once around. -/
def System.Allowed (l : Layout) (S : System τ) : Action τ → Prop
  | .callPut t p last xs => S.locals t = .idle ∧ xs.Nodup ∧ xs.toFinset ⊆ S.held t ∧
      follow S.memory.next xs.length p = xs ∧ xs.getLast? = some last
  | .callGet t => S.locals t = .idle
  | .access t => (S.locals t).swaps = true → S.updates - S.since t < 2 ^ (64 - l.bits)
  | .write t x _ => S.locals t = .idle ∧ x ∈ S.held t
  | .pass t _ x => S.locals t = .idle ∧ x ∈ S.held t

instance (l : Layout) (S : System τ) : (a : Action τ) → Decidable (S.Allowed l a)
  | .callPut .. => inferInstanceAs (Decidable (_ ∧ _ ∧ _ ∧ _ ∧ _))
  | .callGet _ => inferInstanceAs (Decidable (_ = _))
  | .access _ => inferInstanceAs (Decidable (_ → _))
  | .write .. | .pass .. => inferInstanceAs (Decidable (_ ∧ _))

/-- Runs with the operations in the order in which they take effect. -/
inductive Run (l : Layout) (S₀ : System τ) : List (Event τ Elem) → System τ → Prop where
  | init : Run l S₀ [] S₀
  | step {trace : List (Event τ Elem)} {S : System τ} (a : Action τ) : Run l S₀ trace S →
      S.Allowed l a → Run l S₀ (trace ++ (S.perform l a).2.toList) (S.perform l a).1

/-- `NB_STACK_INITIALIZER`, with the elements handed out to the threads. -/
structure System.Initial (l : Layout) (items : Finset Elem) (S : System τ) : Prop where
  head : S.memory.head = 0
  idle : ∀ t, S.locals t = .idle
  updates : S.updates = 0
  exclusive : Exclusive items ⟨[], S.held⟩
  usable : ∀ x, x ∈ items → x ≠ 0 ∧ aligned l x = true

end NbStack
end CompactFit
