import CompactFit.PageInvariant
import Mathlib.Algebra.BigOperators.Group.Finset.Basic
import Mathlib.Algebra.Order.BigOperators.Group.Finset

/-!
Who owns which page block. A live object owns the block its abstract address
designates; a running or suspended free owns its target block and the source
block it copies from, and holds source entries of pages. `Owns` is the invariant
over this view of the heap, and the lemmas say how each elementary step of
`cf_malloc`, `cf_free` and `do_compaction` moves ownership.
-/

namespace CompactFit
open Function ByteMemory

/-- An object of the application: the size class of its request, and the bytes it
asked for and last wrote. -/
structure Obj where
  sc : Nat
  size : Nat
  bytes : Nat → UInt8

structure Block where
  page : Nat
  index : Nat
deriving DecidableEq

/-- What ownership is about: used bits, source entries, classes of pages, memory
and the words of the abstract addresses. -/
structure View where
  used : Block → Prop
  entries : Nat → Nat
  sc : Nat → Nat
  memory : Memory
  word : Nat → Nat

namespace View

def size (v : View) (B : Block) : Nat := blockSize (v.sc B.page)
def start (v : View) (B : Block) : Nat := blockStart B.page B.index (v.size B)
def back (v : View) (B : Block) : Nat := readWord v.memory (addressField B.page B.index (v.size B))
def part (v : View) (B : Block) : Nat :=
  readWord v.memory (partitionField B.page B.index (v.size B))

structure Placed (v : View) (B : Block) : Prop where
  sc : v.sc B.page < sizeClasses
  index : B.index < capacity (v.sc B.page)

/-- The block's last word points to the abstract address `a`. -/
structure Carries (v : View) (B : Block) (a : Nat) : Prop where
  placed : v.Placed B
  back : v.back B = a

def userBytes (cfg : Config) (size : Nat) : Nat :=
  if Incremental cfg size then size - 8 else size - 4

def Stores (cfg : Config) (v : View) (B : Block) (o : Obj) : Prop :=
  ∀ j, j < o.size → j < userBytes cfg (v.size B) → v.memory (v.start B + j) = o.bytes j

structure Same (v v' : View) (B : Block) : Prop where
  sc : v'.sc B.page = v.sc B.page
  memory : AgreeOn v.memory v'.memory (v.start B) (v.size B)

end View

/-! ### Block arithmetic -/

theorem addressField_eq {p i size : Nat} (h : 4 ≤ size) :
    addressField p i size = blockStart p i size + (size - 4) := by
  simp only [addressField, blockStart, Nat.add_mul, Nat.one_mul]
  omega

theorem partitionField_eq {p i size : Nat} (h : 8 ≤ size) :
    partitionField p i size = blockStart p i size + (size - 8) := by
  simp only [partitionField, blockStart, Nat.add_mul, Nat.one_mul]
  omega

namespace View
variable {v v' : View} {B C : Block} {a : Nat} {cfg : Config}

theorem Placed.size_ge (h : v.Placed B) : 16 ≤ v.size B := blockSize_min h.sc

theorem Placed.size_word (h : v.Placed B) : v.size B % 4 = 0 := blockSize_word h.sc

theorem Placed.within (h : v.Placed B) :
    B.page * pageSize ≤ v.start B ∧ v.start B + v.size B ≤ B.page * pageSize + pageDataSize := by
  have inside := block_inside h.index
  simp only [start, blockStart, size]
  omega

theorem Placed.back_eq (h : v.Placed B) :
    v.back B = readWord v.memory (v.start B + (v.size B - 4)) := by
  have := h.size_ge
  rw [back, addressField_eq (by omega)]
  rfl

theorem Placed.part_eq (h : v.Placed B) :
    v.part B = readWord v.memory (v.start B + (v.size B - 8)) := by
  have := h.size_ge
  rw [part, partitionField_eq (by omega)]
  rfl

theorem size_congr (sc : v'.sc B.page = v.sc B.page) : v'.size B = v.size B := by
  simp only [size, sc]

theorem start_congr (sc : v'.sc B.page = v.sc B.page) : v'.start B = v.start B := by
  simp only [start, size_congr sc]

theorem Placed.congr (h : v.Placed B) (sc : v'.sc B.page = v.sc B.page) : v'.Placed B :=
  ⟨sc ▸ h.sc, sc ▸ h.index⟩

theorem Placed.back_congr (h : v.Placed B) (sc : v'.sc B.page = v.sc B.page)
    (agree : AgreeOn v.memory v'.memory (v.start B + (v.size B - 4)) 4) :
    v'.back B = v.back B := by
  rw [(h.congr sc).back_eq, h.back_eq, start_congr sc, size_congr sc]
  exact agree.readWord le_rfl le_rfl

theorem Placed.part_congr (h : v.Placed B) (sc : v'.sc B.page = v.sc B.page)
    (agree : AgreeOn v.memory v'.memory (v.start B + (v.size B - 8)) 4) :
    v'.part B = v.part B := by
  rw [(h.congr sc).part_eq, h.part_eq, start_congr sc, size_congr sc]
  exact agree.readWord le_rfl le_rfl

theorem Placed.disjoint (hB : v.Placed B) (hC : v.Placed C) (ne : B ≠ C) :
    v.start B + v.size B ≤ v.start C ∨ v.start C + v.size C ≤ v.start B := by
  have inB := hB.within
  have inC := hC.within
  have data : pageDataSize ≤ pageSize := by decide
  rcases Nat.lt_trichotomy B.page C.page with lt | eq | gt
  · have := Nat.mul_le_mul_right pageSize (Nat.succ_le_of_lt lt)
    rw [Nat.succ_mul] at this
    omega
  · have sizes : v.size B = v.size C := by simp only [size, eq]
    have index : B.index ≠ C.index := fun h => ne (by cases B; cases C; simp_all)
    simp only [start, blockStart, sizes, eq]
    rcases Nat.lt_or_gt_of_ne index with lt | gt
    · have := Nat.mul_le_mul_right (v.size C) (Nat.succ_le_of_lt lt)
      rw [Nat.succ_mul] at this
      omega
    · have := Nat.mul_le_mul_right (v.size C) (Nat.succ_le_of_lt gt)
      rw [Nat.succ_mul] at this
      omega
  · have := Nat.mul_le_mul_right pageSize (Nat.succ_le_of_lt gt)
    rw [Nat.succ_mul] at this
    omega

theorem Placed.start_inj (hB : v.Placed B) (hC : v.Placed C) (eq : v.start B = v.start C) :
    B = C := by
  by_contra ne
  have := hB.disjoint hC ne
  have := hB.size_ge
  have := hC.size_ge
  omega

theorem Placed.pageOfBlock (h : v.Placed B) {x : Nat} (lo : v.start B ≤ x)
    (hi : x < v.start B + v.size B) : pageOfBlock x = B.page := by
  have within := h.within
  have data : pageDataSize ≤ pageSize := by decide
  simp only [CompactFit.pageOfBlock, pageSize] at within data ⊢
  omega

theorem Placed.indexOfBlock (h : v.Placed B) {x : Nat} (lo : v.start B ≤ x)
    (hi : x < v.start B + v.size B) : indexOfBlock B.page x (v.size B) = B.index := by
  have pos := h.size_ge
  simp only [start, blockStart] at lo hi
  have lower : B.index * v.size B ≤ x - B.page * pageSize := by omega
  have upper : x - B.page * pageSize < (B.index + 1) * v.size B := by
    rw [Nat.add_mul, Nat.one_mul]; omega
  exact Nat.div_eq_of_lt_le lower upper

namespace Same

theorem size (same : Same v v' B) : v'.size B = v.size B := size_congr same.sc

theorem start (same : Same v v' B) : v'.start B = v.start B := start_congr same.sc

theorem placed (same : Same v v' B) (h : v.Placed B) : v'.Placed B := h.congr same.sc

theorem back (same : Same v v' B) (h : v.Placed B) : v'.back B = v.back B := by
  have := h.size_ge
  exact h.back_congr same.sc (same.memory.mono (by omega) (by omega))

theorem part (same : Same v v' B) (h : v.Placed B) : v'.part B = v.part B := by
  have := h.size_ge
  exact h.part_congr same.sc (same.memory.mono (by omega) (by omega))

theorem carries (same : Same v v' B) (h : v.Carries B a) : v'.Carries B a :=
  ⟨same.placed h.placed, (same.back h.placed).trans h.back⟩

theorem stores (same : Same v v' B) (h : v.Placed B) {o : Obj} (stores : v.Stores cfg B o) :
    v'.Stores cfg B o := by
  have := h.size_ge
  intro j hj user
  rw [same.size] at user
  have bound : userBytes cfg (v.size B) ≤ v.size B - 4 := by
    simp only [userBytes]; split <;> omega
  rw [same.start, same.memory j (by omega)]
  exact stores j hj user

end Same

end View

/-! ### Frames -/

/-- The source of a compaction: the block, the abstract address of its object and
the number of bytes copied; `linked` says that the partition fields are set. -/
structure Source where
  block : Block
  address : Nat
  copied : Nat
  linked : Bool

/-- What one call of `cf_free` owns. Without a target block it keeps its address
only, whose word is `lost`. -/
structure Frame where
  sc : Nat
  address : Nat
  target : Option Block
  source : Option Source
  held : Option Nat
  lost : Nat

def Frame.start (c a : Nat) (B : Block) : Frame :=
  { sc := c, address := a, target := some B, source := none, held := none, lost := 0 }

abbrev Frames := Nat → Option Frame
abbrev Live := Nat → Option Obj

/-- The source entries of page `p` a call accounts for. -/
def Frame.entries (p : Nat) : Option Frame → Nat
  | none => 0
  | some f =>
      (match f.source with
        | some s => if s.block.page = p then 1 else 0
        | none => 0) +
      match f.held with
        | some q => if q = p then 1 else 0
        | none => 0

theorem Frame.entries_none (p : Nat) : Frame.entries p none = 0 := rfl

theorem Frame.entries_bare {f : Frame} (p : Nat) (source : f.source = none)
    (held : f.held = none) : Frame.entries p (some f) = 0 := by
  simp only [Frame.entries, source, held]

def Moving (F : Frames) (a : Nat) : Prop :=
  ∃ t f s, F t = some f ∧ f.source = some s ∧ s.address = a

/-- A live object that no compaction is moving. -/
structure StillOk (cfg : Config) (v : View) (a : Nat) (o : Obj) (B : Block) : Prop where
  used : v.used B
  carries : v.Carries B a
  word : v.word a = v.start B
  stores : v.Stores cfg B o
  part : Incremental cfg (v.size B) → v.part B = 0
  sc : v.sc B.page = o.sc

/-- A compaction from the block of `s` into `B`: the object is complete in the
source block, and the target block has a prefix of it. -/
structure SourceOk (cfg : Config) (v : View) (B : Block) (s : Source) (o : Obj) : Prop where
  sc : v.sc s.block.page = v.sc B.page
  unused : ¬ v.used s.block
  carries : v.Carries s.block s.address
  word : v.word s.address = v.start s.block + 1
  stores : v.Stores cfg s.block o
  copied : s.copied + 4 ≤ v.size B
  copied_inc : 0 < s.copied → Incremental cfg (v.size B)
  before : ∀ j, j < s.copied → j + 8 < v.size B →
    v.memory (v.start B + j) = v.memory (v.start s.block + j)
  linked : s.linked = true → Incremental cfg (v.size B) ∧ v.part B = v.start s.block ∧
    v.part s.block = v.start B
  obj : v.sc B.page = o.sc
  chunks : cfg.incrementalMemcpy ∣ s.copied

structure FrameOk (cfg : Config) (v : View) (live : Live) (f : Frame) : Prop where
  target : ∀ B, f.target = some B → v.used B ∧ v.Carries B f.address ∧
    v.word f.address = v.start B ∧ v.sc B.page = f.sc
  lost : f.target = none → v.word f.address = f.lost ∧ f.source = none
  source : ∀ s, f.source = some s → ∃ B o, f.target = some B ∧ live s.address = some o ∧
    SourceOk cfg v B s o
  held : ∀ p, f.held = some p → v.sc p = f.sc

/-- The ownership invariant for the calls of the first `T` threads. -/
structure Owns (cfg : Config) (T : Nat) (v : View) (live : Live) (F : Frames) : Prop where
  frame : ∀ t f, F t = some f → FrameOk cfg v live f
  still : ∀ a o, live a = some o → ¬ Moving F a → ∃ B, StillOk cfg v a o B
  owned : ∀ B, v.used B → (∃ a o, live a = some o ∧ ¬ Moving F a ∧ StillOk cfg v a o B) ∨
    ∃ t f, F t = some f ∧ f.target = some B
  ledger : ∀ p, v.entries p = ∑ t ∈ Finset.range T, Frame.entries p (F t)
  thread : ∀ t f, F t = some f → t < T
  dead : ∀ t f, F t = some f → live f.address = none
  address_inj : ∀ t t' f f', F t = some f → F t' = some f' → f.address = f'.address → t = t'
  source_inj : ∀ t t' f f' s s', F t = some f → F t' = some f' → f.source = some s →
    f'.source = some s' → s.address = s'.address → t = t'

/-! ### Carrying ownership facts over a change of the view -/

def View.InUse (v : View) (p : Nat) : Prop := (∃ i, v.used ⟨p, i⟩) ∨ 0 < v.entries p

/-- From `v` to `v'`, the pages that stay in use keep their class, and their blocks
keep their bytes, except for the `changed` blocks. -/
structure View.Keeps (v v' : View) (changed : Block → Prop) : Prop where
  sc : ∀ p, v'.InUse p → v'.sc p = v.sc p
  memory : ∀ B, ¬ changed B → v.Placed B → v'.InUse B.page →
    AgreeOn v.memory v'.memory (v.start B) (v.size B)

section Transport
variable {cfg : Config} {T : Nat} {v v' : View} {live live' : Live} {F : Frames} {f : Frame}
  {changed : Block → Prop} {B C : Block} {a b : Nat}

theorem View.Keeps.same (keeps : v.Keeps v' changed) (hB : ¬ changed B) (placed : v.Placed B)
    (inUse : v'.InUse B.page) : v.Same v' B :=
  ⟨keeps.sc _ inUse, keeps.memory B hB placed inUse⟩

theorem View.used_inUse (h : v.used B) : v.InUse B.page := .inl ⟨B.index, h⟩

theorem View.Carries.ne (hB : v.Carries B a) (hC : v.Carries C b) (ne : a ≠ b) : B ≠ C := by
  rintro rfl
  exact ne (hB.back.symm.trans hC.back)

theorem StillOk.transport {o : Obj} (ok : StillOk cfg v a o B) (keeps : v.Keeps v' changed)
    (hB : ¬ changed B) (used : v'.used B) (word : v'.word a = v.word a) :
    StillOk cfg v' a o B := by
  have same := keeps.same hB ok.carries.placed (View.used_inUse used)
  refine ⟨used, same.carries ok.carries, by rw [word, same.start, ok.word],
    same.stores ok.carries.placed ok.stores, fun inc => ?_, same.sc.trans ok.sc⟩
  rw [same.part ok.carries.placed]
  exact ok.part (by rwa [same.size] at inc)

theorem SourceOk.transport {s : Source} {o : Obj} (ok : SourceOk cfg v B s o)
    (hB : v.Placed B) (sameB : v.Same v' B) (sameS : v.Same v' s.block)
    (unused : ¬ v'.used s.block) (word : v'.word s.address = v.word s.address) :
    SourceOk cfg v' B s o := by
  have placed := ok.carries.placed
  have sizes : v.size s.block = v.size B := by simp only [View.size, ok.sc]
  refine ⟨by rw [sameS.sc, sameB.sc, ok.sc], unused, sameS.carries ok.carries,
    by rw [word, sameS.start, ok.word], sameS.stores placed ok.stores,
    by rw [sameB.size]; exact ok.copied, by rw [sameB.size]; exact ok.copied_inc, ?_, ?_,
    sameB.sc.trans ok.obj, ok.chunks⟩
  · intro j hj low
    rw [sameB.size] at low
    rw [sameB.start, sameS.start, sameB.memory j (by omega), sameS.memory j (by omega)]
    exact ok.before j hj low
  · intro linked
    rw [sameB.size, sameB.part hB, sameS.part placed, sameB.start, sameS.start]
    exact ok.linked linked

theorem FrameOk.transport (ok : FrameOk cfg v live f) (keeps : v.Keeps v' changed)
    (target : ∀ B, f.target = some B → ¬ changed B ∧ v'.used B)
    (source : ∀ s, f.source = some s → ¬ changed s.block ∧ ¬ v'.used s.block ∧
      0 < v'.entries s.block.page ∧ v'.word s.address = v.word s.address ∧
      live' s.address = live s.address)
    (held : ∀ p, f.held = some p → 0 < v'.entries p)
    (word : v'.word f.address = v.word f.address) : FrameOk cfg v' live' f := by
  refine ⟨?_, ?_, ?_, ?_⟩
  · intro B hB
    obtain ⟨_, carries, start, sc⟩ := ok.target B hB
    obtain ⟨fixed, used⟩ := target B hB
    have same := keeps.same fixed carries.placed (View.used_inUse used)
    exact ⟨used, same.carries carries, by rw [word, same.start, start], by rw [same.sc, sc]⟩
  · intro none
    rw [word]
    exact ok.lost none
  · intro s hs
    obtain ⟨B, o, hB, hlive, sok⟩ := ok.source s hs
    obtain ⟨fixedS, unused, entries, wordS, liveS⟩ := source s hs
    obtain ⟨fixed, used⟩ := target B hB
    have placed := (ok.target B hB).2.1.placed
    refine ⟨B, o, hB, by rw [liveS, hlive], sok.transport placed
      (keeps.same fixed placed (View.used_inUse used))
      (keeps.same fixedS sok.carries.placed (.inr entries)) unused wordS⟩
  · intro p hp
    rw [keeps.sc p (.inr (held p hp))]
    exact ok.held p hp

/-- Exchanging one summand of a sum over the threads. -/
theorem sum_update_add {α : Type} (F : Nat → α) (f : α → Nat) {t : Nat} (ht : t < T) (x : α) :
    (∑ s ∈ Finset.range T, f (update F t x s)) + f (F t) =
      (∑ s ∈ Finset.range T, f (F s)) + f x := by
  have mem : t ∈ Finset.range T := Finset.mem_range.mpr ht
  have rest : ∑ s ∈ (Finset.range T).erase t, f (update F t x s) =
      ∑ s ∈ (Finset.range T).erase t, f (F s) := by
    refine Finset.sum_congr rfl fun s hs => ?_
    rw [update_of_ne (Finset.ne_of_mem_erase hs)]
  rw [← Finset.add_sum_erase _ _ mem, rest, update_self]
  rw [← Finset.add_sum_erase _ (fun s => f (F s)) mem]
  omega

/-- Exchanging one call's frame moves its source entries. -/
theorem sum_entries_update (F : Frames) {t : Nat} (ht : t < T) (x : Option Frame) (p : Nat) :
    (∑ s ∈ Finset.range T, Frame.entries p (update F t x s)) + Frame.entries p (F t) =
      (∑ s ∈ Finset.range T, Frame.entries p (F s)) + Frame.entries p x :=
  sum_update_add F (Frame.entries p) ht x

theorem entries_le_sum {t p : Nat} (ht : t < T) :
    Frame.entries p (F t) ≤ ∑ s ∈ Finset.range T, Frame.entries p (F s) :=
  Finset.single_le_sum (f := fun s => Frame.entries p (F s)) (fun _ _ => Nat.zero_le _)
    (Finset.mem_range.mpr ht)

theorem Frame.entries_source {s : Source} (h : f.source = some s) :
    0 < Frame.entries s.block.page (some f) := by
  simp only [Frame.entries, h, if_true]
  omega

theorem Frame.entries_held {p : Nat} (h : f.held = some p) : 0 < Frame.entries p (some f) := by
  simp only [Frame.entries, h, if_true]
  omega

/-- The pages of a call's source and of its held entry have source entries. -/
theorem entries_pos {t : Nat} (ht : t < T) (hF : F t = some f)
    (ledger : ∀ p, v.entries p = ∑ s ∈ Finset.range T, Frame.entries p (F s)) :
    (∀ s, f.source = some s → 0 < v.entries s.block.page) ∧
      ∀ p, f.held = some p → 0 < v.entries p := by
  constructor
  · intro s hs
    have := entries_le_sum (F := F) (p := s.block.page) ht
    have := Frame.entries_source hs
    rw [hF] at *
    rw [ledger]
    omega
  · intro p hp
    have := entries_le_sum (F := F) (p := p) ht
    have := Frame.entries_held hp
    rw [hF] at *
    rw [ledger]
    omega

end Transport

namespace Owns
variable {cfg : Config} {T : Nat} {v v' : View} {live : Live} {F : Frames} {t : Nat} {f : Frame}
  {B : Block}

theorem entries_pos (owns : Owns cfg T v live F) (hF : F t = some f) :
    (∀ s, f.source = some s → 0 < v.entries s.block.page) ∧
      ∀ p, f.held = some p → 0 < v.entries p :=
  CompactFit.entries_pos (owns.thread t f hF) hF owns.ledger

/-- A source block is in use although it is not marked. -/
theorem source_ok (owns : Owns cfg T v live F) (hF : F t = some f) {s : Source}
    (hs : f.source = some s) : ∃ B o, f.target = some B ∧ live s.address = some o ∧
      v.Carries B f.address ∧ SourceOk cfg v B s o := by
  obtain ⟨B, o, hB, hlive, ok⟩ := (owns.frame t f hF).source s hs
  exact ⟨B, o, hB, hlive, ((owns.frame t f hF).target B hB).2.1, ok⟩

theorem ne_source (owns : Owns cfg T v live F) {t' : Nat} {f' : Frame} (hF : F t = some f)
    (hF' : F t' = some f') {s : Source} (hs : f'.source = some s) : f.address ≠ s.address := by
  intro eq
  obtain ⟨_, o, _, hlive, _⟩ := (owns.frame t' f' hF').source s hs
  rw [← eq, owns.dead t f hF] at hlive
  cases hlive

/-- The heap may change where nothing is in use, and in the words of addresses
that nobody has. -/
theorem congr (owns : Owns cfg T v live F) (keeps : v.Keeps v' fun _ => False)
    (used : ∀ C, v'.used C ↔ v.used C) (entries : ∀ p, v'.entries p = v.entries p)
    (word : ∀ a, (live a ≠ none ∨ ∃ t f, F t = some f ∧ f.address = a) → v'.word a = v.word a) :
    Owns cfg T v' live F := by
  have still : ∀ {a o C}, live a = some o → StillOk cfg v a o C → StillOk cfg v' a o C :=
    fun hlive ok => ok.transport keeps id ((used _).mpr ok.used)
      (word _ (.inl (by rw [hlive]; simp)))
  refine ⟨?_, ?_, ?_, fun p => (entries p).trans (owns.ledger p), owns.thread, owns.dead,
    owns.address_inj, owns.source_inj⟩
  · intro t f hF
    have ok := owns.frame t f hF
    refine ok.transport keeps (fun B hB => ⟨id, (used B).mpr (ok.target B hB).1⟩) ?_ ?_
      (word _ (.inr ⟨t, f, hF, rfl⟩))
    · intro s hs
      obtain ⟨B, o, _, hlive, sok⟩ := ok.source s hs
      refine ⟨id, fun h => sok.unused ((used _).mp h), ?_, word _ (.inl (by rw [hlive]; simp)), rfl⟩
      rw [entries]
      exact (owns.entries_pos hF).1 s hs
    · intro p hp
      rw [entries]
      exact (owns.entries_pos hF).2 p hp
  · intro a o hlive notMoving
    obtain ⟨B, ok⟩ := owns.still a o hlive notMoving
    exact ⟨B, still hlive ok⟩
  · intro B hB
    rcases owns.owned B ((used B).mp hB) with ⟨a, o, hlive, notMoving, ok⟩ | owner
    · exact .inl ⟨a, o, hlive, notMoving, still hlive ok⟩
    · exact .inr owner

end Owns

/-- Marked as used, or the source of a compaction. -/
def Occupied (v : View) (F : Frames) (B : Block) : Prop :=
  v.used B ∨ ∃ t f s, F t = some f ∧ f.source = some s ∧ s.block = B

/-- The address of a call, and the address of the object it moves. -/
def Frame.Key (f : Frame) (a : Nat) : Prop := f.address = a ∨ ∃ s, f.source = some s ∧ s.address = a

namespace Owns
variable {cfg : Config} {T : Nat} {v v' : View} {live : Live} {F : Frames} {t : Nat} {f : Frame}
  {B : Block}

theorem key_inj (owns : Owns cfg T v live F) {t' : Nat} {f' : Frame} (hF : F t = some f)
    (hF' : F t' = some f') {a : Nat} (key : f.Key a) (key' : f'.Key a) : t = t' := by
  rcases key with rfl | ⟨s, hs, rfl⟩ <;> rcases key' with eq | ⟨s', hs', eq⟩
  · exact owns.address_inj t t' f f' hF hF' eq.symm
  · exact absurd eq.symm (owns.ne_source hF hF' hs')
  · exact absurd eq (owns.ne_source hF' hF hs)
  · exact owns.source_inj t t' f f' s s' hF hF' hs hs' eq.symm

/-- The owner of a used block is the address its last word points to. -/
theorem owner (owns : Owns cfg T v live F) {a : Nat} (used : v.used B) (carries : v.Carries B a) :
    (∃ o, live a = some o ∧ ¬ Moving F a ∧ StillOk cfg v a o B) ∨
      ∃ u f, F u = some f ∧ f.address = a ∧ f.target = some B := by
  rcases owns.owned B used with ⟨b, o, hlive, moving, ok⟩ | ⟨u, f, hF, hB⟩
  · have same : b = a := ok.carries.back.symm.trans carries.back
    subst same
    exact .inl ⟨o, hlive, moving, ok⟩
  · have other := ((owns.frame u f hF).target B hB).2.1
    exact .inr ⟨u, f, hF, other.back.symm.trans carries.back, hB⟩

/-- A step is local to the calls `D` and the addresses `K`: it has to establish the
invariant for these, and everything else carries over. -/
theorem local_step (owns : Owns cfg T v live F) {live' : Live} {F' : Frames} (D K : Nat → Prop)
    {changed : Block → Prop} (keeps : v.Keeps v' changed)
    (others : ∀ u, ¬ D u → F' u = F u)
    (keys : ∀ u f, D u → F u = some f → ∀ a, f.Key a → K a)
    (origin : ∀ a, K a → (∃ u f, D u ∧ F u = some f ∧ f.Key a) ∨
      ∀ u f, F u = some f → ¬ f.Key a)
    (untouched : ∀ C a, v.Carries C a → ¬ K a → Occupied v F C →
      ¬ changed C ∧ (v'.used C ↔ v.used C))
    (sameLive : ∀ a, ¬ K a → live' a = live a)
    (sameWord : ∀ a, ¬ K a → (live a ≠ none ∨ ∃ u f, F u = some f ∧ f.address = a) →
      v'.word a = v.word a)
    (ledger : ∀ p, v'.entries p = ∑ u ∈ Finset.range T, Frame.entries p (F' u))
    (mine : ∀ u f, D u → F' u = some f → FrameOk cfg v' live' f ∧ (∀ a, f.Key a → K a) ∧
      live' f.address = none ∧ u < T)
    (inj : ∀ u u' f f' a, D u → D u' → F' u = some f → F' u' = some f' → f.Key a → f'.Key a →
      u = u')
    (still : ∀ a o, K a → live' a = some o → ¬ Moving F' a → ∃ B, StillOk cfg v' a o B)
    (owned : ∀ C, v'.used C → ((∃ a, K a ∧ v.Carries C a) ∨ ¬ v.used C) →
      (∃ a o, live' a = some o ∧ ¬ Moving F' a ∧ StillOk cfg v' a o C) ∨
      ∃ u f, F' u = some f ∧ f.target = some C) :
    Owns cfg T v' live' F' := by
  have foreign : ∀ u f, ¬ D u → F u = some f → ∀ a, f.Key a → ¬ K a := by
    intro u f hu hF a key hK
    rcases origin a hK with ⟨u', f', hu', hF', key'⟩ | none
    · have same := owns.key_inj hF hF' key key'
      subst same
      exact hu hu'
    · exact none u f hF key
  have notMoving : ∀ a, ¬ K a → (Moving F' a ↔ Moving F a) := by
    intro a hK
    constructor
    · rintro ⟨u, g, s, hF', hs, rfl⟩
      by_cases hu : D u
      · exact absurd ((mine u g hu hF').2.1 s.address (.inr ⟨s, hs, rfl⟩)) hK
      · exact ⟨u, g, s, others u hu ▸ hF', hs, rfl⟩
    · rintro ⟨u, g, s, hF, hs, rfl⟩
      by_cases hu : D u
      · exact absurd (keys u g hu hF s.address (.inr ⟨s, hs, rfl⟩)) hK
      · exact ⟨u, g, s, (others u hu).trans hF, hs, rfl⟩
  have stillSame : ∀ {a o C}, ¬ K a → live a = some o → StillOk cfg v a o C →
      StillOk cfg v' a o C := by
    intro a o C hK hlive ok
    obtain ⟨fixed, used⟩ := untouched C a ok.carries hK (.inl ok.used)
    exact ok.transport keeps fixed (used.mpr ok.used) (sameWord a hK (.inl (by rw [hlive]; simp)))
  have injective : ∀ u u' f f' a, F' u = some f → F' u' = some f' → f.Key a → f'.Key a →
      u = u' := by
    intro u u' f f' a hF hF' key key'
    by_cases hu : D u <;> by_cases hu' : D u'
    · exact inj u u' f f' a hu hu' hF hF' key key'
    · exact absurd ((mine u f hu hF).2.1 a key) (foreign u' f' hu' (others u' hu' ▸ hF') a key')
    · exact absurd ((mine u' f' hu' hF').2.1 a key') (foreign u f hu (others u hu ▸ hF) a key)
    · exact owns.key_inj (others u hu ▸ hF) (others u' hu' ▸ hF') key key'
  refine ⟨?_, ?_, ?_, ledger, ?_, ?_,
    fun u u' f f' hF hF' eq => injective u u' f f' f.address hF hF' (.inl rfl) (.inl eq.symm),
    fun u u' f f' s s' hF hF' hs hs' eq => injective u u' f f' s.address hF hF'
      (.inr ⟨s, hs, rfl⟩) (.inr ⟨s', hs', eq.symm⟩)⟩
  · intro u f hF'
    by_cases hu : D u
    · exact (mine u f hu hF').1
    · have hF : F u = some f := others u hu ▸ hF'
      have ok := owns.frame u f hF
      have pos := CompactFit.entries_pos (owns.thread u f hF) hF' ledger
      have keyless := foreign u f hu hF
      refine ok.transport keeps ?_ ?_ pos.2
        (sameWord _ (keyless _ (.inl rfl)) (.inr ⟨u, f, hF, rfl⟩))
      · intro B hB
        obtain ⟨used, carries, _⟩ := ok.target B hB
        obtain ⟨fixed, same⟩ := untouched B _ carries (keyless _ (.inl rfl)) (.inl used)
        exact ⟨fixed, same.mpr used⟩
      · intro s hs
        obtain ⟨B, o, _, hlive, sok⟩ := ok.source s hs
        have hK := keyless s.address (.inr ⟨s, hs, rfl⟩)
        obtain ⟨fixed, same⟩ := untouched s.block _ sok.carries hK (.inr ⟨u, f, s, hF, hs, rfl⟩)
        exact ⟨fixed, fun used => sok.unused (same.mp used), pos.1 s hs,
          sameWord _ hK (.inl (by rw [hlive]; simp)), sameLive _ hK⟩
  · intro a o hlive moving
    by_cases hK : K a
    · exact still a o hK hlive moving
    · have hlive' : live a = some o := sameLive a hK ▸ hlive
      obtain ⟨B, ok⟩ := owns.still a o hlive' (fun m => moving ((notMoving a hK).mpr m))
      exact ⟨B, stillSame hK hlive' ok⟩
  · intro C used
    by_cases touched : (∃ a, K a ∧ v.Carries C a) ∨ ¬ v.used C
    · exact owned C used touched
    · push Not at touched
      rcases owns.owned C touched.2 with ⟨a, o, hlive, moving, ok⟩ | ⟨u, f, hF, hB⟩
      · have hK : ¬ K a := fun hK => touched.1 a hK ok.carries
        exact .inl ⟨a, o, (sameLive a hK).trans hlive, fun m => moving ((notMoving a hK).mp m),
          stillSame hK hlive ok⟩
      · have carries := ((owns.frame u f hF).target C hB).2.1
        have hu : ¬ D u := fun hu => touched.1 _ (keys u f hu hF _ (.inl rfl)) carries
        exact .inr ⟨u, f, (others u hu).trans hF, hB⟩
  · intro u f hF'
    by_cases hu : D u
    · exact (mine u f hu hF').2.2.2
    · exact owns.thread u f (others u hu ▸ hF')
  · intro u f hF'
    by_cases hu : D u
    · exact (mine u f hu hF').2.2.1
    · have hF : F u = some f := others u hu ▸ hF'
      rw [sameLive _ (foreign u f hu hF _ (.inl rfl))]
      exact owns.dead u f hF

/-- `cf_malloc` gives an unused block of a page without source entries to a new
address. -/
theorem alloc (owns : Owns cfg T v live F) {a : Nat} {o : Obj} (dead : live a = none)
    (noCall : ∀ u f, F u = some f → f.address ≠ a) (keeps : v.Keeps v' (· = B))
    (unused : ¬ v.used B) (empty : v.entries B.page = 0)
    (used : ∀ C, v'.used C ↔ v.used C ∨ C = B) (entries : ∀ p, v'.entries p = v.entries p)
    (word : ∀ b, b ≠ a → (live b ≠ none ∨ ∃ u f, F u = some f ∧ f.address = b) →
      v'.word b = v.word b)
    (new : StillOk cfg v' a o B) : Owns cfg T v' (update live a (some o)) F := by
  have noKey : ∀ u f, F u = some f → ¬ f.Key a := by
    rintro u f hF (eq | ⟨s, hs, eq⟩)
    · exact noCall u f hF eq
    · obtain ⟨_, o, _, hlive, _⟩ := owns.source_ok hF hs
      rw [eq, dead] at hlive
      cases hlive
  refine owns.local_step (fun _ => False) (· = a) keeps (fun _ _ => rfl) (fun _ _ h => h.elim)
    (fun b hb => .inr (hb ▸ noKey)) ?_ ?_ word
    (fun p => (entries p).trans (owns.ledger p)) (fun _ _ h => h.elim)
    (fun _ _ _ _ _ h => h.elim) ?_ ?_
  · intro C b _ _ occupied
    have ne : C ≠ B := by
      rintro rfl
      rcases occupied with h | ⟨u, f, s, hF, hs, rfl⟩
      · exact unused h
      · have := (owns.entries_pos hF).1 s hs
        omega
    exact ⟨ne, by rw [used]; simp [ne]⟩
  · intro b hb
    rw [update_of_ne hb]
  · rintro b o' rfl hlive _
    rw [update_self] at hlive
    cases hlive
    exact ⟨B, new⟩
  · intro C hC touched
    have eq : C = B := by
      rcases touched with ⟨b, rfl, carries⟩ | h
      · rcases (used C).mp hC with h | h
        · rcases owns.owner h carries with ⟨o', hlive, _⟩ | ⟨u, f, hF, eq, _⟩
          · rw [dead] at hlive; cases hlive
          · exact absurd eq (noCall u f hF)
        · exact h
      · exact ((used C).mp hC).resolve_left h
    subst eq
    refine .inl ⟨a, o, update_self .., ?_, new⟩
    rintro ⟨u, f, s, hF, hs, eq⟩
    exact noKey u f hF (.inr ⟨s, hs, eq⟩)

theorem keeps_refl (v : View) (changed : Block → Prop) : v.Keeps v changed :=
  ⟨fun _ _ => rfl, fun _ _ _ _ => .refl _ _ _⟩

/-- The application writes a byte of an object that is not being moved. -/
theorem write (owns : Owns cfg T v live F) {a j : Nat} {o : Obj} {x : UInt8}
    (hlive : live a = some o) (still : ¬ Moving F a) (ok : StillOk cfg v a o B)
    (user : j < View.userBytes cfg (v.size B)) (used : v'.used = v.used)
    (entries : v'.entries = v.entries) (sc : v'.sc = v.sc) (word : v'.word = v.word)
    (memory : v'.memory = writeByte v.memory (v.word a + j) x) :
    Owns cfg T v' (update live a (some { o with bytes := update o.bytes j x })) F := by
  have placed := ok.carries.placed
  have size := placed.size_ge
  have bound : View.userBytes cfg (v.size B) ≤ v.size B - 4 ∧
      (Incremental cfg (v.size B) → View.userBytes cfg (v.size B) = v.size B - 8) := by
    simp only [View.userBytes]
    split
    next inc => exact ⟨by omega, fun _ => rfl⟩
    next inc => exact ⟨le_rfl, fun h => absurd h inc⟩
  have scB : v'.sc B.page = v.sc B.page := by rw [sc]
  have start := ok.word
  have agree : ∀ {b n}, b + n ≤ v.word a + j ∨ v.word a + j < b →
      AgreeOn v.memory v'.memory b n := fun h => memory ▸ writeByte_agreeOn _ _ h
  have notCall : ∀ u f, F u = some f → ¬ f.Key a := by
    rintro u f hF (eq | ⟨s, hs, eq⟩)
    · have := owns.dead u f hF
      rw [eq, hlive] at this
      cases this
    · exact still ⟨u, f, s, hF, hs, eq⟩
  have keeps : v.Keeps v' (· = B) := by
    refine ⟨fun _ _ => by rw [sc], fun C ne placedC _ => agree ?_⟩
    have := placedC.disjoint placed ne
    omega
  have new : StillOk cfg v' a { o with bytes := update o.bytes j x } B := by
    refine ⟨used ▸ ok.used, ⟨placed.congr scB, ?_⟩, ?_, ?_, fun inc => ?_, scB.trans ok.sc⟩
    · exact (placed.back_congr scB (agree (by omega))).trans ok.carries.back
    · rw [word, View.start_congr scB, start]
    · intro i hi userI
      rw [View.size_congr scB] at userI
      rw [View.start_congr scB, memory, ← start]
      by_cases eq : i = j
      · subst eq
        simp [writeByte]
      · have ne : v.word a + i ≠ v.word a + j := by omega
        simp only [update_of_ne eq, writeByte, ne, if_false]
        rw [start]
        exact ok.stores i hi userI
    · rw [View.size_congr scB] at inc
      have := bound.2 inc
      exact (placed.part_congr scB (agree (by omega))).trans (ok.part inc)
  refine owns.local_step (fun _ => False) (· = a) keeps (fun _ _ => rfl) (fun _ _ h => h.elim)
    (fun b hb => .inr (hb ▸ notCall)) ?_ ?_ (fun _ _ _ => by rw [word])
    (fun p => by rw [entries]; exact owns.ledger p)
    (fun _ _ h => h.elim) (fun _ _ _ _ _ h => h.elim) ?_ ?_
  · exact fun C b carries ne _ => ⟨carries.ne ok.carries ne, by rw [used]⟩
  · intro b hb
    rw [update_of_ne hb]
  · rintro b o' rfl now _
    rw [update_self] at now
    cases now
    exact ⟨B, new⟩
  · intro C hC touched
    rw [used] at hC
    rcases touched with ⟨b, rfl, carries⟩ | unused
    · rcases owns.owner hC carries with ⟨o', hlive', _, ok'⟩ | ⟨u, f, hF, eq, _⟩
      · have same := placed.start_inj ok'.carries.placed (start.symm.trans ok'.word)
        subst same
        exact .inl ⟨b, _, update_self .., still, new⟩
      · exact absurd (.inl eq) (notCall u f hF)
    · exact absurd hC unused

theorem beginFree (owns : Owns cfg T v live F) {a : Nat} {o : Obj} (hlive : live a = some o)
    (still : ¬ Moving F a) (ok : StillOk cfg v a o B) (idle : F t = none) (ht : t < T) :
    Owns cfg T v (update live a none) (update F t (some (.start (v.sc B.page) a B))) := by
  have notCall : ∀ u f, F u = some f → ¬ f.Key a := by
    rintro u f hF (eq | ⟨s, hs, eq⟩)
    · have := owns.dead u f hF
      rw [eq, hlive] at this
      cases this
    · exact still ⟨u, f, s, hF, hs, eq⟩
  refine owns.local_step (· = t) (· = a) (keeps_refl v fun _ => False)
    (fun u hu => update_of_ne hu _ _) ?_ (fun b hb => .inr (hb ▸ notCall))
    (fun _ _ _ _ _ => ⟨id, Iff.rfl⟩) (fun b hb => update_of_ne hb _ _) (fun _ _ _ => rfl) ?_ ?_ ?_
    ?_ ?_
  · rintro u f rfl hF
    rw [idle] at hF
    cases hF
  · intro p
    have moved := sum_entries_update F ht (some (.start (v.sc B.page) a B)) p
    rw [idle, Frame.entries_none, Frame.entries_bare p rfl rfl] at moved
    rw [owns.ledger p]
    omega
  · rintro u f rfl hF
    rw [update_self] at hF
    cases hF
    refine ⟨⟨?_, ?_, ?_, ?_⟩, ?_, update_self .., ht⟩
    · rintro C hC
      cases hC
      exact ⟨ok.used, ok.carries, ok.word, rfl⟩
    · rintro hC
      cases hC
    · rintro s hs
      cases hs
    · rintro p hp
      cases hp
    · rintro b (rfl | ⟨s, hs, _⟩)
      · rfl
      · cases hs
  · rintro u u' _ _ _ rfl rfl _ _ _ _
    rfl
  · rintro b o' rfl now _
    rw [update_self] at now
    cases now
  · rintro C hC (⟨b, rfl, carries⟩ | unused)
    · rcases owns.owner hC carries with ⟨o', _, _, ok'⟩ | ⟨u, f, hF, eq, _⟩
      · have same := ok.carries.placed.start_inj ok'.carries.placed (ok.word.symm.trans ok'.word)
        subst same
        exact .inr ⟨t, _, update_self .., rfl⟩
      · exact absurd (.inl eq) (notCall u f hF)
    · exact absurd hC unused

theorem leave (owns : Owns cfg T v live F) (hF : F t = some f) (target : f.target = none)
    (held : f.held = none) : Owns cfg T v live (update F t none) := by
  have source := ((owns.frame t f hF).lost target).2
  have ht := owns.thread t f hF
  have gone : ∀ u g, u = t → update F t none u = some g → False := by
    rintro u g rfl h
    rw [update_self] at h
    cases h
  refine owns.local_step (· = t) (· = f.address) (keeps_refl v fun _ => False)
    (fun u hu => update_of_ne hu _ _) ?_ (fun b hb => .inl ⟨t, f, rfl, hF, .inl hb.symm⟩)
    (fun _ _ _ _ _ => ⟨id, Iff.rfl⟩) (fun _ _ => rfl) (fun _ _ _ => rfl) ?_
    (fun u g hu h => (gone u g hu h).elim) (fun u _ g _ _ hu _ h _ => (gone u g hu h).elim) ?_ ?_
  · rintro u g rfl hG a (rfl | ⟨s, hs, _⟩)
    · rw [hF] at hG
      cases hG
      rfl
    · rw [hF] at hG
      cases hG
      rw [source] at hs
      cases hs
  · intro p
    have moved := sum_entries_update F ht none p
    rw [hF, Frame.entries_none, Frame.entries_bare p source held] at moved
    rw [owns.ledger p]
    omega
  · rintro b o rfl now _
    rw [owns.dead t f hF] at now
    cases now
  · rintro C hC (⟨b, rfl, carries⟩ | unused)
    · rcases owns.owner hC carries with ⟨o', now, _⟩ | ⟨u, g, hG, eq, hC'⟩
      · rw [owns.dead t f hF] at now
        cases now
      · have same := owns.address_inj u t g f hG hF eq
        subst same
        rw [hF] at hG
        cases hG
        rw [target] at hC'
        cases hC'
    · exact absurd hC unused

/-- One call's frame changes and no object dies: the step is local to the address
of the call and the objects it moves before and after. -/
theorem exchange (owns : Owns cfg T v live F) (hF : F t = some f) (g : Frame)
    (address : g.address = f.address) {changed : Block → Prop} (keeps : v.Keeps v' changed)
    (fresh : ∀ s, g.source = some s → f.Key s.address ∨
      ∀ u f', F u = some f' → ¬ f'.Key s.address)
    (untouched : ∀ C a, v.Carries C a → ¬ f.Key a → ¬ g.Key a → Occupied v F C →
      ¬ changed C ∧ (v'.used C ↔ v.used C))
    (word : ∀ a, ¬ f.Key a → ¬ g.Key a →
      (live a ≠ none ∨ ∃ u f, F u = some f ∧ f.address = a) → v'.word a = v.word a)
    (ledger : ∀ p, v'.entries p + Frame.entries p (some f) =
      v.entries p + Frame.entries p (some g))
    (mine : FrameOk cfg v' live g)
    (still : ∀ s o, f.source = some s → live s.address = some o →
      (∀ s', g.source = some s' → s'.address ≠ s.address) → ∃ B, StillOk cfg v' s.address o B)
    (owned : ∀ C, v'.used C → ((∃ a, (f.Key a ∨ g.Key a) ∧ v.Carries C a) ∨ ¬ v.used C) →
      g.target = some C ∨ ∃ s o, f.source = some s ∧ live s.address = some o ∧
        (∀ s', g.source = some s' → s'.address ≠ s.address) ∧ StillOk cfg v' s.address o C) :
    Owns cfg T v' live (update F t (some g)) := by
  have ht := owns.thread t f hF
  have own : ∀ {u h}, u = t → F u = some h → h = f := by
    rintro u h rfl hG
    rw [hF] at hG
    cases hG
    rfl
  have own' : ∀ {u h}, u = t → update F t (some g) u = some h → h = g := by
    rintro u h rfl hG
    rw [update_self] at hG
    cases hG
    rfl
  have notMoving : ∀ s, f.source = some s → (∀ s', g.source = some s' → s'.address ≠ s.address) →
      ¬ Moving (update F t (some g)) s.address := by
    rintro s hs apart ⟨u, h, s', hG, hs', eq⟩
    by_cases hu : u = t
    · rw [own' hu hG] at hs'
      exact apart s' hs' eq
    · rw [update_of_ne hu] at hG
      exact hu (owns.source_inj u t h f s' s hG hF hs' hs eq)
  refine owns.local_step (· = t) (fun a => f.Key a ∨ g.Key a) keeps
    (fun u hu => update_of_ne hu _ _) ?_ ?_ ?_ (fun _ _ => rfl) ?_ ?_ ?_ ?_ ?_ ?_
  · intro u h hu hG a key
    rw [own hu hG] at key
    exact .inl key
  · rintro a (key | rfl | ⟨s, hs, rfl⟩)
    · exact .inl ⟨t, f, rfl, hF, key⟩
    · exact .inl ⟨t, f, rfl, hF, .inl address.symm⟩
    · exact (fresh s hs).imp (fun key => ⟨t, f, rfl, hF, key⟩) id
  · intro C a carries hK occupied
    push Not at hK
    exact untouched C a carries hK.1 hK.2 occupied
  · intro a hK out
    push Not at hK
    exact word a hK.1 hK.2 out
  · intro p
    have moved := sum_entries_update F ht (some g) p
    have was := owns.ledger p
    have now := ledger p
    rw [hF] at moved
    omega
  · intro u h hu hG
    subst hu
    rw [own' rfl hG]
    exact ⟨mine, fun a key => .inr key, by rw [address]; exact owns.dead u f hF, ht⟩
  · rintro u u' _ _ _ rfl rfl _ _ _ _
    rfl
  · intro a o hK now moving
    rcases hK with (rfl | ⟨s, hs, rfl⟩) | rfl | ⟨s, hs, rfl⟩
    · rw [owns.dead t f hF] at now
      cases now
    · refine still s o hs now fun s' hs' eq => ?_
      exact moving ⟨t, g, s', update_self .., hs', eq⟩
    · rw [address, owns.dead t f hF] at now
      cases now
    · exact absurd ⟨t, g, s, update_self .., hs, rfl⟩ moving
  · intro C hC touched
    rcases owned C hC touched with target | ⟨s, o, hs, hlive, apart, ok⟩
    · exact .inr ⟨t, g, update_self .., target⟩
    · exact .inl ⟨_, o, hlive, notMoving s hs apart, ok⟩

/-- The used block with the address of a call is the call's target. -/
theorem target_of_carries (owns : Owns cfg T v live F) (hF : F t = some f) {C : Block}
    (used : v.used C) (carries : v.Carries C f.address) : f.target = some C := by
  rcases owns.owner used carries with ⟨o, now, _⟩ | ⟨u, g, hG, eq, target⟩
  · rw [owns.dead t f hF] at now
    cases now
  · have same := owns.address_inj u t g f hG hF eq
    subst same
    rw [hF] at hG
    cases hG
    exact target

/-- No used block carries the address of an object that is being moved. -/
theorem not_used_of_moving (owns : Owns cfg T v live F) (hF : F t = some f) {s : Source}
    (hs : f.source = some s) {C : Block} (used : v.used C) : ¬ v.Carries C s.address := by
  intro carries
  rcases owns.owner used carries with ⟨o, _, still, _⟩ | ⟨u, g, hG, eq, _⟩
  · exact still ⟨t, f, s, hF, hs, rfl⟩
  · exact owns.ne_source hG hF hs eq

theorem release (owns : Owns cfg T v live F) (hF : F t = some f) (target : f.target = some B)
    (source : f.source = none) (keeps : v.Keeps v' (· = B))
    (used : ∀ C, v'.used C ↔ v.used C ∧ C ≠ B) (entries : ∀ p, v'.entries p = v.entries p)
    (word : ∀ a, (live a ≠ none ∨ ∃ u f, F u = some f ∧ f.address = a) → v'.word a = v.word a) :
    Owns cfg T v' live
      (update F t (some { f with target := none, lost := v.word f.address })) := by
  have carries := ((owns.frame t f hF).target B target).2.1
  have entriesPos := (owns.entries_pos hF).2
  refine owns.exchange hF _ rfl keeps ?_ ?_ (fun a _ _ => word a) ?_ ⟨?_, ?_, ?_, ?_⟩ ?_ ?_
  · intro s hs
    rw [source] at hs
    cases hs
  · intro C a other notKey _ _
    have ne : C ≠ B := other.ne carries fun eq => notKey (.inl eq.symm)
    exact ⟨ne, by rw [used]; simp [ne]⟩
  · intro p
    rw [entries]
    rfl
  · rintro C hC
    cases hC
  · exact fun _ => ⟨word _ (.inr ⟨t, f, hF, rfl⟩), source⟩
  · intro s hs
    rw [source] at hs
    cases hs
  · intro p hp
    rw [keeps.sc p (.inr (by rw [entries]; exact entriesPos p hp))]
    exact (owns.frame t f hF).held p hp
  · intro s o hs
    rw [source] at hs
    cases hs
  · rintro C hC (⟨a, key, carriesC⟩ | unused)
    · obtain ⟨usedC, ne⟩ := (used C).mp hC
      have eq : f.address = a := by
        rcases key with (eq | ⟨s, hs, _⟩) | (eq | ⟨s, hs, _⟩)
        · exact eq
        · rw [source] at hs; cases hs
        · exact eq
        · rw [source] at hs; cases hs
      subst eq
      have same := owns.target_of_carries hF usedC carriesC
      rw [target] at same
      cases same
      exact absurd rfl ne
    · exact absurd ((used C).mp hC).1 unused

/-- A call without target gives up its held entry. Its word no longer matters. -/
theorem dropHeld (owns : Owns cfg T v live F) (hF : F t = some f) (target : f.target = none)
    {p : Nat} (held : f.held = some p) (keeps : v.Keeps v' fun _ => False)
    (used : ∀ C, v'.used C ↔ v.used C)
    (entries : ∀ q, v'.entries q + (if p = q then 1 else 0) = v.entries q)
    (word : ∀ a, a ≠ f.address → (live a ≠ none ∨ ∃ u f, F u = some f ∧ f.address = a) →
      v'.word a = v.word a) :
    Owns cfg T v' live
      (update F t (some { f with held := none, lost := v'.word f.address })) := by
  have source := ((owns.frame t f hF).lost target).2
  refine owns.exchange hF _ rfl keeps ?_ (fun _ _ _ _ _ _ => ⟨id, used _⟩) ?_ ?_
    ⟨?_, fun _ => ⟨rfl, source⟩, ?_, ?_⟩ ?_ ?_
  · intro s hs
    rw [source] at hs
    cases hs
  · exact fun a notKey _ => word a fun eq => notKey (.inl eq.symm)
  · intro q
    have := entries q
    simp only [Frame.entries, source, held]
    omega
  · intro C hC
    rw [target] at hC
    cases hC
  · intro s hs
    rw [source] at hs
    cases hs
  · rintro q hq
    cases hq
  · intro s o hs
    rw [source] at hs
    cases hs
  · rintro C hC (⟨a, key, carriesC⟩ | unused)
    · have eq : f.address = a := by
        rcases key with (eq | ⟨s, hs, _⟩) | (eq | ⟨s, hs, _⟩)
        · exact eq
        · rw [source] at hs; cases hs
        · exact eq
        · rw [source] at hs; cases hs
      subst eq
      have same := owns.target_of_carries hF ((used C).mp hC) carriesC
      rw [target] at same
      cases same
    · exact absurd ((used C).mp hC) unused

/-- A call takes the block of an object that is not being moved as its source. -/
theorem pick (owns : Owns cfg T v live F) (hF : F t = some f) (target : f.target = some B)
    (source : f.source = none) {X : Block} {b : Nat} {o : Obj} (hlive : live b = some o)
    (still : ¬ Moving F b) (ok : StillOk cfg v b o X) (sc : v.sc X.page = f.sc)
    (keeps : v.Keeps v' fun _ => False) (used : ∀ C, v'.used C ↔ v.used C ∧ C ≠ X)
    (entries : ∀ q, v'.entries q = v.entries q + if X.page = q then 1 else 0)
    (flagged : v'.word b = v.start X + 1)
    (word : ∀ a, a ≠ b → (live a ≠ none ∨ ∃ u f, F u = some f ∧ f.address = a) →
      v'.word a = v.word a) :
    Owns cfg T v' live (update F t (some
      { f with source := some { block := X, address := b, copied := 0, linked := false } })) := by
  obtain ⟨usedB, carries, start, scB⟩ := (owns.frame t f hF).target B target
  have notCall : ∀ u g, F u = some g → g.address ≠ b := by
    intro u g hG eq
    have := owns.dead u g hG
    rw [eq, hlive] at this
    cases this
  have ne : B ≠ X := carries.ne ok.carries (notCall t f hF)
  have inUseX : v'.InUse X.page := .inr (by rw [entries]; simp)
  have sameX := keeps.same id ok.carries.placed inUseX
  have sameB := keeps.same id carries.placed (View.used_inUse ((used B).mpr ⟨usedB, ne⟩))
  have size := carries.placed.size_ge
  refine owns.exchange hF _ rfl keeps ?_ ?_ ?_ ?_ ⟨?_, ?_, ?_, ?_⟩ ?_ ?_
  · rintro s hs
    cases hs
    refine .inr fun u g hG key => ?_
    rcases key with eq | ⟨s, hs, eq⟩
    · exact notCall u g hG eq
    · exact still ⟨u, g, s, hG, hs, eq⟩
  · intro C a other _ notKey _
    have neX : C ≠ X := other.ne ok.carries fun eq => notKey (.inr ⟨_, rfl, eq.symm⟩)
    exact ⟨id, by rw [used]; simp [neX]⟩
  · exact fun a _ notKey => word a fun eq => notKey (.inr ⟨_, rfl, eq.symm⟩)
  · intro q
    rw [entries]
    simp only [Frame.entries, source]
    omega
  · intro C hC
    have same : B = C := Option.some.inj (target.symm.trans hC)
    subst same
    refine ⟨(used B).mpr ⟨usedB, ne⟩, sameB.carries carries, ?_, sameB.sc.trans scB⟩
    rw [sameB.start, ← start]
    exact word _ (notCall t f hF) (.inr ⟨t, f, hF, rfl⟩)
  · intro none
    cases target.symm.trans none
  · rintro s hs
    cases hs
    refine ⟨B, o, target, hlive, ⟨?_, ?_, sameX.carries ok.carries, ?_,
      sameX.stores ok.carries.placed ok.stores, ?_, ?_, ?_, ?_, ?_, Nat.dvd_zero _⟩⟩
    · rw [sameX.sc, sameB.sc, sc, scB]
    · intro usedX
      exact ((used X).mp usedX).2 rfl
    · rw [sameX.start, flagged]
    · rw [sameB.size]
      simp only
      omega
    · exact fun pos => absurd pos (Nat.lt_irrefl 0)
    · exact fun j hj => absurd hj (Nat.not_lt_zero j)
    · rintro linked
      cases linked
    · rw [sameB.sc, scB, ← sc, ok.sc]
  · intro p hp
    have pos := (owns.entries_pos hF).2 p hp
    rw [keeps.sc p (.inr (by rw [entries]; omega))]
    exact (owns.frame t f hF).held p hp
  · intro s o hs
    rw [source] at hs
    cases hs
  · rintro C hC (⟨a, key, carriesC⟩ | unused)
    · obtain ⟨usedC, neX⟩ := (used C).mp hC
      have eq : f.address = a ∨ b = a := by
        rcases key with (eq | ⟨s, hs, _⟩) | (eq | ⟨s, hs, eq⟩)
        · exact .inl eq
        · rw [source] at hs; cases hs
        · exact .inl eq
        · cases hs; exact .inr eq
      rcases eq with rfl | rfl
      · exact .inl (owns.target_of_carries hF usedC carriesC)
      · rcases owns.owner usedC carriesC with ⟨o', _, _, ok'⟩ | ⟨u, g, hG, eq, _⟩
        · exact absurd (ok'.carries.placed.start_inj ok.carries.placed
            (ok'.word.symm.trans ok.word)) neX
        · exact absurd eq (notCall u g hG)
    · exact absurd ((used C).mp hC).1 unused

theorem progress (owns : Owns cfg T v live F) (hF : F t = some f) (target : f.target = some B)
    {s s' : Source} (source : f.source = some s) (block : s'.block = s.block)
    (address : s'.address = s.address)
    (keeps : v.Keeps v' fun C => C = B ∨ C = s.block) (used : ∀ C, v'.used C ↔ v.used C)
    (entries : ∀ q, v'.entries q = v.entries q) (word : ∀ a, v'.word a = v.word a)
    (mine : FrameOk cfg v' live { f with source := some s' }) :
    Owns cfg T v' live (update F t (some { f with source := some s' })) := by
  have carries := ((owns.frame t f hF).target B target).2.1
  obtain ⟨_, _, _, _, _, sok⟩ := owns.source_ok hF source
  refine owns.exchange hF _ rfl keeps ?_ ?_ (fun a _ _ _ => word a) ?_ mine ?_ ?_
  · rintro r hr
    cases hr
    exact .inl (.inr ⟨s, source, address.symm⟩)
  · intro C a other notKey _ _
    have neB : C ≠ B := other.ne carries fun eq => notKey (.inl eq.symm)
    have neS : C ≠ s.block := other.ne sok.carries fun eq => notKey (.inr ⟨s, source, eq.symm⟩)
    exact ⟨fun h => h.elim neB neS, used C⟩
  · intro q
    rw [entries]
    simp only [Frame.entries, source, block]
  · intro r o hr _ apart
    rw [source] at hr
    cases hr
    exact absurd address (apart s' rfl)
  · rintro C hC (⟨a, key, carriesC⟩ | unused)
    · have usedC := (used C).mp hC
      have eq : f.address = a ∨ s.address = a := by
        rcases key with (eq | ⟨r, hr, eq⟩) | (eq | ⟨r, hr, eq⟩)
        · exact .inl eq
        · rw [source] at hr; cases hr; exact .inr eq
        · exact .inl eq
        · cases hr; exact .inr (address.symm.trans eq)
      rcases eq with rfl | rfl
      · exact .inl (owns.target_of_carries hF usedC carriesC)
      · exact absurd carriesC (owns.not_used_of_moving hF source usedC)
    · exact absurd ((used C).mp hC) unused

/-- The copy is complete: the target block becomes the object's block, and the
call gives up its source entry. -/
theorem finish (owns : Owns cfg T v live F) (hF : F t = some f) (target : f.target = some B)
    {s : Source} (source : f.source = some s)
    (keeps : v.Keeps v' fun C => C = B ∨ C = s.block) (used : ∀ C, v'.used C ↔ v.used C)
    (entries : ∀ q, v'.entries q + (if s.block.page = q then 1 else 0) = v.entries q)
    (word : ∀ a, a ≠ s.address → (live a ≠ none ∨ ∃ u f, F u = some f ∧ f.address = a) →
      v'.word a = v.word a)
    (moved : ∀ o, live s.address = some o → StillOk cfg v' s.address o B) :
    Owns cfg T v' live (update F t (some
      { f with target := none, source := none, lost := v'.word f.address })) := by
  have carries := ((owns.frame t f hF).target B target).2.1
  obtain ⟨_, o, _, hlive, _, sok⟩ := owns.source_ok hF source
  refine owns.exchange hF _ rfl keeps ?_ ?_ ?_ ?_ ⟨?_, fun _ => ⟨rfl, rfl⟩, ?_, ?_⟩ ?_ ?_
  · rintro r hr
    cases hr
  · intro C a other notKey _ _
    have neB : C ≠ B := other.ne carries fun eq => notKey (.inl eq.symm)
    have neS : C ≠ s.block := other.ne sok.carries fun eq => notKey (.inr ⟨s, source, eq.symm⟩)
    exact ⟨fun h => h.elim neB neS, used C⟩
  · exact fun a notKey _ => word a fun eq => notKey (.inr ⟨s, source, eq.symm⟩)
  · intro q
    have := entries q
    simp only [Frame.entries, source]
    omega
  · rintro C hC
    cases hC
  · rintro r hr
    cases hr
  · intro p hp
    have held : f.held = some p := hp
    have le := entries_le_sum (F := F) (p := p) (owns.thread t f hF)
    rw [hF, ← owns.ledger p] at le
    simp only [Frame.entries, source, held] at le
    have := entries p
    rw [keeps.sc p (.inr (by simp at le; omega))]
    exact (owns.frame t f hF).held p held
  · intro r o' hr live' _
    rw [source] at hr
    cases hr
    exact ⟨B, moved o' live'⟩
  · rintro C hC (⟨a, key, carriesC⟩ | unused)
    · have usedC := (used C).mp hC
      have eq : f.address = a ∨ s.address = a := by
        rcases key with (eq | ⟨r, hr, eq⟩) | (eq | ⟨r, hr, eq⟩)
        · exact .inl eq
        · rw [source] at hr; cases hr; exact .inr eq
        · exact .inl eq
        · cases hr
      rcases eq with rfl | rfl
      · have same := owns.target_of_carries hF usedC carriesC
        rw [target] at same
        cases same
        exact .inr ⟨s, o, source, hlive, (fun _ hr => by cases hr), moved o hlive⟩
      · exact absurd carriesC (owns.not_used_of_moving hF source usedC)
    · exact absurd ((used C).mp hC) unused

/-- Two calls exchange their frames: the sum over all calls changes by theirs. -/
theorem sum_entries_update₂ {u : Nat} (ht : t < T) (hu : u < T) (ne : u ≠ t) (x y : Option Frame)
    (p : Nat) : (∑ s ∈ Finset.range T, Frame.entries p (update (update F u y) t x s)) +
        Frame.entries p (F t) + Frame.entries p (F u) =
      (∑ s ∈ Finset.range T, Frame.entries p (F s)) + Frame.entries p x + Frame.entries p y := by
  have first := sum_entries_update F hu y p
  have second := sum_entries_update (update F u y) ht x p
  rw [update_of_ne ne.symm] at second
  omega

/-- An aborted call keeps its address only. -/
theorem aborted_key {g : Frame} {a w : Nat}
    (key : Frame.Key { g with target := none, source := none, lost := w } a) : g.address = a := by
  rcases key with eq | ⟨r, hr, _⟩
  · exact eq
  · cases hr

theorem aborted_frame (owns : Owns cfg T v live F) {u : Nat} {g : Frame} (hG : F u = some g)
    (keeps : v.Keeps v' changed) (entries : ∀ q, v'.entries q = v.entries q) :
    FrameOk cfg v' live'
      { g with target := none, source := none, lost := v'.word g.address } := by
  refine ⟨fun C hC => ?_, fun _ => ⟨rfl, rfl⟩, fun r hr => ?_, fun p hp => ?_⟩
  · cases hC
  · cases hr
  · have pos := (owns.entries_pos hG).2 p hp
    rw [keeps.sc p (.inr (by rw [entries]; exact pos))]
    exact (owns.frame u g hG).held p hp

/-- The frame of a call that goes on from the source of call `u`. -/
theorem takenOver_frame (owns : Owns cfg T v live F) (hF : F t = some f)
    (target : f.target = some B) {u : Nat} {g : Frame} (hG : F u = some g) (ne : u ≠ t) {X : Block}
    {s : Source} (targetG : g.target = some X) (sourceG : g.source = some s)
    (sc : v.sc X.page = f.sc) (keeps : v.Keeps v' (· = X))
    (used : ∀ C, v'.used C ↔ v.used C ∧ C ≠ X) (entries : ∀ q, v'.entries q = v.entries q)
    (word : ∀ a, a ≠ g.address → (live a ≠ none ∨ ∃ u f, F u = some f ∧ f.address = a) →
      v'.word a = v.word a) :
    FrameOk cfg v' live { f with source := some { s with copied := 0, linked := false } } := by
  obtain ⟨usedB, carries, start, scB⟩ := (owns.frame t f hF).target B target
  obtain ⟨_, carriesX, _, _⟩ := (owns.frame u g hG).target X targetG
  obtain ⟨X', o, targetG', hlive, sok⟩ := (owns.frame u g hG).source s sourceG
  have same : X = X' := Option.some.inj (targetG.symm.trans targetG')
  subst same
  have addresses : f.address ≠ g.address :=
    fun eq => ne (owns.address_inj u t g f hG hF eq.symm)
  have neBX : B ≠ X := carries.ne carriesX addresses
  have neSX : s.block ≠ X := sok.carries.ne carriesX (owns.ne_source hG hG sourceG).symm
  have sameB := keeps.same neBX carries.placed (View.used_inUse ((used B).mpr ⟨usedB, neBX⟩))
  have sameS := keeps.same neSX sok.carries.placed
    (.inr (by rw [entries]; exact (owns.entries_pos hG).1 s sourceG))
  have size := carries.placed.size_ge
  refine ⟨fun C hC => ?_, fun none => ?_, fun r hr => ?_, fun p hp => ?_⟩
  · have same : B = C := Option.some.inj (target.symm.trans hC)
    subst same
    refine ⟨(used B).mpr ⟨usedB, neBX⟩, sameB.carries carries, ?_, sameB.sc.trans scB⟩
    rw [sameB.start, ← start]
    exact word _ addresses (.inr ⟨t, f, hF, rfl⟩)
  · cases target.symm.trans none
  · cases hr
    refine ⟨B, o, target, hlive, ⟨?_, ?_, sameS.carries sok.carries, ?_,
      sameS.stores sok.carries.placed sok.stores, ?_, ?_, ?_, ?_, ?_, Nat.dvd_zero _⟩⟩
    · rw [sameS.sc, sameB.sc, sok.sc, sc, scB]
    · exact fun h => sok.unused ((used _).mp h).1
    · rw [sameS.start, ← sok.word]
      exact word _ (owns.ne_source hG hG sourceG).symm (.inl (by rw [hlive]; simp))
    · rw [sameB.size]
      simp only
      omega
    · exact fun pos => absurd pos (Nat.lt_irrefl 0)
    · exact fun j hj => absurd hj (Nat.not_lt_zero j)
    · rintro linked
      cases linked
    · rw [sameB.sc, scB, ← sc, sok.obj]
  · have pos := (owns.entries_pos hF).2 p hp
    rw [keeps.sc p (.inr (by rw [entries]; exact pos))]
    exact (owns.frame t f hF).held p hp

/-- A call takes the target block of a suspended call as its source: it goes on
from the source of that call, which is aborted. -/
theorem takeOver (owns : Owns cfg T v live F) (hF : F t = some f) (target : f.target = some B)
    (source : f.source = none) {u : Nat} {g : Frame} (hG : F u = some g) (ne : u ≠ t) {X : Block}
    {s : Source} (targetG : g.target = some X) (sourceG : g.source = some s)
    (sc : v.sc X.page = f.sc) (keeps : v.Keeps v' (· = X))
    (used : ∀ C, v'.used C ↔ v.used C ∧ C ≠ X) (entries : ∀ q, v'.entries q = v.entries q)
    (word : ∀ a, a ≠ g.address → (live a ≠ none ∨ ∃ u f, F u = some f ∧ f.address = a) →
      v'.word a = v.word a) :
    Owns cfg T v' live
      (update (update F u
        (some { g with target := none, source := none, lost := v'.word g.address })) t
        (some { f with source := some { s with copied := 0, linked := false } })) := by
  have mine := owns.takenOver_frame hF target hG ne targetG sourceG sc keeps used entries word
  have aborted : FrameOk cfg v' live
      { g with target := none, source := none, lost := v'.word g.address } :=
    owns.aborted_frame hG keeps entries
  obtain ⟨_, carriesX, _, _⟩ := (owns.frame u g hG).target X targetG
  have ht := owns.thread t f hF
  have hu := owns.thread u g hG
  have addresses : f.address ≠ g.address :=
    fun eq => ne (owns.address_inj u t g f hG hF eq.symm)
  generalize hx : (some { f with source := some { s with copied := 0, linked := false } } :
    Option Frame) = x
  generalize hy : (some { g with target := none, source := none, lost := v'.word g.address } :
    Option Frame) = y
  have atT : update (update F u y) t x t = x := update_self ..
  have atU : update (update F u y) t x u = y := by rw [update_of_ne ne, update_self]
  have moving : Moving (update (update F u y) t x) s.address :=
    ⟨t, _, { s with copied := 0, linked := false }, by rw [atT, ← hx], rfl, rfl⟩
  refine owns.local_step (fun w => w = t ∨ w = u) (fun a => f.Key a ∨ g.Key a) keeps ?_ ?_ ?_ ?_
    (fun _ _ => rfl) ?_ ?_ ?_ ?_ ?_ ?_
  · intro w hw
    push Not at hw
    rw [update_of_ne hw.1, update_of_ne hw.2]
  · rintro w h (rfl | rfl) hH a key
    · rw [hF] at hH; cases hH; exact .inl key
    · rw [hG] at hH; cases hH; exact .inr key
  · rintro a (key | key)
    · exact .inl ⟨t, f, .inl rfl, hF, key⟩
    · exact .inl ⟨u, g, .inr rfl, hG, key⟩
  · intro C a other notKey _
    push Not at notKey
    have neX : C ≠ X := other.ne carriesX fun eq => notKey.2 (.inl eq.symm)
    exact ⟨neX, by rw [used]; simp [neX]⟩
  · intro a notKey out
    push Not at notKey
    exact word a (fun eq => notKey.2 (.inl eq.symm)) out
  · intro p
    have moved := sum_entries_update₂ (F := F) ht hu ne x y p
    have was := owns.ledger p
    rw [entries, was]
    rw [hF, hG, ← hx, ← hy] at moved
    simp only [Frame.entries, source, sourceG] at moved
    rw [← hx, ← hy]
    simp only [Frame.entries]
    omega
  · rintro w h (rfl | rfl) hH
    · rw [atT, ← hx] at hH
      cases hH
      refine ⟨mine, ?_, owns.dead w f hF, ht⟩
      rintro a (rfl | ⟨r, hr, rfl⟩)
      · exact .inl (.inl rfl)
      · cases hr
        exact .inr (.inr ⟨s, sourceG, rfl⟩)
    · rw [atU, ← hy] at hH
      cases hH
      exact ⟨aborted, fun a key => .inr (.inl (aborted_key key)), owns.dead w g hG, hu⟩
  · have apart : ∀ h k a, some h = x → some k = y → h.Key a → ¬ k.Key a := by
      intro h k a eqX eqY keyH keyK
      rw [← hx] at eqX
      rw [← hy] at eqY
      cases eqX
      cases eqY
      have eqK := aborted_key keyK
      rcases keyH with eq | ⟨r, hr, eq⟩
      · exact addresses (eq.trans eqK.symm)
      · cases hr
        exact owns.ne_source hG hG sourceG (eqK.trans eq.symm)
    rintro w w' h k a (rfl | rfl) (rfl | rfl) hH hK keyH keyK
    · rfl
    · exact absurd keyK (apart h k a (hH.symm.trans atT) (hK.symm.trans atU) keyH)
    · exact absurd keyH (apart k h a (hK.symm.trans atT) (hH.symm.trans atU) keyK)
    · rfl
  · rintro a o' ((rfl | ⟨r, hr, _⟩) | (rfl | ⟨r, hr, rfl⟩)) now notMoving
    · rw [owns.dead t f hF] at now; cases now
    · rw [source] at hr; cases hr
    · rw [owns.dead u g hG] at now; cases now
    · rw [sourceG] at hr
      cases hr
      exact absurd moving notMoving
  · rintro C hC (⟨a, key, carriesC⟩ | unused)
    · obtain ⟨usedC, neX⟩ := (used C).mp hC
      rcases key with (rfl | ⟨r, hr, _⟩) | (rfl | ⟨r, hr, rfl⟩)
      · refine .inr ⟨t, _, atT.trans hx.symm, ?_⟩
        exact owns.target_of_carries hF usedC carriesC
      · rw [source] at hr; cases hr
      · have same := owns.target_of_carries hG usedC carriesC
        rw [targetG] at same
        cases same
        exact absurd rfl neX
      · rw [sourceG] at hr
        cases hr
        exact absurd carriesC (owns.not_used_of_moving hG sourceG usedC)
    · exact absurd ((used C).mp hC).1 unused

/-- A call frees the object that a suspended call is moving: that call is aborted
and its target block is the new call's, which also holds the source entry. -/
theorem steal (owns : Owns cfg T v live F) (idle : F t = none) (ht : t < T) {u : Nat} {g : Frame}
    (hG : F u = some g) {X : Block} {s : Source} (targetG : g.target = some X)
    (sourceG : g.source = some s) (f : Frame) (address : f.address = s.address)
    (source : f.source = none) (held : f.held = some s.block.page)
    (keeps : v.Keeps v' (· = X)) (used : ∀ C, C ≠ X → (v'.used C ↔ v.used C))
    (usedX : v'.used X → f.target = some X) (entries : ∀ q, v'.entries q = v.entries q)
    (word : ∀ a, a ≠ g.address → a ≠ s.address →
      (live a ≠ none ∨ ∃ u f, F u = some f ∧ f.address = a) → v'.word a = v.word a)
    (mine : FrameOk cfg v' (update live s.address none) f) :
    Owns cfg T v' (update live s.address none)
      (update (update F u
        (some { g with target := none, source := none, lost := v'.word g.address })) t
        (some f)) := by
  obtain ⟨_, carriesX, _, scX⟩ := (owns.frame u g hG).target X targetG
  have hu := owns.thread u g hG
  have ne : u ≠ t := by
    rintro rfl
    rw [idle] at hG
    cases hG
  have addresses : g.address ≠ s.address := owns.ne_source hG hG sourceG
  generalize hy : (some { g with target := none, source := none, lost := v'.word g.address } :
    Option Frame) = y
  have atT : update (update F u y) t (some f) t = some f := update_self ..
  have atU : update (update F u y) t (some f) u = y := by rw [update_of_ne ne, update_self]
  have keyF : ∀ a, f.Key a → a = s.address := by
    rintro a (rfl | ⟨r, hr, _⟩)
    · exact address
    · rw [source] at hr; cases hr
  refine owns.local_step (fun w => w = t ∨ w = u) g.Key keeps ?_ ?_ ?_ ?_ ?_ ?_ ?_ ?_ ?_ ?_ ?_
  · intro w hw
    push Not at hw
    rw [update_of_ne hw.1, update_of_ne hw.2]
  · rintro w h (rfl | rfl) hH a key
    · rw [idle] at hH; cases hH
    · rw [hG] at hH; cases hH; exact key
  · exact fun a key => .inl ⟨u, g, .inr rfl, hG, key⟩
  · intro C a other notKey _
    have neX : C ≠ X := other.ne carriesX fun eq => notKey (.inl eq.symm)
    exact ⟨neX, used C neX⟩
  · exact fun a notKey => update_of_ne (fun eq => notKey (.inr ⟨s, sourceG, eq.symm⟩)) _ _
  · exact fun a notKey => word a (fun eq => notKey (.inl eq.symm))
      (fun eq => notKey (.inr ⟨s, sourceG, eq.symm⟩))
  · intro p
    have moved := sum_entries_update₂ (F := F) ht hu ne (some f) y p
    rw [entries, owns.ledger p]
    rw [idle, hG, ← hy, Frame.entries_none] at moved
    simp only [Frame.entries, source, held, sourceG] at moved
    rw [← hy]
    simp only [Frame.entries]
    omega
  · rintro w h (rfl | rfl) hH
    · rw [atT] at hH
      cases hH
      refine ⟨mine, fun a key => .inr ⟨s, sourceG, (keyF a key).symm⟩, ?_, ht⟩
      rw [address, update_self]
    · rw [atU, ← hy] at hH
      cases hH
      refine ⟨owns.aborted_frame hG keeps entries, fun a key => .inl (aborted_key key), ?_, hu⟩
      rw [update_of_ne addresses]
      exact owns.dead w g hG
  · have apart : ∀ k a, some k = y → f.Key a → ¬ k.Key a := by
      intro k a eqY keyH keyK
      rw [← hy] at eqY
      cases eqY
      exact addresses ((aborted_key keyK).trans (keyF a keyH))
    rintro w w' h k a (rfl | rfl) (rfl | rfl) hH hK keyH keyK
    · rfl
    · rw [atT] at hH
      cases hH
      exact absurd keyK (apart k a (hK.symm.trans atU) keyH)
    · rw [atT] at hK
      cases hK
      exact absurd keyH (apart h a (hH.symm.trans atU) keyK)
    · rfl
  · rintro a o' (rfl | ⟨r, hr, rfl⟩) now _
    · rw [update_of_ne addresses, owns.dead u g hG] at now
      cases now
    · rw [sourceG] at hr
      cases hr
      rw [update_self] at now
      cases now
  · intro C hC touched
    by_cases eq : C = X
    · subst eq
      exact .inr ⟨t, f, atT, usedX hC⟩
    · have usedC := (used C eq).mp hC
      rcases touched with ⟨a, rfl | ⟨r, hr, rfl⟩, carriesC⟩ | unused
      · have same := owns.target_of_carries hG usedC carriesC
        rw [targetG] at same
        cases same
        exact absurd rfl eq
      · rw [sourceG] at hr
        cases hr
        exact absurd carriesC (owns.not_used_of_moving hG sourceG usedC)
      · exact absurd usedC unused

end Owns
end CompactFit
