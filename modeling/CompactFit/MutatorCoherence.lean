import CompactFit.BlockMetadata
import CompactFit.LockPageSafety
import Mathlib.Order.Interval.Finset.Nat

/-!
One object that `do_compaction` moves while the application reads and writes it. Nothing
keeps the application out: it takes no lock and looks only at the word of the abstract
address. The copy is byte by byte, in any order within an increment, so that an access of
the application falls between any two memory accesses of the move. The compactions of the
runs of both builds are such moves.
-/

namespace CompactFit
open ByteMemory AddressPool LawfulAddressPool

/-- The builds in which the class lock is released before the copy is complete. -/
inductive LockBuild where
  | lockClass | lockPage
deriving DecidableEq

/-- The two blocks of `size` bytes and the `user` bytes of the object; the words behind
these are metadata. -/
structure Move where
  build : LockBuild
  incrementalMemcpy : Nat
  src : Nat
  dest : Nat
  size : Nat
  user : Nat
  src_aligned : src % 4 = 0
  dest_aligned : dest % 4 = 0
  apart : src + size ≤ dest ∨ dest + size ≤ src
  user_end : user + 4 ≤ size
  page_whole : build = .lockPage → incrementalMemcpy = 0

/-- The user bytes end before the partition word of blocks that have one. -/
def Move.Reserved (m : Move) : Prop :=
  m.incrementalMemcpy ≠ 0 → m.incrementalMemcpy < m.size → m.user + 8 ≤ m.size

/-- Where `do_compaction` is. `copying off` is inside the `memcpy` of the increment from
byte `off` on, and `linking off` before its second partition field is set. -/
inductive MovePhase where
  | start | marked | copying (off : Nat) | linking (off : Nat) | moved
deriving DecidableEq

namespace MovePhase

def isLinking : MovePhase → Bool
  | .linking _ => true
  | _ => false

/-- The phase is inside an increment, and its first byte satisfies `P`. -/
def Copying (P : Nat → Prop) : MovePhase → Prop
  | .copying off => P off
  | _ => False

instance (P : Nat → Prop) [DecidablePred P] : (phase : MovePhase) → Decidable (phase.Copying P)
  | .copying off => inferInstanceAs (Decidable (P off))
  | .start | .marked | .linking _ | .moved => isFalse not_false

theorem copying_iff {P : Nat → Prop} {phase : MovePhase} :
    phase.Copying P ↔ ∃ off, phase = .copying off ∧ P off := by
  cases phase <;> simp [Copying]

end MovePhase

/-- The memory and the word of the object's abstract address. `last` is what the application
has written last, `copied` the bytes already copied; `missed` are the bytes last written
while the address did not designate the block that the copy makes final. -/
structure MoveState where
  memory : Memory
  aa : Nat
  phase : MovePhase
  copied : Finset Nat
  last : Memory
  missed : Finset Nat

inductive MoveAction where
  | mark | begin | copy (k : Nat) | linkTarget | linkSource | finish
  | release (memory : Memory)
  | write (j w : Nat)

namespace MoveState

/-- The block the word designates, with the flag bits masked off. -/
def designated (S : MoveState) : Nat := S.aa - S.aa % 4

def read (S : MoveState) (j : Nat) : Nat := readWord S.memory (S.designated + j)

def lastWord (S : MoveState) (j : Nat) : Nat := readWord S.last j

/-- The word of the abstract address leads to the target block. -/
def Switched (m : Move) (S : MoveState) : Prop :=
  match S.phase with
  | .start | .marked => False
  | .copying _ | .linking _ => m.build = .lockPage
  | .moved => True

instance (m : Move) (S : MoveState) : Decidable (S.Switched m) := by
  unfold Switched
  split <;> infer_instance

end MoveState

namespace Move

def incrementEnd (m : Move) (off : Nat) : Nat :=
  if m.incrementalMemcpy ≠ 0 then min m.size (off + m.incrementalMemcpy) else m.size

def Enabled (m : Move) (S : MoveState) : MoveAction → Prop
  | .mark => S.phase = .start
  | .begin => S.phase = .marked
  | .copy k => S.phase.Copying fun off => off ≤ k ∧ k < m.incrementEnd off ∧ k ∉ S.copied
  | .linkTarget => S.phase.Copying fun off => m.incrementEnd off < m.size ∧
      ∀ k, k < m.incrementEnd off → off ≤ k → k ∈ S.copied
  | .linkSource => S.phase.isLinking
  | .finish => S.phase.Copying fun off => m.size ≤ m.incrementEnd off ∧
      ∀ k, k < m.size → off ≤ k → k ∈ S.copied
  | .release memory => S.phase = .moved ∧ AgreeOn S.memory memory m.dest m.user
  | .write j _ => j + 4 ≤ m.user

instance (m : Move) (S : MoveState) : (a : MoveAction) → Decidable (m.Enabled S a)
  | .mark => inferInstanceAs (Decidable (S.phase = .start))
  | .begin => inferInstanceAs (Decidable (S.phase = .marked))
  | .copy k => inferInstanceAs (Decidable (S.phase.Copying fun off =>
      off ≤ k ∧ k < m.incrementEnd off ∧ k ∉ S.copied))
  | .linkTarget => inferInstanceAs (Decidable (S.phase.Copying fun off =>
      m.incrementEnd off < m.size ∧ ∀ k, k < m.incrementEnd off → off ≤ k → k ∈ S.copied))
  | .linkSource => inferInstanceAs (Decidable (S.phase.isLinking = true))
  | .finish => inferInstanceAs (Decidable (S.phase.Copying fun off =>
      m.size ≤ m.incrementEnd off ∧ ∀ k, k < m.size → off ≤ k → k ∈ S.copied))
  | .release memory => inferInstanceAs (Decidable (S.phase = .moved ∧
      ∀ j, j < m.user → memory (m.dest + j) = S.memory (m.dest + j)))
  | .write j _ => inferInstanceAs (Decidable (j + 4 ≤ m.user))

def wordBytes (j : Nat) : Finset Nat := Finset.Ico j (j + 4)

def perform (m : Move) (S : MoveState) : MoveAction → MoveState
  | .mark => { S with aa := S.aa ||| abortCompactFlag, phase := .marked }
  | .begin => { S with
      aa := if m.build = .lockPage then m.dest else S.aa
      phase := .copying 0 }
  | .copy k => { S with
      memory := writeByte S.memory (m.dest + k) (S.memory (m.src + k))
      copied := insert k S.copied }
  | .linkTarget => { S with
      memory := writeWord S.memory (m.dest + (m.size - 8)) m.src
      phase := match S.phase with
        | .copying off => .linking (m.incrementEnd off)
        | phase => phase }
  | .linkSource => { S with
      memory := writeWord S.memory (m.src + (m.size - 8)) m.dest
      phase := match S.phase with
        | .linking off => .copying off
        | phase => phase }
  | .finish => { S with aa := m.dest, phase := .moved }
  | .release memory => { S with memory := memory }
  | .write j w => { S with
      memory := writeWord S.memory (S.designated + j) w
      last := writeWord S.last j w
      missed := (S.missed \ wordBytes j) ∪
        (wordBytes j).filter fun k => ¬ (S.Switched m ↔ k ∈ S.copied) }

/-- Before the move the word designates the source block, whose bytes were last written. -/
structure Initial (m : Move) (S : MoveState) : Prop where
  aa : S.aa = m.src
  phase : S.phase = .start
  copied : S.copied = ∅
  missed : S.missed = ∅
  last : ∀ k, k < m.user → S.memory (m.src + k) = S.last k

/-- The interleavings of the move with the accesses of the application. -/
inductive Run (m : Move) : MoveState → Prop where
  | init {S : MoveState} : m.Initial S → Run m S
  | step {S : MoveState} (a : MoveAction) : Run m S → m.Enabled S a → Run m (m.perform S a)

/-- Every read returns the word last written. -/
def Coherent (m : Move) : Prop :=
  ∀ S, m.Run S → ∀ j, j + 4 ≤ m.user → S.read j = S.lastWord j

/-- After the switch a byte counts once it is copied, unless it was missed; before it is
copied it counts if it was written since the switch. -/
def Reliable (m : Move) (S : MoveState) (k : Nat) : Prop :=
  S.Switched m → (k ∈ S.copied ↔ k ∉ S.missed)

/-! ### What a step preserves -/

/-- Where the bytes last written are. -/
structure Tracked (m : Move) (S : MoveState) : Prop where
  aa : S.aa = if S.Switched m then m.dest else if S.phase = .start then m.src else m.src + 1
  before : ∀ k, k < m.user → ¬ S.Switched m → S.memory (m.src + k) = S.last k
  fresh : ∀ k, k < m.user → ¬ S.Switched m → k ∉ S.copied → k ∉ S.missed
  copied : ∀ k, k < m.user → k ∈ S.copied → k ∉ S.missed → S.memory (m.dest + k) = S.last k
  ahead : ∀ k, k < m.user → S.Switched m → k ∉ S.copied → k ∈ S.missed →
    S.memory (m.dest + k) = S.last k
  pending : ∀ k, k < m.user → S.Switched m → k ∉ S.copied → k ∉ S.missed →
    S.memory (m.src + k) = S.last k
  early : S.phase = .start ∨ S.phase = .marked → S.copied = ∅
  increments : ∀ off, S.phase = .copying off ∨ S.phase = .linking off → ∀ k, k < off → k ∈ S.copied
  whole : S.phase = .moved → ∀ k, k < m.size → k ∈ S.copied
  room : ∀ off, S.phase = .linking off → m.user + 8 ≤ m.size

variable {m : Move} {S : MoveState}

theorem Tracked.designated (ok : m.Tracked S) :
    S.designated = if S.Switched m then m.dest else m.src := by
  have src := m.src_aligned
  have dest := m.dest_aligned
  rw [MoveState.designated, ok.aa]
  split
  · omega
  · split <;> omega

theorem tracked_init (init : m.Initial S) : m.Tracked S := by
  have still : ¬ S.Switched m := by
    rw [MoveState.Switched, init.phase]
    exact not_false
  refine ⟨?_, fun k hk _ => init.last k hk, fun k _ _ _ => ?_, fun k _ mem => ?_,
    fun k _ switched => absurd switched still, fun k _ switched => absurd switched still,
    fun _ => init.copied, fun off phase => ?_, fun moved => ?_, fun off phase => ?_⟩
  · rw [if_neg still, if_pos init.phase, init.aa]
  · rw [init.missed]
    exact Finset.notMem_empty k
  · rw [init.copied] at mem
    cases mem
  · rw [init.phase] at phase
    rcases phase with phase | phase <;> cases phase
  · rw [init.phase] at moved
    cases moved
  · rw [init.phase] at phase
    cases phase

theorem Tracked.copy (ok : m.Tracked S) {k off : Nat} (fresh : k ∉ S.copied)
    (phase : S.phase = .copying off) (hk : k < m.size) : m.Tracked (m.perform S (.copy k)) := by
  have apart := m.apart
  have user := m.user_end
  have source : ∀ i, i < m.user →
      writeByte S.memory (m.dest + k) (S.memory (m.src + k)) (m.src + i) =
        S.memory (m.src + i) := by
    intro i hi
    have ne : m.src + i ≠ m.dest + k := by omega
    simp only [writeByte, ne, if_false]
  have target : ∀ i, i ≠ k →
      writeByte S.memory (m.dest + k) (S.memory (m.src + k)) (m.dest + i) =
        S.memory (m.dest + i) := by
    intro i hi
    have ne : m.dest + i ≠ m.dest + k := by omega
    simp only [writeByte, ne, if_false]
  have same : (m.perform S (.copy k)).Switched m ↔ S.Switched m := Iff.rfl
  refine ⟨?_, fun i hi still => ?_, fun i hi still out => ?_, fun i hi mem notMissed => ?_,
    fun i hi switched out missed => ?_, fun i hi switched out notMissed => ?_, fun early => ?_,
    fun o at_ i hi => ?_, fun moved => ?_, ok.room⟩
  · exact ok.aa
  · exact (source i hi).trans (ok.before i hi still)
  · exact ok.fresh i hi still fun mem => out (Finset.mem_insert_of_mem mem)
  · rcases Finset.mem_insert.mp mem with rfl | mem
    · -- the byte comes from the source, which is current unless the byte was missed
      have value : S.memory (m.src + i) = S.last i := by
        by_cases switched : S.Switched m
        · exact ok.pending i hi switched fresh notMissed
        · exact ok.before i hi switched
      change writeByte S.memory (m.dest + i) (S.memory (m.src + i)) (m.dest + i) = S.last i
      simp only [writeByte, if_true]
      exact value
    · have ne : i ≠ k := fun eq => fresh (eq ▸ mem)
      exact (target i ne).trans (ok.copied i hi mem notMissed)
  · have ne : i ≠ k := fun eq => out (eq ▸ Finset.mem_insert_self k S.copied)
    exact (target i ne).trans (ok.ahead i hi switched
      (fun mem => out (Finset.mem_insert_of_mem mem)) missed)
  · exact (source i hi).trans (ok.pending i hi switched
      (fun mem => out (Finset.mem_insert_of_mem mem)) notMissed)
  · have phase' : S.phase = .start ∨ S.phase = .marked := early
    rw [phase] at phase'
    rcases phase' with phase' | phase' <;> cases phase'
  · exact Finset.mem_insert_of_mem (ok.increments o at_ i hi)
  · have phase' : S.phase = .moved := moved
    rw [phase] at phase'
    cases phase'

theorem mem_wordBytes {j k : Nat} : k ∈ wordBytes j ↔ j ≤ k ∧ k < j + 4 := Finset.mem_Ico

theorem mem_missed {j w k : Nat} : k ∈ (m.perform S (.write j w)).missed ↔
    k ∈ S.missed ∧ k ∉ wordBytes j ∨ k ∈ wordBytes j ∧ ¬ (S.Switched m ↔ k ∈ S.copied) := by
  simp only [perform, Finset.mem_union, Finset.mem_sdiff, Finset.mem_filter]

/-- A written word reads the same in the block and in what was written last. -/
theorem written_byte (memory last : Memory) (base w : Nat) {j k : Nat} (mem : k ∈ wordBytes j) :
    writeWord memory (base + j) w (base + k) = writeWord last j w k := by
  obtain ⟨lo, hi⟩ := mem_wordBytes.mp mem
  obtain ⟨i, rfl⟩ := Nat.exists_eq_add_of_le lo
  rw [← Nat.add_assoc, writeWord_of_inside _ (by omega), writeWord_of_inside _ (by omega)]

theorem unwritten_byte (memory : Memory) (base w : Nat) {j k : Nat} (out : k ∉ wordBytes j) :
    writeWord memory (base + j) w (base + k) = memory (base + k) := by
  rw [mem_wordBytes, not_and_or] at out
  exact writeWord_of_outside _ (by omega)

theorem Tracked.write (ok : m.Tracked S) {j w : Nat} (hj : j + 4 ≤ m.user) :
    m.Tracked (m.perform S (.write j w)) := by
  have apart := m.apart
  have user := m.user_end
  have last : ∀ k, k ∉ wordBytes j → writeWord S.last j w k = S.last k := by
    intro k out
    rw [mem_wordBytes, not_and_or] at out
    exact writeWord_of_outside _ (by omega)
  have other : ∀ {a b k}, (a = m.src ∧ b = m.dest ∨ a = m.dest ∧ b = m.src) → k < m.user →
      writeWord S.memory (a + j) w (b + k) = S.memory (b + k) := by
    intro a b k ends hk
    exact writeWord_of_outside _ (by omega)
  have same : (m.perform S (.write j w)).Switched m ↔ S.Switched m := Iff.rfl
  have memory : (m.perform S (.write j w)).memory = writeWord S.memory (S.designated + j) w := rfl
  have written : (m.perform S (.write j w)).last = writeWord S.last j w := rfl
  have copied : (m.perform S (.write j w)).copied = S.copied := rfl
  refine ⟨ok.aa, fun k hk still => ?_, fun k hk still out => ?_, fun k hk mem notMissed => ?_,
    fun k hk switched out missed => ?_, fun k hk switched out notMissed => ?_, ok.early,
    ok.increments, ok.whole, ok.room⟩
  · rw [same] at still
    rw [memory, written, ok.designated, if_neg still]
    by_cases mem : k ∈ wordBytes j
    · exact written_byte _ _ _ _ mem
    · rw [unwritten_byte _ _ _ mem, last k mem]
      exact ok.before k hk still
  · rw [same] at still
    rw [copied] at out
    rw [mem_missed]
    rintro (⟨missed, _⟩ | ⟨_, window⟩)
    · exact ok.fresh k hk still out missed
    · exact window (iff_of_false still out)
  · rw [copied] at mem
    rw [mem_missed, not_or] at notMissed
    rw [memory, written, ok.designated]
    by_cases here : k ∈ wordBytes j
    · have switched : S.Switched m := by
        by_contra still
        exact notMissed.2 ⟨here, fun iff => still (iff.mpr mem)⟩
      rw [if_pos switched]
      exact written_byte _ _ _ _ here
    · have old := ok.copied k hk mem fun missed => notMissed.1 ⟨missed, here⟩
      rw [last k here, ← old]
      split
      · exact unwritten_byte _ _ _ here
      · exact other (.inl ⟨rfl, rfl⟩) hk
  · rw [same] at switched
    rw [copied] at out
    rw [mem_missed] at missed
    rw [memory, written, ok.designated, if_pos switched]
    rcases missed with ⟨missed, notHere⟩ | ⟨here, _⟩
    · rw [unwritten_byte _ _ _ notHere, last k notHere]
      exact ok.ahead k hk switched out missed
    · exact written_byte _ _ _ _ here
  · rw [same] at switched
    rw [copied] at out
    rw [mem_missed, not_or] at notMissed
    have notHere : k ∉ wordBytes j :=
      fun here => notMissed.2 ⟨here, fun iff => out (iff.mp switched)⟩
    rw [memory, written, ok.designated, if_pos switched, last k notHere,
      other (.inr ⟨rfl, rfl⟩) hk]
    exact ok.pending k hk switched out fun missed => notMissed.1 ⟨missed, notHere⟩

/-- A step that changes none of the bytes in question. -/
theorem Tracked.frame (ok : m.Tracked S) {S' : MoveState} (aa : S'.aa = S.aa)
    (copied : S'.copied = S.copied) (last : S'.last = S.last) (missed : S'.missed = S.missed)
    (switched : S'.Switched m ↔ S.Switched m) (started : S.phase ≠ .start)
    (target : ∀ k, k < m.user → S'.memory (m.dest + k) = S.memory (m.dest + k))
    (source : ∀ k, k < m.user → k ∉ S.copied ∨ ¬ S.Switched m →
      S'.memory (m.src + k) = S.memory (m.src + k))
    (running : S'.phase ≠ .start ∧ S'.phase ≠ .marked)
    (increments : ∀ off, S'.phase = .copying off ∨ S'.phase = .linking off →
      ∀ k, k < off → k ∈ S.copied)
    (whole : S'.phase = .moved → ∀ k, k < m.size → k ∈ S.copied)
    (room : ∀ off, S'.phase = .linking off → m.user + 8 ≤ m.size) : m.Tracked S' := by
  refine ⟨?_, fun k hk still => ?_, fun k hk still => ?_, fun k hk => ?_,
    fun k hk on => ?_, fun k hk on out => ?_, fun early => ?_, ?_, ?_, room⟩
  · have old := ok.aa
    rw [if_neg started] at old
    rw [aa, if_neg running.1, old]
    simp only [switched]
  · rw [switched] at still
    rw [source k hk (.inr still), last]
    exact ok.before k hk still
  · rw [copied, missed]
    exact ok.fresh k hk (by rwa [switched] at still)
  · rw [copied, missed, last, target k hk]
    exact ok.copied k hk
  · rw [copied, missed, last, target k hk]
    exact ok.ahead k hk (switched.mp on)
  · rw [copied] at out
    rw [missed, last, source k hk (.inl out)]
    exact ok.pending k hk (switched.mp on) out
  · rcases early with early | early
    · exact absurd early running.1
    · exact absurd early running.2
  · rw [copied]
    exact increments
  · rw [copied]
    exact whole

/-- The increments before the last one leave room for the partition field. -/
theorem Reserved.room (reserved : m.Reserved) {off : Nat} (lt : m.incrementEnd off < m.size) :
    m.user + 8 ≤ m.size ∧ m.build ≠ .lockPage := by
  rw [incrementEnd] at lt
  split at lt
  next inc =>
    exact ⟨reserved inc (by omega), fun page => inc (m.page_whole page)⟩
  next => omega

/-- A write behind the user bytes of a block changes no user byte. -/
theorem partition_frame (memory : Memory) {base other w k : Nat} (room : m.user + 8 ≤ m.size)
    (ends : base = m.src ∧ other = m.dest ∨ base = m.dest ∧ other = m.src) (hk : k < m.user) :
    writeWord memory (base + (m.size - 8)) w (base + k) = memory (base + k) ∧
      writeWord memory (base + (m.size - 8)) w (other + k) = memory (other + k) := by
  have apart := m.apart
  exact ⟨writeWord_of_outside _ (by omega), writeWord_of_outside _ (by omega)⟩

theorem Tracked.mark (ok : m.Tracked S) (phase : S.phase = .start) :
    m.Tracked (m.perform S .mark) := by
  have still : ¬ S.Switched m := by
    rw [MoveState.Switched, phase]
    exact not_false
  have none := ok.early (.inl phase)
  have aa := ok.aa
  rw [if_neg still, if_pos phase] at aa
  refine ⟨?_, fun k hk _ => ok.before k hk still, fun k hk _ => ok.fresh k hk still, ok.copied,
    nofun, nofun, fun _ => none, nofun, nofun, nofun⟩
  change S.aa ||| abortCompactFlag = _
  rw [aa, or_compact_flag m.src_aligned]
  rfl

theorem Tracked.begin (ok : m.Tracked S) (phase : S.phase = .marked) :
    m.Tracked (m.perform S .begin) := by
  have still : ¬ S.Switched m := by
    rw [MoveState.Switched, phase]
    exact not_false
  have none : S.copied = ∅ := ok.early (.inr phase)
  have out : ∀ k, k ∉ S.copied := fun k => none ▸ Finset.notMem_empty k
  have aa := ok.aa
  rw [if_neg still, phase, if_neg (by decide)] at aa
  refine ⟨?_, fun k hk _ => ok.before k hk still, fun k hk _ => ok.fresh k hk still, ok.copied,
    fun k hk _ out missed => absurd missed (ok.fresh k hk still out),
    fun k hk _ _ _ => ok.before k hk still, nofun, fun off at_ k hk => ?_, nofun, nofun⟩
  · change (if m.build = .lockPage then m.dest else S.aa) = _
    rw [aa]
    rfl
  · have zero : off = 0 := by
      rcases at_ with at_ | at_ <;> cases at_
      rfl
    omega

/-- The bytes up to the end of an increment are copied when all of the increment are. -/
theorem Tracked.reached (ok : m.Tracked S) {off n : Nat} (phase : S.phase = .copying off)
    (all : ∀ k, off ≤ k → k < n → k ∈ S.copied) : ∀ k, k < n → k ∈ S.copied := by
  intro k hk
  by_cases lo : off ≤ k
  · exact all k lo hk
  · exact ok.increments off (.inl phase) k (Nat.lt_of_not_le lo)

theorem Tracked.linkTarget (ok : m.Tracked S) (reserved : m.Reserved) {off : Nat}
    (phase : S.phase = .copying off) (lt : m.incrementEnd off < m.size)
    (all : ∀ k, off ≤ k → k < m.incrementEnd off → k ∈ S.copied) :
    m.Tracked (m.perform S .linkTarget) := by
  obtain ⟨room, _⟩ := reserved.room lt
  have phase' : (m.perform S .linkTarget).phase = .linking (m.incrementEnd off) := by
    simp only [Move.perform, phase]
  refine ok.frame rfl rfl rfl rfl ?_ (by rw [phase]; exact nofun)
    (fun k hk => (partition_frame _ room (.inr ⟨rfl, rfl⟩) hk).1)
    (fun k hk _ => (partition_frame _ room (.inr ⟨rfl, rfl⟩) hk).2) ?_ ?_ ?_ fun _ _ => room
  · rw [MoveState.Switched, MoveState.Switched, phase, phase']
  · rw [phase']
    exact ⟨nofun, nofun⟩
  · rw [phase']
    rintro o (at_ | at_) <;> cases at_
    exact ok.reached phase all
  · rw [phase']
    exact nofun

theorem Tracked.linkSource (ok : m.Tracked S) {off : Nat} (phase : S.phase = .linking off) :
    m.Tracked (m.perform S .linkSource) := by
  have room := ok.room off phase
  have phase' : (m.perform S .linkSource).phase = .copying off := by
    simp only [Move.perform, phase]
  refine ok.frame rfl rfl rfl rfl ?_ (by rw [phase]; exact nofun)
    (fun k hk => (partition_frame _ room (.inl ⟨rfl, rfl⟩) hk).2)
    (fun k hk _ => (partition_frame _ room (.inl ⟨rfl, rfl⟩) hk).1) ?_ ?_ ?_ ?_
  · rw [MoveState.Switched, MoveState.Switched, phase, phase']
  · rw [phase']
    exact ⟨nofun, nofun⟩
  · rw [phase']
    rintro o (at_ | at_) k hk <;> cases at_
    exact ok.increments off (.inr phase) k hk
  · rw [phase']
    exact nofun
  · rw [phase']
    exact nofun

theorem Tracked.finish (ok : m.Tracked S) (whole : ∀ k, k < m.size → k ∈ S.copied) :
    m.Tracked (m.perform S .finish) := by
  have user := m.user_end
  have mem : ∀ k, k < m.user → k ∈ S.copied := fun k hk => whole k (by omega)
  exact ⟨rfl, fun k _ still => absurd trivial still, fun k _ still => absurd trivial still,
    ok.copied, fun k hk _ out => absurd (mem k hk) out, fun k hk _ out => absurd (mem k hk) out,
    nofun, nofun, fun _ => whole, nofun⟩

/-- A moved object is in the target block, so the source block may be used again. -/
theorem Tracked.release (ok : m.Tracked S) {memory : Memory} (phase : S.phase = .moved)
    (agree : ∀ k, k < m.user → memory (m.dest + k) = S.memory (m.dest + k)) :
    m.Tracked (m.perform S (.release memory)) := by
  have user := m.user_end
  refine ok.frame rfl rfl rfl rfl Iff.rfl (by rw [phase]; exact nofun) agree
    (fun k hk out => ?_) ?_ ok.increments ok.whole ok.room
  · rcases out with out | still
    · exact absurd (ok.whole phase k (by omega)) out
    · rw [MoveState.Switched, phase] at still
      exact absurd trivial still
  · change S.phase ≠ _ ∧ S.phase ≠ _
    rw [phase]
    exact ⟨nofun, nofun⟩

theorem Tracked.perform (ok : m.Tracked S) (reserved : m.Reserved) (a : MoveAction)
    (enabled : m.Enabled S a) : m.Tracked (m.perform S a) := by
  cases a with
  | mark => exact ok.mark enabled
  | begin => exact ok.begin enabled
  | copy k =>
      obtain ⟨off, phase, _, hk, fresh⟩ := MovePhase.copying_iff.mp enabled
      refine ok.copy fresh phase (Nat.lt_of_lt_of_le hk ?_)
      rw [incrementEnd]
      split
      · exact Nat.min_le_left _ _
      · exact Nat.le_refl _
  | linkTarget =>
      obtain ⟨off, phase, lt, all⟩ := MovePhase.copying_iff.mp enabled
      exact ok.linkTarget reserved phase lt fun k lo hk => all k hk lo
  | linkSource =>
      obtain ⟨off, phase⟩ : ∃ off, S.phase = .linking off := by
        cases h : S.phase with
        | linking off => exact ⟨off, rfl⟩
        | start | marked | copying | moved =>
            rw [Enabled, h] at enabled
            cases enabled
      exact ok.linkSource phase
  | finish =>
      obtain ⟨off, phase, _, all⟩ := MovePhase.copying_iff.mp enabled
      exact ok.finish (ok.reached phase fun k lo hk => all k hk lo)
  | release memory =>
      obtain ⟨phase, agree⟩ := enabled
      exact ok.release phase agree
  | write j w => exact ok.write enabled

theorem Run.tracked (run : m.Run S) (reserved : m.Reserved) : m.Tracked S := by
  induction run with
  | init init => exact tracked_init init
  | step a _ enabled ih => exact ih.perform reserved a enabled

theorem Tracked.byte (ok : m.Tracked S) {k : Nat} (hk : k < m.user) (reliable : m.Reliable S k) :
    S.memory (S.designated + k) = S.last k := by
  rw [ok.designated]
  by_cases switched : S.Switched m
  · rw [if_pos switched]
    by_cases mem : k ∈ S.copied
    · exact ok.copied k hk mem ((reliable switched).mp mem)
    · have missed : k ∈ S.missed := by
        by_contra notMissed
        exact mem ((reliable switched).mpr notMissed)
      exact ok.ahead k hk switched mem missed
  · rw [if_neg switched]
    exact ok.before k hk switched

theorem Run.coherent (run : m.Run S) (reserved : m.Reserved) {j : Nat} (user : j + 4 ≤ m.user)
    (reliable : ∀ k, j ≤ k → k < j + 4 → m.Reliable S k) : S.read j = S.lastWord j := by
  have ok := run.tracked reserved
  refine readWord_congr fun i hi => ?_
  rw [Nat.add_assoc]
  exact ok.byte (by omega) (reliable (j + i) (by omega) (by omega))

/-! ### The increments of `do_compaction` -/

def script (m : Move) : List MoveAction → MoveState → Option MoveState
  | [], S => some S
  | a :: as, S => if m.Enabled S a then script m as (m.perform S a) else none

theorem script_append (as bs : List MoveAction) :
    m.script (as ++ bs) S = (m.script as S).bind (m.script bs) := by
  induction as generalizing S with
  | nil => rfl
  | cons a as ih =>
      simp only [List.cons_append, script]
      split
      · exact ih
      · rfl

theorem run_of_script {as : List MoveAction} {S' : MoveState} (run : m.Run S)
    (h : m.script as S = some S') : m.Run S' := by
  induction as generalizing S with
  | nil =>
      cases h
      exact run
  | cons a as ih =>
      simp only [script] at h
      split at h
      next enabled => exact ih (.step a run enabled) h
      next => cases h

def copies (k n : Nat) : List MoveAction := (List.range' k n).map .copy

/-- Byte by byte the copy of a range is `memcpy`. -/
theorem script_copies {off : Nat} (phase : S.phase = .copying off) (n : Nat) {k : Nat}
    (lo : off ≤ k) (hi : k + n ≤ m.incrementEnd off) (fresh : ∀ i, k ≤ i → i ∉ S.copied) :
    ∃ S', m.script (copies k n) S = some S' ∧ S'.phase = S.phase ∧ S'.aa = S.aa ∧
      S'.last = S.last ∧ S'.memory = memcpy S.memory (m.dest + k) (m.src + k) n ∧
      ∀ i, i ∈ S'.copied ↔ i ∈ S.copied ∨ k ≤ i ∧ i < k + n := by
  induction n generalizing S k with
  | zero =>
      refine ⟨S, rfl, rfl, rfl, rfl, ?_, fun i => ?_⟩
      · funext x
        rw [memcpy_of_outside _ (by omega)]
      · exact (or_iff_left (by omega)).symm
  | succ n ih =>
      have apart := m.apart
      have le : m.incrementEnd off ≤ m.size := by
        rw [incrementEnd]
        split
        · exact Nat.min_le_left _ _
        · exact Nat.le_refl _
      have enabled : m.Enabled S (.copy k) :=
        MovePhase.copying_iff.mpr ⟨off, phase, lo, by omega, fresh k (Nat.le_refl k)⟩
      obtain ⟨S', run, phase', aa, last, memory, copied⟩ :=
        ih (S := m.perform S (.copy k)) (k := k + 1)
        phase (by omega) (by omega) fun i hi mem => by
          rcases Finset.mem_insert.mp mem with rfl | mem
          · omega
          · exact fresh i (by omega) mem
      refine ⟨S', ?_, phase', aa, last, ?_, fun i => ?_⟩
      · rw [copies, List.range'_succ, List.map_cons, script, if_pos enabled]
        exact run
      · rw [memory]
        exact memcpy_succ S.memory (by omega)
      · rw [copied i, show i ∈ (m.perform S (.copy k)).copied ↔ i = k ∨ i ∈ S.copied from
          Finset.mem_insert]
        constructor
        · rintro ((rfl | mem) | ⟨lo, hi⟩)
          · exact .inr (by omega)
          · exact .inl mem
          · exact .inr (by omega)
        · rintro (mem | ⟨lo, hi⟩)
          · exact .inl (.inr mem)
          · by_cases eq : i = k
            · exact .inl (.inl eq)
            · exact .inr (by omega)

/-- The actions of one increment after which the class lock is released. -/
def increment (off n : Nat) : List MoveAction := copies off n ++ [.linkTarget, .linkSource]

theorem script_increment {off : Nat} (phase : S.phase = .copying off)
    (fresh : ∀ i, off ≤ i → i ∉ S.copied) (inc : m.incrementalMemcpy ≠ 0)
    (more : off + m.incrementalMemcpy < m.size) :
    ∃ S', m.script (increment off m.incrementalMemcpy) S = some S' ∧
      S'.phase = .copying (off + m.incrementalMemcpy) ∧ S'.aa = S.aa ∧ S'.last = S.last ∧
      S'.memory = writeWord (writeWord
        (memcpy S.memory (m.dest + off) (m.src + off) m.incrementalMemcpy)
          (m.dest + (m.size - 8)) m.src) (m.src + (m.size - 8)) m.dest ∧
      ∀ i, i ∈ S'.copied ↔ i ∈ S.copied ∨ off ≤ i ∧ i < off + m.incrementalMemcpy := by
  have end_ : m.incrementEnd off = off + m.incrementalMemcpy := by
    rw [incrementEnd, if_pos inc]
    omega
  obtain ⟨S1, run, phase1, aa, last, memory, copied⟩ := script_copies phase m.incrementalMemcpy
    (Nat.le_refl off) (Nat.le_of_eq end_.symm) fresh
  rw [phase] at phase1
  have link : m.Enabled S1 .linkTarget := MovePhase.copying_iff.mpr
    ⟨off, phase1, by omega, fun k hk lo => (copied k).mpr (.inr (by omega))⟩
  have linking : (m.perform S1 .linkTarget).phase = .linking (m.incrementEnd off) := by
    simp only [perform, phase1]
  have link' : m.Enabled (m.perform S1 .linkTarget) .linkSource := by
    rw [Enabled, linking]
    rfl
  refine ⟨m.perform (m.perform S1 .linkTarget) .linkSource, ?_, ?_, aa, last, ?_, copied⟩
  · rw [increment, script_append, run]
    simp only [Option.bind_some, script, if_pos link, if_pos link']
  · simp only [perform, phase1, end_]
  · simp only [perform, memory]

/-- The user bytes before byte `off` are in both blocks, whose partition fields are set. -/
structure Prefix (m : Move) (memory : Memory) (off : Nat) : Prop where
  bytes : ∀ j, j < off → j + 8 < m.size → memory (m.dest + j) = memory (m.src + j)
  parts : readWord memory (m.dest + (m.size - 8)) = m.src ∧
    readWord memory (m.src + (m.size - 8)) = m.dest

/-- A memory that has the first `n` increments already is the one after these. -/
theorem script_increments (large : 16 ≤ m.size) (low : m.src < 4294967296 ∧ m.dest < 4294967296)
    (inc : m.incrementalMemcpy ≠ 0) {memory : Memory} (n : Nat)
    (fit : n * m.incrementalMemcpy + 4 ≤ m.size)
    (done : m.Prefix memory (n * m.incrementalMemcpy)) (start : S.phase = .copying 0)
    (fresh : S.copied = ∅) (same : S.memory = memory) :
    ∃ as S', m.script as S = some S' ∧ S'.phase = .copying (n * m.incrementalMemcpy) ∧
      S'.aa = S.aa ∧ S'.last = S.last ∧ S'.memory = memory ∧
      ∀ i, i ∈ S'.copied ↔ i < n * m.incrementalMemcpy := by
  induction n with
  | zero =>
      refine ⟨[], S, rfl, ?_, rfl, rfl, same, fun i => ?_⟩
      · rw [start, Nat.zero_mul]
      · rw [fresh, Nat.zero_mul]
        simp
  | succ n ih =>
      rw [Nat.add_mul, Nat.one_mul] at fit done ⊢
      obtain ⟨as, S1, run, phase, aa, last, memory1, copied⟩ :=
        ih (by omega) ⟨fun j hj => done.bytes j (by omega), done.parts⟩
      obtain ⟨S2, run2, phase2, aa2, last2, memory2, copied2⟩ := script_increment phase
        (fun i hi mem => by have := (copied i).mp mem; omega) inc (by omega)
      have linked := linkedMemory memory (k := n * m.incrementalMemcpy)
        (n := m.incrementalMemcpy) (m.apart.symm) large (by omega) low.2 low.1
      refine ⟨as ++ increment (n * m.incrementalMemcpy) m.incrementalMemcpy, S2, ?_, phase2,
        aa2.trans aa, last2.trans last, ?_, fun i => ?_⟩
      · rw [script_append, run]
        exact run2
      · rw [memory2, memory1]
        exact linked.same large (fun j _ hj => done.bytes j hj) done.parts
      · rw [copied2, copied]
        omega

/-- The word designates the source block, whose bytes were last written. -/
def startState (m : Move) (memory : Memory) : MoveState :=
  { memory := memory, aa := m.src, phase := .start, copied := ∅,
    last := fun k => memory (m.src + k), missed := ∅ }

theorem initial_startState (m : Move) (memory : Memory) : m.Initial (m.startState memory) :=
  ⟨rfl, rfl, rfl, rfl, fun _ _ => rfl⟩

/-- The first increment can begin once the word is flagged. -/
theorem run_begun (m : Move) (memory : Memory) :
    m.Run (m.perform (m.perform (m.startState memory) .mark) .begin) :=
  .step .begin (.step .mark (.init (m.initial_startState memory)) rfl) rfl

end Move

/-! ### The compactions of the runs -/

/-- `M` is where a move is of which the heap has this memory and this word for the address `a`. -/
structure Mirrors (cfg : Config) (memory : Memory) (word : Nat) (live : Live) (a : Nat) (m : Move)
    (M : MoveState) : Prop where
  run : m.Run M
  memory : M.memory = memory
  aa : M.aa = word
  user : m.user = View.userBytes cfg m.size
  reserved : m.Reserved
  object : ∀ o, live a = some o → m.size = blockSize o.sc ∧
    ∀ j, j < o.size → j < m.user → M.last j = o.bytes j

theorem userBytes_end (cfg : Config) {size : Nat} (large : 16 ≤ size) :
    View.userBytes cfg size + 4 ≤ size := by
  rw [View.userBytes]
  split <;> omega

theorem InProgress.disjoint {cfg : Config} {comp : Compaction} {i : Nat}
    (at_ : InProgress cfg comp i) :
    blockStart comp.srcPage comp.srcIndex comp.size + comp.size ≤
        blockStart comp.targetPage comp.targetIndex comp.size ∨
      blockStart comp.targetPage comp.targetIndex comp.size + comp.size ≤
        blockStart comp.srcPage comp.srcIndex comp.size := by
  let v : View :=
    { used := fun _ => False, entries := fun _ => 0, sc := fun _ => comp.sc
      memory := fun _ => 0, word := fun _ => 0 }
  have placed : v.Placed comp.target := ⟨at_.sc, at_.indices.1⟩
  have disjoint := placed.disjoint (C := comp.source) ⟨at_.sc, at_.indices.2⟩ at_.apart
  rw [at_.size]
  exact disjoint.symm

/-- The move of a suspended `do_compaction` of the build with class locks. -/
def InProgress.move {cfg : Config} {comp : Compaction} {i : Nat} (at_ : InProgress cfg comp i) :
    Move where
  build := .lockClass
  incrementalMemcpy := cfg.incrementalMemcpy
  src := blockStart comp.srcPage comp.srcIndex comp.size
  dest := blockStart comp.targetPage comp.targetIndex comp.size
  size := comp.size
  user := View.userBytes cfg comp.size
  src_aligned := blockStart_word (at_.size ▸ blockSize_word at_.sc)
  dest_aligned := blockStart_word (at_.size ▸ blockSize_word at_.sc)
  apart := at_.disjoint
  user_end := userBytes_end cfg (at_.size ▸ blockSize_min at_.sc)
  page_whole := nofun

section Runs
variable {π : Type} [AddressPool π] [LawfulAddressPool π] {cfg : Config} {T t : Nat}

/-- The heap is a state of the move of every suspended call that is copying. -/
theorem Good.mirrored {h : Heap π} {live : Live} {F : Frames} {f : Frame} {B : Block} {s : Source}
    (good : Good cfg T h live F) (hF : F t = some f) (target : f.target = some B)
    (source : f.source = some s) (linked : s.linked = true) (j : Nat) :
    ∃ (i : Nat) (at_ : InProgress cfg (f.compaction B s j) i) (M : MoveState),
      Mirrors cfg h.memory (h.aaWord cfg s.address) live s.address at_.move M ∧
        M.phase = .copying (i * cfg.incrementalMemcpy) := by
  have c := good.copying hF target source
  obtain ⟨o, hlive, sok⟩ := c.obj
  obtain ⟨i, at_, _⟩ := good.inProgress hF target source linked j
  obtain ⟨inc, partB, partS⟩ := sok.linked linked
  have isAa := good.isAa s.address (.inl (by rw [hlive]; simp))
  have large := c.carries.placed.size_ge
  have room := sok.copied
  rw [c.sizeB] at inc large room
  have copied : i * cfg.incrementalMemcpy = s.copied := by
    have total : blockSize f.sc - s.copied + i * cfg.incrementalMemcpy = blockSize f.sc :=
      at_.remSize
    omega
  have starts := c.starts
  have src : at_.move.src = (h.view cfg).start s.block := starts.2
  have dest : at_.move.dest = (h.view cfg).start B := starts.1
  have size : at_.move.size = blockSize f.sc := rfl
  have done : at_.move.Prefix h.memory (i * at_.move.incrementalMemcpy) := by
    refine ⟨fun k hk low => ?_, ?_, ?_⟩
    · rw [src, dest]
      exact sok.before k (copied ▸ hk) (by rw [c.sizeB]; exact low)
    · rw [src, dest, size, ← partB, c.carries.placed.part_eq, c.sizeB]
      rfl
    · rw [src, dest, size, ← partS, sok.carries.placed.part_eq, c.sizeS]
      rfl
  obtain ⟨as, M, script, phase, aa, last, memory, _⟩ := Move.script_increments (m := at_.move)
    (S := at_.move.perform (at_.move.perform (at_.move.startState h.memory) .mark) .begin)
    (by rw [size]; exact large) (by rw [src, dest]; exact c.start.2) inc.1 i
    (by change i * cfg.incrementalMemcpy + 4 ≤ blockSize f.sc; omega) done rfl rfl rfl
  have run : at_.move.Run M := Move.run_of_script (at_.move.run_begun h.memory) script
  refine ⟨i, at_, M, ⟨run, memory, ?_, rfl, fun _ _ => ?_, fun o' now => ?_⟩, phase⟩
  · have word := sok.word
    simp only [Heap.view, isAa, if_true] at word
    rw [aa, word]
    refine (or_compact_flag at_.move.src_aligned).trans ?_
    rw [src]
    rfl
  · rw [show at_.move.user = _ from if_pos inc]
    change blockSize f.sc - 8 + 8 ≤ blockSize f.sc
    omega
  · obtain rfl : o = o' := Option.some.inj (hlive.symm.trans now)
    have class' : (h.view cfg).size B = blockSize o.sc := congrArg blockSize sok.obj
    refine ⟨c.sizeB.symm.trans class', fun k hk user => ?_⟩
    rw [last]
    change h.memory (at_.move.src + k) = _
    rw [src]
    exact sok.stores k hk (by rw [c.sizeS]; exact user)

/-- The heap is a state of the move of every thread that copies under page locks. -/
theorem LockPage.Invariant.mirrored {S : LockPage.System π} (inv : LockPage.Invariant cfg T S)
    {f : LockPage.Freeing} {n : LockPage.Copy} (place : S.places t = .compactCopy f n) :
    ∃ (m : Move) (M : MoveState),
      m.build = .lockPage ∧ m.size = blockSize f.sc ∧
      m.src = blockStart n.srcPage n.srcIndex m.size ∧ m.dest = blockStart f.page f.index m.size ∧
      Mirrors cfg S.heap.memory (S.heap.aaWord cfg n.srcAa) S.live n.srcAa m M ∧
      M.phase = .copying 0 ∧ ∀ k, k ∈ M.copied ↔ k < n.copied := by
  have copying : (S.places t).copying = some (f, n) := by rw [place]; rfl
  obtain ⟨kept, ok⟩ := inv.owners.copy t f n copying
  have isAa := inv.isAa _ (LockPage.Invariant.kept_out kept)
  have used := inv.owners.target_used copying
  have ne : n.source ≠ f.target := fun eq => ok.unused (eq ▸ used)
  have sizes := ok.size
  have startT : (S.heap.view cfg).start f.target = blockStart f.page f.index (blockSize f.sc) :=
    congrArg (blockStart f.page f.index) sizes.1
  have startS : (S.heap.view cfg).start n.source =
      blockStart n.srcPage n.srcIndex (blockSize f.sc) :=
    congrArg (blockStart n.srcPage n.srcIndex) sizes.2
  have valid : f.sc < sizeClasses := ok.sc.1 ▸ ok.placed.sc
  have apart := ok.source.disjoint ok.placed ne
  rw [sizes.1, sizes.2] at apart
  let m : Move :=
    { build := .lockPage
      incrementalMemcpy := 0
      src := (S.heap.view cfg).start n.source
      dest := (S.heap.view cfg).start f.target
      size := blockSize f.sc
      user := View.userBytes cfg (blockSize f.sc)
      src_aligned := startS ▸ blockStart_word (blockSize_word valid)
      dest_aligned := startT ▸ blockStart_word (blockSize_word valid)
      apart := apart
      user_end := userBytes_end cfg (blockSize_min valid)
      page_whole := fun _ => rfl }
  obtain ⟨M, script, phase, aa, last, memory, copied⟩ := Move.script_copies (m := m)
    (S := m.perform (m.perform (m.startState S.heap.memory) .mark) .begin) rfl n.copied
    (Nat.le_refl 0) (by rw [Nat.zero_add]; exact ok.copied) fun i _ mem => by cases mem
  have run : m.Run M := Move.run_of_script (m.run_begun S.heap.memory) script
  refine ⟨m, M, rfl, rfl, startS, startT,
    ⟨run, ?_, ?_, rfl, fun inc => absurd rfl inc, fun o now => ?_⟩, phase, fun k => ?_⟩
  · rw [memory]
    funext x
    by_cases inside : m.dest ≤ x ∧ x < m.dest + n.copied
    · obtain ⟨k, rfl⟩ := Nat.exists_eq_add_of_le inside.1
      rw [Nat.add_zero, Nat.add_zero, memcpy_of_inside _ (by omega)]
      exact (ok.before k (by omega)).symm
    · exact memcpy_of_outside _ (by omega)
  · have word := ok.word
    simp only [Heap.view, isAa, if_true] at word
    rw [aa, word]
    rfl
  · obtain ⟨sc, stores⟩ := ok.complete.object o now
    have class' : (S.heap.view cfg).size n.source = blockSize o.sc := congrArg blockSize sc
    refine ⟨sizes.2.symm.trans class', fun k hk user => ?_⟩
    rw [last]
    exact stores k hk (by rw [sizes.2]; exact user)
  · rw [copied]
    constructor
    · rintro (mem | ⟨_, hk⟩)
      · cases mem
      · omega
    · exact fun hk => .inr ⟨Nat.zero_le k, by omega⟩

end Runs

/-- In every interleaving of a move whose user bytes end before the partition word, a read returns
the word last written if all its bytes are reliable: always before the switch, and after it unless
a byte is still to be copied and was not written since, or was missed and not written since. At
every release of the class lock in a run of the build with class locks, and at every byte that is
copied in a run of the one with page locks, the heap is a state of such a move. -/
theorem mutator_coherent :
    (∀ (m : Move) (M : MoveState), m.Reserved → m.Run M → ∀ j, j + 4 ≤ m.user →
      (∀ k, j ≤ k → k < j + 4 → m.Reliable M k) → M.read j = M.lastWord j) ∧
    (∀ (cfg : Config) (T : Nat) (S S' : System AddressBuckets) (a : Action) (t : Nat)
      (call : Suspended), cfg.Compacting →
      CompactFit.Run cfg T (fun S a => Clean cfg S a ∧ AbortsFinal cfg S a)
        (AddressBuckets.initFreeAaList cfg.toAddressConfig) S →
      Enabled cfg T S a → Clean cfg S a → AbortsFinal cfg S a → Releases cfg S a S' t call →
      ∃ (i : Nat) (at_ : InProgress cfg call.comp i) (M : MoveState),
        Mirrors cfg S'.heap.memory (S'.heap.aaWord cfg call.comp.srcAa) S'.live call.comp.srcAa
          at_.move M ∧ M.phase = .copying (i * cfg.incrementalMemcpy)) ∧
    (∀ (cfg : Config) (T : Nat) (S : LockPage.System AddressBuckets) (t : Nat)
      (f : LockPage.Freeing) (n : LockPage.Copy), LockPage.Build cfg →
      LockPage.Reachable cfg T (AddressBuckets.initFreeAaList cfg.toAddressConfig) S →
      S.places t = .compactCopy f n → ∃ (m : Move) (M : MoveState),
        m.build = .lockPage ∧ m.size = blockSize f.sc ∧
        m.src = blockStart n.srcPage n.srcIndex m.size ∧ m.dest = blockStart f.page f.index m.size ∧
        Mirrors cfg S.heap.memory (S.heap.aaWord cfg n.srcAa) S.live n.srcAa m M ∧
        M.phase = .copying 0 ∧ ∀ k, k ∈ M.copied ↔ k < n.copied) := by
  refine ⟨fun m M reserved run j user reliable => run.coherent reserved user reliable, ?_, ?_⟩
  · intro cfg T S S' a t call config run enabled clean final releases
    obtain ⟨F, f, good, hF, waiting, running⟩ := run.answering config (fun _ _ ok => ok)
      (AddressBuckets.valid_init _ T) enabled ⟨clean, final⟩ releases
    cases waiting with
    | copying target source linked => exact good.mirrored hF target source linked 0
    | aborted none => exact absurd none running
  · intro cfg T S t f n build reachable place
    exact (reachable.invariant build.moving (AddressBuckets.valid_init _ T)).mirrored place

/-! ### Accesses that miss -/

theorem Move.exists_of_script {m : Move} (as : List MoveAction) {p : MoveState → Bool}
    (h : (m.script as (m.startState fun _ => 0)).any p = true) : ∃ S, m.Run S ∧ p S = true := by
  obtain ⟨S, run, ok⟩ := (Option.any_eq_true _ _).mp h
  exact ⟨S, run_of_script (.init (m.initial_startState _)) run, ok⟩

/-- A block of 24 bytes, 16 of them the application's, in increments of 8. -/
def classMove : Move where
  build := .lockClass
  incrementalMemcpy := 8
  src := 32
  dest := 64
  size := 24
  user := 16
  src_aligned := by decide
  dest_aligned := by decide
  apart := by decide
  user_end := by decide
  page_whole := nofun

def pageMove : Move :=
  { classMove with
    build := .lockPage
    incrementalMemcpy := 0
    page_whole := fun _ => rfl }

/-- One thread is copying the second of four objects of 7000 bytes. -/
theorem LockPage.pageLockConfig_copies : ∃ S : LockPage.System AddressBuckets,
    LockPage.Reachable LockPage.pageLockConfig 1
        (AddressBuckets.initFreeAaList LockPage.pageLockConfig.toAddressConfig) S ∧
      ∃ f n, S.places 0 = .compactCopy f n := by
  have passed : ((LockPage.script LockPage.pageLockConfig 1
      (callSteps 0 7 (.malloc 0 7000) ++ callSteps 0 7 (.malloc 0 7000) ++
        callSteps 0 7 (.malloc 0 7000) ++ callSteps 0 7 (.malloc 0 7000) ++
        callSteps 0 10 (.free 0 1048828) ++ callSteps 0 9 (.free 0 1048820))
      (LockPage.System.init LockPage.pageLockConfig
        (AddressBuckets.initFreeAaList LockPage.pageLockConfig.toAddressConfig))).any
      fun S => match S.places 0 with
        | .compactCopy _ _ => true
        | _ => false) = true := by decide +kernel
  obtain ⟨S, run, found⟩ := (Option.any_eq_true _ _).mp passed
  refine ⟨S, LockPage.Reachable.init.script run, ?_⟩
  split at found
  next f n place => exact ⟨f, n, place⟩
  next => cases found

/-- A write between the increments to a word that is not copied yet arrives, and copies of both
kinds are reached. -/
theorem mutator_coherent_ahead : (∃ S, classMove.Run S ∧ S.Switched classMove ∧
      S.lastWord 8 = 7 ∧ S.read 8 = S.lastWord 8) ∧
    (∃ (S' : System AddressBuckets) (call : Suspended) (m : Move) (M : MoveState),
      Mirrors smallConfig S'.heap.memory (S'.heap.aaWord smallConfig call.comp.srcAa) S'.live
        call.comp.srcAa m M ∧ m.build = .lockClass) ∧
    ∃ (S : LockPage.System AddressBuckets) (n : LockPage.Copy) (m : Move) (M : MoveState),
      Mirrors LockPage.pageLockConfig S.heap.memory (S.heap.aaWord LockPage.pageLockConfig n.srcAa)
        S.live n.srcAa m M ∧ m.build = .lockPage := by
  refine ⟨?_, ?_, ?_⟩
  · obtain ⟨S, run, found⟩ := Move.exists_of_script (m := classMove)
      ([.mark, .begin] ++ Move.copies 0 8 ++ [.write 8 7, .linkTarget, .linkSource] ++
        Move.copies 8 8 ++ [.linkTarget, .linkSource] ++ Move.copies 16 8 ++ [.finish])
      (p := fun S => decide (S.Switched classMove) && decide (S.lastWord 8 = 7) &&
        (List.range 12).all fun k => k ∈ S.copied ∧ k ∉ S.missed) (by decide +kernel)
    simp only [Bool.and_eq_true, decide_eq_true_eq, List.all_eq_true, List.mem_range] at found
    obtain ⟨⟨switched, last⟩, all⟩ := found
    exact ⟨S, run, switched, last, mutator_coherent.1 classMove S (fun _ _ => by decide) run 8
      (by decide) fun k _ hk _ => iff_of_true (all k hk).1 (all k hk).2⟩
  · obtain ⟨S, S', call, run, enabled, clean, releases⟩ := smallConfig_releases
    obtain ⟨_, _, M, mirrors, _⟩ := mutator_coherent.2.1 smallConfig 2 S S' _ 0 call
      smallConfig_compacting run enabled clean (abortsFinal_once rfl _) releases
    exact ⟨S', call, _, M, mirrors, rfl⟩
  · obtain ⟨S, reachable, f, n, place⟩ := LockPage.pageLockConfig_copies
    obtain ⟨m, M, build, _, _, _, mirrors, _⟩ := mutator_coherent.2.2 LockPage.pageLockConfig 1 S
      0 f n ⟨by decide, rfl⟩ reachable place
    exact ⟨S, n, m, M, mirrors, build⟩

/-- With class locks a write between the increments to a word that is copied is lost; with page
locks a write before the copy is. -/
theorem mutator_incoherent : ¬ classMove.Coherent ∧ ¬ pageMove.Coherent := by
  constructor
  · intro coherent
    obtain ⟨S, run, found⟩ := Move.exists_of_script (m := classMove)
      ([.mark, .begin] ++ Move.copies 0 8 ++ [.write 0 7, .linkTarget, .linkSource] ++
        Move.copies 8 8 ++ [.linkTarget, .linkSource] ++ Move.copies 16 8 ++ [.finish])
      (p := fun S => S.read 0 != S.lastWord 0) (by decide +kernel)
    exact bne_iff_ne.mp found (coherent S run 0 (by decide))
  · intro coherent
    obtain ⟨S, run, found⟩ := Move.exists_of_script (m := pageMove)
      ([.mark, .begin, .write 0 7] ++ Move.copies 0 24 ++ [.finish])
      (p := fun S => S.read 0 != S.lastWord 0) (by decide +kernel)
    exact bne_iff_ne.mp found (coherent S run 0 (by decide))

end CompactFit
