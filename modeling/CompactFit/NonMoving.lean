import CompactFit.Sequential
import CompactFit.UsableSize

/-!
The mode without compaction, `partial_compaction_bound = -1`. A reference is the address of
its page block, `cf_free` returns the block to its page, and no page becomes a source page:
at every operation boundary the live objects are the used blocks.
-/

namespace CompactFit
open Function ByteMemory AddressPool

section
variable {π : Type} [AddressPool π]

/-- The live objects are the used blocks, at the addresses of the blocks. -/
structure Housed (cfg : Config) (h : Heap π) (live : Live) : Prop where
  block : ∀ a o, live a = some o → ∃ B, (h.view cfg).used B ∧
    (h.view cfg).start B = a ∧ (h.pages B.page).sc = o.sc
  used : ∀ B, (h.view cfg).used B → live ((h.view cfg).start B) ≠ none

structure NonMoving (cfg : Config) (S : System π) : Prop where
  heap : HeapOk cfg S.heap
  entries : ∀ p, (S.heap.pages p).sourceentries = 0
  calls : ∀ t, S.calls t = none
  housed : Housed cfg S.heap S.live

def KeepsBytes (h h' : Heap π) : Prop :=
  ∀ x, (h'.pages (x / pageSize)).listFlags ≠ .free → h'.memory x = h.memory x

section Operations
variable {cfg : Config} {T t : Nat} {S : System π} {h h' : Heap π}

theorem nonMoving_init (cfg : Config) (addresses : π) :
    NonMoving cfg (System.init cfg addresses) := by
  obtain ⟨unused, entries, ok⟩ := initHeap_ok cfg addresses
  refine ⟨ok, entries, fun _ => rfl, fun a o hlive => ?_, fun B used => ?_⟩
  · cases hlive
  · exact absurd used (unused B.page B.index)

theorem update_eq_some {live : Live} {a b : Nat} {x : Option Obj} {o : Obj} :
    update live a x b = some o ↔ (b = a ∧ x = some o) ∨ (b ≠ a ∧ live b = some o) := by
  by_cases eq : b = a
  · subst eq
    simp
  · simp [eq]

theorem update_ne_none {live : Live} {a b : Nat} {o : Obj} (alive : live b ≠ none) :
    update live a (some o) b ≠ none := by
  by_cases eq : b = a
  · subst eq
    simp
  · simpa [eq] using alive

/-! ### `cf_malloc` -/

theorem TakenBlock.sc_eq {c p i : Nat} (taken : TakenBlock cfg c p i h h') (ok : HeapOk cfg h)
    {B : Block} (used : (h.view cfg).used B) : (h'.pages B.page).sc = (h.pages B.page).sc :=
  taken.sc_of_inUse ok (View.used_inUse used)

theorem start_of_sc {B : Block} (sc : (h'.pages B.page).sc = (h.pages B.page).sc) :
    (h'.view cfg).start B = (h.view cfg).start B :=
  View.start_congr sc

/-- `cf_malloc` leaves everything alone, or returns a block that was not used. -/
theorem NonMoving.malloc (still : NonMoving cfg S) (mode : cfg.partialCompactionBound = -1)
    {size : Nat} (class_ : requestClass cfg size < sizeClasses) :
    (cfMalloc cfg t size S.heap = .ok (none, S.heap) ∧ S.malloc cfg t size = .ok S) ∨
    ∃ a o S', cfMalloc cfg t size S.heap = .ok (some a, S'.heap) ∧
      S.malloc cfg t size = .ok S' ∧ NonMoving cfg S' ∧ S.live a = none ∧
      S'.live = update S.live a (some o) ∧ o.size = size ∧ o.sc = requestClass cfg size ∧
      S'.heap.memory = S.heap.memory := by
  have off : ¬ compactionOn cfg := not_not.mpr mode
  rcases getNfullPage_spec t still.heap class_ with ⟨run, _⟩ | ⟨p, h1, run, page⟩
  · have null := cfMalloc_of_noPage class_ run
    refine .inl ⟨null, ?_⟩
    rw [System.malloc, null]
    rfl
  · obtain ⟨i, h2, run2, taken⟩ := takePageBlock_spec class_ page
    have whole : cfMalloc cfg t size S.heap =
        .ok (some (blockStart p i (blockSize (requestClass cfg size))), h2) := by
      rw [cfMalloc_of_page class_ run run2, nameBlock, if_pos off]
    have start : (h2.view cfg).start ⟨p, i⟩ =
        blockStart p i (blockSize (requestClass cfg size)) := by
      simp only [View.start, View.size, Heap.view, taken.sc]
    have new : ∀ B, (S.heap.view cfg).used B → (h2.view cfg).start B = (S.heap.view cfg).start B :=
      fun B used => start_of_sc (taken.sc_eq still.heap used)
    rw [← start] at whole
    have mine : (h2.view cfg).used ⟨p, i⟩ := (taken.used_iff _).mpr (.inr rfl)
    have fresh : S.live ((h2.view cfg).start ⟨p, i⟩) = none := by
      by_contra alive
      obtain ⟨o, hlive⟩ := Option.ne_none_iff_exists'.mp alive
      obtain ⟨B, used, eq, _⟩ := still.housed.block _ o hlive
      have usedB := (taken.used_iff B).mpr (.inl used)
      have same := (taken.ok.placed usedB).start_inj (taken.ok.placed mine)
        ((new B used).trans eq)
      exact taken.unused (by rw [same] at used; exact used)
    generalize ho : newObj cfg ((h2.view cfg).start ⟨p, i⟩) (requestClass cfg size) size h2 = o
    have sc : o.sc = requestClass cfg size := by
      rw [← ho]
      rfl
    have housed : Housed cfg h2 (update S.live ((h2.view cfg).start ⟨p, i⟩) (some o)) := by
      refine ⟨fun a o' hlive => ?_, fun B used => ?_⟩
      · rcases update_eq_some.mp hlive with ⟨rfl, eq⟩ | ⟨_, hlive⟩
        · cases eq
          exact ⟨⟨p, i⟩, mine, rfl, taken.sc.trans sc.symm⟩
        · obtain ⟨B, used, at_, scB⟩ := still.housed.block a o' hlive
          exact ⟨B, (taken.used_iff B).mpr (.inl used), (new B used).trans at_,
            (taken.sc_eq still.heap used).trans scB⟩
      · rcases (taken.used_iff B).mp used with old | rfl
        · rw [new B old]
          exact update_ne_none (still.housed.used B old)
        · rw [update_self]
          exact Option.some_ne_none _
    refine .inr ⟨_, o, { heap := h2, calls := S.calls, live := update S.live _ (some o) },
      whole, ?_, ⟨taken.ok, fun q => ?_, still.calls, housed⟩, fresh, rfl, ?_, sc,
      taken.memory⟩
    · rw [System.malloc, whole, ← ho]
      rfl
    · by_cases hq : q = p
      · exact hq ▸ taken.entries.1
      · exact (congrArg Page.sourceentries (taken.pages q hq)).trans (still.entries q)
    · rw [← ho]
      rfl

/-! ### `cf_free` -/

theorem NonMoving.free (still : NonMoving cfg S) (mode : cfg.partialCompactionBound = -1)
    {a : Nat} (alive : S.live a ≠ none) :
    ∃ S', S.free cfg t a = .ok S' ∧ NonMoving cfg S' ∧ S'.live = update S.live a none ∧
      KeepsBytes S.heap S'.heap := by
  obtain ⟨o, hlive⟩ := Option.ne_none_iff_exists'.mp alive
  obtain ⟨B, used, rfl, _⟩ := still.housed.block a o hlive
  have placed := still.heap.placed used
  have large := placed.size_ge
  have page := placed.pageOfBlock (x := (S.heap.view cfg).start B) le_rfl (by omega)
  have index := placed.indexOfBlock (x := (S.heap.view cfg).start B) le_rfl (by omega)
  obtain ⟨h', run, freed⟩ := doFree_spec t still.heap (p := B.page) used rfl
  have whole : S.free cfg t ((S.heap.view cfg).start B) = .ok {
      heap := h'
      calls := update S.calls t none
      live := update S.live ((S.heap.view cfg).start B) none } := by
    have off : ¬ compactionOn cfg := not_not.mpr mode
    have never : ¬ (0 ≤ cfg.partialCompactionBound ∧ 0 = 0) := by
      rw [mode]
      decide
    have ends : finishFree cfg t (S.heap.pages B.page).sc ((S.heap.view cfg).start B) none 0 h' =
        .ok h' := by
      rw [finishFree, ok_bind]
      exact if_neg never
    replace index : indexOfBlock B.page ((S.heap.view cfg).start B)
        (blockSize (S.heap.pages B.page).sc) = B.index := index
    simp only [System.free, cfFree, off, not_false_eq_true, if_true, page, index, run, ok_bind,
      ends]
    rfl
  have other : ∀ C, (S.heap.view cfg).used C → C ≠ B →
      (S.heap.view cfg).start C ≠ (S.heap.view cfg).start B := fun C usedC ne eq =>
    ne ((still.heap.placed usedC).start_inj placed eq)
  have starts : ∀ C, (h'.view cfg).start C = (S.heap.view cfg).start C :=
    fun C => start_of_sc (freed.only.sc_eq C.page)
  have housed : Housed cfg h' (update S.live ((S.heap.view cfg).start B) none) := by
    refine ⟨fun b o hlive => ?_, fun C usedC => ?_⟩
    · rcases update_eq_some.mp hlive with ⟨_, new⟩ | ⟨eq, hlive⟩
      · cases new
      · obtain ⟨C, usedC, at_, sc⟩ := still.housed.block b o hlive
        refine ⟨C, (freed.used_iff C).mpr ⟨usedC, ?_⟩, (starts C).trans at_,
          (freed.only.sc_eq C.page).trans sc⟩
        rintro rfl
        exact eq at_.symm
    · obtain ⟨usedC', ne⟩ := (freed.used_iff C).mp usedC
      rw [starts C, update_of_ne (other C usedC' ne)]
      exact still.housed.used C usedC'
  refine ⟨_, whole, ⟨freed.ok, fun q => ?_, fun u => ?_, housed⟩, rfl, freed.only.memory⟩
  · by_cases hq : q = B.page
    · exact hq ▸ freed.entries.trans (still.entries _)
    · exact (congrArg Page.sourceentries (freed.only.pages q hq)).trans (still.entries q)
  · by_cases hu : u = t
    · subst hu
      exact update_self ..
    · exact (update_of_ne hu ..).trans (still.calls u)

/-! ### Writes -/

/-- The byte `cf_dereference` designates lies in the object. -/
def InsideBlock (cfg : Config) (S : System π) (a j : Nat) : Prop :=
  ∀ o, S.live a = some o → 4 * j < View.userBytes cfg (blockSize o.sc)

/-- A write that stays in the object changes one byte of its block. -/
theorem NonMoving.write (still : NonMoving cfg S) (mode : cfg.partialCompactionBound = -1)
    {a j : Nat} {x : UInt8} {o : Obj} (hlive : S.live a = some o)
    (inside : 4 * j < View.userBytes cfg (blockSize o.sc)) :
    ∃ S', S.write cfg a j x = .ok S' ∧ NonMoving cfg S' ∧
      S'.live = update S.live a (some { o with bytes := update o.bytes j x }) ∧
      S'.heap = { S.heap with memory := writeByte S.heap.memory (a + 4 * j) x } := by
  obtain ⟨B, used, rfl, sc⟩ := still.housed.block a o hlive
  have placed := still.heap.placed used
  have size : (S.heap.view cfg).size B = blockSize o.sc := by
    simp only [View.size, Heap.view, sc]
  have bound : View.userBytes cfg (blockSize o.sc) ≤ blockSize o.sc := by
    simp only [View.userBytes]
    split <;> omega
  generalize ha : (S.heap.view cfg).start B = a at hlive
  have whole : S.write cfg a j x = .ok { S with
      heap := { S.heap with memory := writeByte S.heap.memory (a + 4 * j) x }
      live := update S.live a (some { o with bytes := update o.bytes j x }) } := by
    rw [System.write, hlive]
    simp only [cfDereference, mode, if_true, ok_bind]
    rfl
  have heap : HeapOk cfg { S.heap with memory := writeByte S.heap.memory (a + 4 * j) x } := by
    refine still.heap.congr (sameHeaders_memory S.heap fun y free => ?_)
    have ne : y ≠ a + 4 * j := by
      rintro rfl
      have page : (a + 4 * j) / pageSize = B.page := placed.pageOfBlock (by omega) (by omega)
      rw [page] at free
      exact still.heap.notFree (View.used_inUse used) free
    simp only [writeByte, ne, if_false]
  refine ⟨_, whole, ⟨heap, still.entries, still.calls, fun b o' hlive' => ?_, fun C usedC => ?_⟩,
    rfl, rfl⟩
  · rcases update_eq_some.mp hlive' with ⟨rfl, new⟩ | ⟨_, old⟩
    · cases new
      exact ⟨B, used, ha, sc⟩
    · exact still.housed.block b o' old
  · exact update_ne_none (still.housed.used C usedC)

end Operations

end
end CompactFit
