import CompactFit.Ownership
import Mathlib.Data.Nat.Bitwise

/-!
The compaction operation keeps the ownership invariant. `Good` joins the header
invariant, ownership and the address pool; each function of the free path has one
lemma that gives its result and the frames it leaves.
-/

namespace CompactFit
open Function ByteMemory AddressPool LawfulAddressPool

section
variable {π : Type} [AddressPool π]

/-! ### Words of abstract addresses -/

theorem isAa_aaPointer {cfg : Config} {id : Nat} (h : id < cfg.nrAas) :
    IsAa cfg (aaPointer cfg id) := by
  simp only [IsAa, aaPointer]
  refine ⟨by omega, by omega, ?_⟩
  rw [show (cfg.aaSpace + 4 * id - cfg.aaSpace) / 4 = id by omega]
  exact h

theorem aaPointer_id (cfg : Config) (id : Nat) :
    (aaPointer cfg id - cfg.aaSpace) / 4 = id := by
  simp only [aaPointer]
  omega

theorem IsAa.pointer {cfg : Config} {a : Nat} (h : IsAa cfg a) :
    aaPointer cfg ((a - cfg.aaSpace) / 4) = a := by
  obtain ⟨lo, word, _⟩ := h
  simp only [aaPointer]
  omega

theorem IsAa.inj {cfg : Config} {a b : Nat} (ha : IsAa cfg a) (hb : IsAa cfg b)
    (eq : (a - cfg.aaSpace) / 4 = (b - cfg.aaSpace) / 4) : a = b := by
  rw [← ha.pointer, ← hb.pointer, eq]

theorem IsAa.bounds {cfg : Config} {a : Nat} (h : IsAa cfg a) : 0 < a ∧ a < 4294967296 := by
  obtain ⟨lo, word, lt⟩ := h
  have pos := cfg.aaSpace_pos
  have fits := cfg.aaSpace_end
  omega

namespace Heap

def view (cfg : Config) (h : Heap π) : View where
  used B := (h.pages B.page).usedPageBlockBitmap.Used B.index
  entries p := (h.pages p).sourceentries
  sc p := (h.pages p).sc
  memory := h.memory
  word a := if IsAa cfg a then h.aaWord cfg a else 0

def setAa (cfg : Config) (a w : Nat) (h : Heap π) : Heap π :=
  { h with addresses := setWord ((a - cfg.aaSpace) / 4) w h.addresses }

theorem loadAa_ok {cfg : Config} {a : Nat} (h : Heap π) (ha : IsAa cfg a) :
    h.loadAa cfg a = .ok ((h.view cfg).word a) := by
  simp only [loadAa, view, ha, if_true]

theorem storeAa_ok {cfg : Config} {a : Nat} (w : Nat) (h : Heap π) (ha : IsAa cfg a) :
    h.storeAa cfg a w = .ok (h.setAa cfg a w) := if_pos ha

theorem flagAa_ok {cfg : Config} {a : Nat} (flag : Nat) (h : Heap π) (ha : IsAa cfg a) :
    h.flagAa cfg a flag = .ok (h.setAa cfg a ((h.view cfg).word a ||| flag)) := by
  rw [flagAa, h.loadAa_ok ha, ok_bind, h.storeAa_ok _ ha]

variable [LawfulAddressPool π]

theorem setAa_word_same {cfg : Config} {a w : Nat} (h : Heap π) (ha : IsAa cfg a) :
    ((h.setAa cfg a w).view cfg).word a = w := by
  simp only [view, setAa, aaWord, ha, if_true, word_setWord_same]

theorem setAa_word_other {cfg : Config} {a b w : Nat} (h : Heap π) (ha : IsAa cfg a)
    (ne : b ≠ a) : ((h.setAa cfg a w).view cfg).word b = (h.view cfg).word b := by
  by_cases hb : IsAa cfg b
  · simp only [view, setAa, aaWord, hb, if_true]
    exact word_setWord_other fun eq => ne (hb.inj ha eq)
  · simp only [view, hb, if_false]

end Heap

theorem or_compact_flag {x : Nat} (h : x % 4 = 0) : x ||| abortCompactFlag = x + 1 := by
  obtain ⟨k, rfl⟩ : ∃ k, x = 4 * k := ⟨x / 4, by omega⟩
  have shift := Nat.shiftLeft_add_eq_or_of_lt (b := 1) (i := 2) (by decide) k
  rw [Nat.shiftLeft_eq] at shift
  rw [abortCompactFlag, show 4 * k = k * 2 ^ 2 by omega, ← shift]

theorem or_compact_flag_again {x : Nat} (h : x % 4 = 0) : (x + 1) ||| abortCompactFlag = x + 1 := by
  rw [← or_compact_flag h, Nat.or_assoc, Nat.or_self]

theorem or_free_flag {x : Nat} (h : x % 4 = 0) : x ||| abortFreeFlag = x + 2 := by
  obtain ⟨k, rfl⟩ : ∃ k, x = 4 * k := ⟨x / 4, by omega⟩
  have shift := Nat.shiftLeft_add_eq_or_of_lt (b := 2) (i := 2) (by decide) k
  rw [Nat.shiftLeft_eq] at shift
  rw [abortFreeFlag, show 4 * k = k * 2 ^ 2 by omega, ← shift]

/-- An aborted word shows its flag to `do_compaction`. -/
theorem flag_visible {x w : Nat} (h : x % 4 = 0) (hw : w = x + 1 ∨ w = x + 2) :
    w &&& abortCompactFlag ≠ 0 ∨ w &&& abortFreeFlag ≠ 0 := by
  rcases hw with rfl | rfl
  · refine .inl ?_
    rw [abortCompactFlag, Nat.and_one_is_mod]
    omega
  · refine .inr ?_
    have bit : (x + 2).testBit 1 = true := by
      rw [Nat.testBit_eq_decide_div_mod_eq, decide_eq_true_eq]
      omega
    have mask := Nat.and_two_pow (x + 2) 1
    rw [bit] at mask
    rw [abortFreeFlag, show (x + 2) &&& 2 = 2 from mask]
    decide

/-! ### The joint invariant -/

def Out (live : Live) (F : Frames) (a : Nat) : Prop :=
  live a ≠ none ∨ ∃ t f, F t = some f ∧ f.address = a

variable [LawfulAddressPool π]

structure Good (cfg : Config) (T : Nat) (h : Heap π) (live : Live) (F : Frames) : Prop where
  heap : HeapOk cfg h
  owns : Owns cfg T (h.view cfg) live F
  valid : Valid cfg.toAddressConfig T (fun id => Out live F (aaPointer cfg id)) h.addresses
  isAa : ∀ a, Out live F a → IsAa cfg a

section Keeps
variable {cfg : Config} {h h' : Heap π}

omit [LawfulAddressPool π] in
theorem HeapOk.notFree (ok : HeapOk cfg h) {p : Nat} (inUse : (h.view cfg).InUse p) :
    (h.pages p).listFlags ≠ .free := by
  intro free
  have flag := (ok.page p).flag
  rw [free] at flag
  rcases inUse with ⟨i, used⟩ | entries
  · have := (ok.page p).used_pos used
    have := flag.1
    omega
  · have : 0 < (h.pages p).sourceentries := entries
    have := flag.2
    omega

omit [LawfulAddressPool π] in
theorem HeapOk.placed (ok : HeapOk cfg h) {B : Block} (used : (h.view cfg).used B) :
    (h.view cfg).Placed B :=
  ⟨(ok.page B.page).sc_lt, (ok.page B.page).inside _ used⟩

theorem block_eq_iff {C : Block} {p i : Nat} (page : C.page = p) :
    C = ⟨p, i⟩ ↔ C.index = i := by
  rw [← page]
  exact ⟨fun eq => congrArg Block.index eq, fun eq => by rw [← eq]⟩

omit [LawfulAddressPool π] in
theorem used_marked {p i : Nat} (others : ∀ q, q ≠ p → h'.pages q = h.pages q)
    (bits : ∀ j, (h'.pages p).usedPageBlockBitmap.Used j ↔
      (h.pages p).usedPageBlockBitmap.Used j ∨ j = i) (C : Block) :
    (h'.view cfg).used C ↔ (h.view cfg).used C ∨ C = ⟨p, i⟩ := by
  by_cases page : C.page = p
  · rw [block_eq_iff page]
    simp only [Heap.view, page]
    exact bits C.index
  · have ne : C ≠ ⟨p, i⟩ := fun eq => page (congrArg Block.page eq)
    simp only [Heap.view, others C.page page, ne, or_false]

omit [LawfulAddressPool π] in
theorem used_cleared {p i : Nat} (others : ∀ q, q ≠ p → h'.pages q = h.pages q)
    (bitmap : (h'.pages p).usedPageBlockBitmap = (h.pages p).usedPageBlockBitmap.clear i)
    (C : Block) : (h'.view cfg).used C ↔ (h.view cfg).used C ∧ C ≠ ⟨p, i⟩ := by
  by_cases page : C.page = p
  · rw [ne_eq, block_eq_iff page]
    simp only [Heap.view, page, bitmap]
    exact UsedBitmap.used_clear
  · have ne : C ≠ ⟨p, i⟩ := fun eq => page (congrArg Block.page eq)
    simp only [Heap.view, others C.page page, ne, ne_eq, not_false_eq_true, and_true]

omit [LawfulAddressPool π] in
theorem TakenBlock.used_iff {c p i : Nat} (taken : TakenBlock cfg c p i h h') (C : Block) :
    (h'.view cfg).used C ↔ (h.view cfg).used C ∨ C = ⟨p, i⟩ :=
  used_marked taken.pages taken.used C

omit [LawfulAddressPool π] in
theorem FreedBlock.used_iff {c p i : Nat} (freed : FreedBlock cfg c p i h h') (C : Block) :
    (h'.view cfg).used C ↔ (h.view cfg).used C ∧ C ≠ ⟨p, i⟩ :=
  used_cleared freed.only.pages freed.used C

omit [LawfulAddressPool π] in
theorem FreedBlock.entries_eq {c p i : Nat} (freed : FreedBlock cfg c p i h h') (q : Nat) :
    (h'.view cfg).entries q = (h.view cfg).entries q :=
  field_same Page.sourceentries freed.only.pages freed.entries q

omit [LawfulAddressPool π] in
/-- A page-level operation keeps classes and bytes of the pages in use. -/
theorem OnlyPage.keeps {c p : Nat} (only : OnlyPage c p h h') (ok : HeapOk cfg h') :
    (h.view cfg).Keeps (h'.view cfg) fun _ => False := by
  refine ⟨fun q _ => only.sc_eq q, fun B _ placed inUse j hj => only.memory _ ?_⟩
  have within := placed.within
  have page : ((h.view cfg).start B + j) / pageSize = B.page := by
    have := placed.pageOfBlock (x := (h.view cfg).start B + j) (by omega) (by omega)
    exact this
  rw [page]
  exact ok.notFree inUse

omit [LawfulAddressPool π] in
/-- Giving up a source entry, as ownership sees it. -/
theorem ReleasedEntry.view {c p : Nat} (released : ReleasedEntry cfg c p h h')
    (pos : 0 < (h.pages p).sourceentries) :
    (∀ C, (h'.view cfg).used C ↔ (h.view cfg).used C) ∧
      (∀ q, (h'.view cfg).entries q + (if p = q then 1 else 0) = (h.view cfg).entries q) ∧
      (h.view cfg).Keeps (h'.view cfg) fun _ => False := by
  refine ⟨fun C => ?_, fun q => ?_, released.only.keeps released.ok⟩
  · by_cases page : C.page = p
    · simp only [Heap.view, page, released.used]
    · simp only [Heap.view, released.only.pages _ page]
  · by_cases page : p = q
    · subst page
      simp only [Heap.view, released.entries, if_true]
      omega
    · have other : q ≠ p := fun eq => page eq.symm
      simp only [Heap.view, released.only.pages _ other, page, if_false, Nat.add_zero]

theorem View.Keeps.trans {v v' v'' : View} {changed : Block → Prop} (first : v.Keeps v' changed)
    (second : v'.Keeps v'' fun _ => False) (inUse : ∀ p, v''.InUse p → v'.InUse p) :
    v.Keeps v'' changed := by
  refine ⟨fun p use => (second.sc p use).trans (first.sc p (inUse p use)),
    fun B hB placed use => ?_⟩
  have same := first.same hB placed (inUse _ use)
  have rest := second.memory B id (same.placed placed) use
  rw [same.start, same.size] at rest
  exact same.memory.trans rest

theorem View.InUse.of_le {v v' : View} (used : ∀ B, v'.used B → v.used B)
    (entries : ∀ p, v'.entries p ≤ v.entries p) {p : Nat} (h : v'.InUse p) : v.InUse p :=
  h.imp (fun ⟨i, use⟩ => ⟨i, used _ use⟩) fun pos => Nat.lt_of_lt_of_le pos (entries p)

theorem View.Keeps.mono {v v' : View} {changed changed' : Block → Prop}
    (keeps : v.Keeps v' changed) (sub : ∀ B, changed B → changed' B) : v.Keeps v' changed' :=
  ⟨keeps.sc, fun B hB => keeps.memory B fun h => hB (sub B h)⟩

end Keeps

section Out
variable {live : Live} {F : Frames} {t a : Nat} {f g : Frame}

theorem out_update (hF : F t = some f) (address : g.address = f.address) :
    Out live (update F t (some g)) a ↔ Out live F a := by
  refine or_congr_right ⟨?_, ?_⟩
  · rintro ⟨u, k, hK, eq⟩
    by_cases hu : u = t
    · subst hu
      rw [update_self] at hK
      cases hK
      exact ⟨u, f, hF, address.symm.trans eq⟩
    · rw [update_of_ne hu] at hK
      exact ⟨u, k, hK, eq⟩
  · rintro ⟨u, k, hK, eq⟩
    by_cases hu : u = t
    · subst hu
      rw [hF] at hK
      cases hK
      exact ⟨u, g, update_self .., address.trans eq⟩
    · exact ⟨u, k, by rw [update_of_ne hu, hK], eq⟩

end Out

namespace Good
variable {cfg : Config} {T t : Nat} {h h' : Heap π} {live : Live} {F : Frames} {f g : Frame}
  {B : Block}

theorem out_call (hF : F t = some f) : Out live F f.address := .inr ⟨t, f, hF, rfl⟩

/-- A step of one call that does not change its address. -/
theorem of_frame (good : Good cfg T h live F) (hF : F t = some f) (address : g.address = f.address)
    (heap : HeapOk cfg h')
    (valid : Valid cfg.toAddressConfig T (fun id => Out live F (aaPointer cfg id)) h'.addresses)
    (owns : Owns cfg T (h'.view cfg) live (update F t (some g))) :
    Good cfg T h' live (update F t (some g)) :=
  ⟨heap, owns, valid_congr valid fun _ => out_update hF address,
    fun a out => good.isAa a ((out_update hF address).mp out)⟩

theorem valid_setAa (good : Good cfg T h live F) {a : Nat} (w : Nat) (out : Out live F a)
    (addresses : h'.addresses = h.addresses) : Valid cfg.toAddressConfig T
      (fun id => Out live F (aaPointer cfg id)) (h'.setAa cfg a w).addresses := by
  refine valid_setWord (addresses ▸ good.valid) ?_
  rw [(good.isAa a out).pointer]
  exact out

omit [LawfulAddressPool π] in
theorem word_congr (addresses : h'.addresses = h.addresses) (a : Nat) :
    (h'.view cfg).word a = (h.view cfg).word a := by
  simp only [Heap.view, Heap.aaWord, addresses]

theorem target_facts (good : Good cfg T h live F) (hF : F t = some f)
    (target : f.target = some B) : (h.pages B.page).usedPageBlockBitmap.Used B.index ∧
      (h.view cfg).Carries B f.address ∧ (h.view cfg).word f.address = (h.view cfg).start B ∧
      (h.pages B.page).sc = f.sc :=
  (good.owns.frame t f hF).target B target

theorem freeTarget (good : Good cfg T h live F) (hF : F t = some f) (target : f.target = some B)
    (source : f.source = none) {c : Nat} (freed : FreedBlock cfg c B.page B.index h h') :
    Good cfg T h' live
      (update F t (some { f with target := none, lost := (h.view cfg).word f.address })) := by
  have words := @word_congr _ _ cfg _ _ freed.only.addresses
  refine good.of_frame hF rfl freed.ok (freed.only.addresses ▸ good.valid)
    (good.owns.release hF target source
      ((freed.only.keeps freed.ok).mono fun _ h => h.elim) freed.used_iff freed.entries_eq
      fun a _ => words a)

/-- A call without a target gives up the source entry it holds. -/
theorem releaseHeld (good : Good cfg T h live F) (hF : F t = some f) (target : f.target = none)
    {p : Nat} (held : f.held = some p) {c : Nat} (released : ReleasedEntry cfg c p h h') :
    Good cfg T h' live
      (update F t (some { f with held := none, lost := (h'.view cfg).word f.address })) := by
  have words := @word_congr _ _ cfg _ _ released.only.addresses
  have pos : 0 < (h.pages p).sourceentries := (good.owns.entries_pos hF).2 p held
  obtain ⟨used, entries, keeps⟩ := released.view pos
  exact good.of_frame hF rfl released.ok (released.only.addresses ▸ good.valid)
    (good.owns.dropHeld hF target held keeps used entries fun a _ _ => words a)

end Good

/-! ### The choice of the source -/

/-- The frame of a call whose compaction another call has aborted. -/
def Aborted (g g' : Frame) : Prop :=
  ∃ X w, g.target = some X ∧ (w = blockStart X.page X.index (blockSize g.sc) + 1 ∨
    w = blockStart X.page X.index (blockSize g.sc) + 2) ∧
    g' = { g with target := none, source := none, lost := w }

/-- The calls other than `t` keep their frames or are aborted. -/
def OthersKept (t : Nat) (F F' : Frames) : Prop :=
  ∀ u, u ≠ t → F' u = F u ∨ ∃ g g', F u = some g ∧ F' u = some g' ∧ Aborted g g'

/-- The calls other than `t` wait between two copy increments. -/
def Parked (t : Nat) (F : Frames) : Prop :=
  ∀ u g X, u ≠ t → F u = some g → g.target = some X → ∃ s, g.source = some s ∧ s.linked = true

/-- The page counters of a class do not grow, nor do those of the other classes. -/
structure Counts (c : Nat) (h h' : Heap π) : Prop where
  other : ∀ d, d ≠ c → h'.classes d = h.classes d
  nfullentries : (h'.classes c).nfullentries ≤ (h.classes c).nfullentries
  total : (h'.classes c).nfullentries + (h'.classes c).sourceentries ≤
    (h.classes c).nfullentries + (h.classes c).sourceentries

section Select
variable {cfg : Config} {T t : Nat} {h h1 : Heap π} {live : Live} {F : Frames} {f : Frame}
  {B : Block} {c p i : Nat}

omit [LawfulAddressPool π] in
/-- The view after the least used block of a source page is cleared. -/
theorem TakenSource.view_clear (taken : TakenSource cfg c p h h1) {i : Nat} {g : Heap π}
    (hg : g = h1.modifyPage p fun pg =>
      { pg with usedPageBlockBitmap := pg.usedPageBlockBitmap.clear i }) :
    (∀ C, (g.view cfg).used C ↔ (h.view cfg).used C ∧ C ≠ ⟨p, i⟩) ∧
      (∀ q, (g.view cfg).entries q = (h.view cfg).entries q + if p = q then 1 else 0) ∧
      (g.view cfg).sc = (h.view cfg).sc ∧ g.memory = h.memory ∧ g.addresses = h.addresses := by
  subst hg
  have others : ∀ q, q ≠ p → (h1.modifyPage p fun pg =>
      { pg with usedPageBlockBitmap := pg.usedPageBlockBitmap.clear i }).pages q = h.pages q :=
    fun q hq => by rw [Heap.modifyPage_other _ _ hq, taken.quiet.pages q hq]
  refine ⟨used_cleared others ?_, fun q => ?_, funext (field_same Page.sc others ?_),
    taken.quiet.memory, taken.quiet.addresses⟩
  · rw [Heap.modifyPage_same, taken.used]
  · by_cases page : p = q
    · subst page
      simp only [Heap.view, Heap.modifyPage_same, taken.entries, if_true]
    · have other : q ≠ p := fun eq => page eq.symm
      simp only [Heap.view, Heap.modifyPage_other _ _ other, taken.quiet.pages _ other, page,
        if_false, Nat.add_zero]
  · rw [Heap.modifyPage_same, taken.quiet.sc]

theorem View.Placed.start_word {v : View} (h : v.Placed B) : v.start B % 4 = 0 := by
  have word := h.size_word
  obtain ⟨k, hk⟩ : ∃ k, v.size B = 4 * k := ⟨v.size B / 4, by omega⟩
  simp only [View.start, blockStart, hk, pageSize]
  rw [Nat.mul_left_comm]
  omega

/-- What the source selection of `do_compaction` leaves, once the abstract address
of the source is flagged. -/
structure Selected (cfg : Config) (T t : Nat) (c : Nat) (h h2 : Heap π) (live : Live)
    (F : Frames) (f : Frame) (F' : Frames) (s : Source) : Prop where
  back : readWord h2.memory (addressField s.block.page s.block.index (blockSize c)) = s.address
  isAa : IsAa cfg s.address
  good : Good cfg T (h2.setAa cfg s.address ((h2.view cfg).word s.address ||| abortCompactFlag))
    live F'
  frame : F' t = some { f with source := some s }
  others : OthersKept t F F'
  copied : s.copied = 0
  unlinked : s.linked = false
  counts : Counts c h h2
  room : ¬ Incremental cfg (blockSize c) → (h2.classes c).nfullentries +
    (if (h2.pages s.block.page).sourceentries = 1 then 1 else 0) ≤ (h.classes c).nfullentries

theorem selectSource_still (good : Good cfg T h live F) (hF : F t = some f)
    (target : f.target = some B) (source : f.source = none)
    (taken : TakenSource cfg c p h h1) (hc : c = f.sc) {i : Nat}
    (found : (h1.pages p).usedPageBlockBitmap.findUsed = some i) {b : Nat} {o : Obj}
    (hlive : live b = some o) (still : ¬ Moving F b) (ok : StillOk cfg (h.view cfg) b o ⟨p, i⟩) :
    ∃ F' s h2, selectSource cfg t c p (blockSize c) h1 = .ok (s.block.page, s.block.index, h2) ∧
      Selected cfg T t c h h2 live F f F' s := by
  have used : (h.pages p).usedPageBlockBitmap.Used i := ok.used
  have sc : (h.view cfg).size ⟨p, i⟩ = blockSize c := by
    simp only [View.size, Heap.view, taken.sc]
  generalize hg : (h1.modifyPage p fun pg =>
    { pg with usedPageBlockBitmap := pg.usedPageBlockBitmap.clear i }) = g
  obtain ⟨usedG, entriesG, scG, memoryG, addressesG⟩ := taken.view_clear hg.symm
  have heap : HeapOk cfg g := hg ▸ taken.clear good.heap used taken.loose rfl
  have out : Out live F b := .inl (by rw [hlive]; simp)
  have isAa := good.isAa b out
  have placed := ok.carries.placed
  have words : ∀ a, (g.view cfg).word a = (h.view cfg).word a :=
    fun a => Good.word_congr addressesG a
  have flagged : (g.view cfg).word b ||| abortCompactFlag = (h.view cfg).start ⟨p, i⟩ + 1 := by
    rw [words, ok.word, or_compact_flag placed.start_word]
  have run : selectSource cfg t c p (blockSize c) h1 = .ok (p, i, g) := by
    have cond : ¬ (Incremental cfg (blockSize c) ∧
        readWord g.memory (partitionField p i (blockSize c)) ≠ 0) := by
      rintro ⟨inc, part⟩
      rw [← sc] at inc
      have zero := ok.part inc
      simp only [View.part, sc] at zero
      exact part (memoryG ▸ zero)
    simp only [selectSource, found, hg, cond, if_false]
    rfl
  have keeps : (h.view cfg).Keeps
      ((g.setAa cfg b ((g.view cfg).word b ||| abortCompactFlag)).view cfg) fun _ => False := by
    refine ⟨fun q _ => congrFun scG q, fun C _ _ _ => ?_⟩
    rw [show ((g.setAa cfg b _).view cfg).memory = h.memory from memoryG]
    exact .refl _ _ _
  refine ⟨_, { block := ⟨p, i⟩, address := b, copied := 0, linked := false }, g, run, ?_, isAa, ?_,
    update_self .., fun u hu => .inl (update_of_ne hu _ _), rfl, rfl, ?_, fun _ => ?_⟩
  · rw [memoryG, ← sc]
    exact ok.carries.back
  · refine good.of_frame hF rfl (heap.congr ⟨rfl, rfl, rfl, rfl, fun _ _ => .refl _ _ _⟩)
      (good.valid_setAa _ out addressesG) (good.owns.pick hF target source hlive still ok ?_ keeps
        usedG entriesG ?_ ?_)
    · simp only [Heap.view, taken.sc, hc]
    · rw [Heap.setAa_word_same _ isAa, flagged]
    · intro a ne _
      rw [Heap.setAa_word_other _ isAa ne, words]
  · have classes : g.classes = h1.classes := by rw [← hg]; rfl
    refine ⟨fun d hd => by rw [classes]; exact taken.quiet.classes d hd, ?_, ?_⟩
    · have := taken.nfullentries
      rw [classes]
      omega
    · rw [classes, taken.total]
  · have classes : g.classes = h1.classes := by rw [← hg]; rfl
    have entries : (g.pages p).sourceentries = (h.pages p).sourceentries + 1 :=
      (entriesG p).trans (by simp only [if_true]; rfl)
    rw [classes, entries, ← taken.nfullentries]
    simp only [Nat.add_eq_right]
    exact le_rfl

/-- Writing a word at or behind the ninth byte of a page touches no link. -/
theorem sameHeaders_write {π : Type} (g : Heap π) {a w : Nat} (behind : 8 ≤ a % pageSize)
    (inside : a % pageSize + 4 ≤ pageSize) : SameHeaders g (g.writeMemory a w) := by
  refine ⟨rfl, rfl, rfl, rfl, fun q _ => writeWord_agreeOn _ ?_⟩
  simp only [pageAddress, pageSize] at behind inside ⊢
  omega

theorem View.Placed.behind_links {v : View} (h : v.Placed B) {j : Nat} (low : 8 ≤ j)
    (high : j + 4 ≤ v.size B) : 8 ≤ (v.start B + j) % pageSize ∧
      (v.start B + j) % pageSize + 4 ≤ pageSize := by
  have within := h.within
  simp only [pageSize, pageDataSize, pageHeader] at within ⊢
  omega

/-- The heap `w` after block `i` of page `p` is taken over from an aborted call: its bit is cleared,
the entry of its page is given up again, and its partition field is cleared. In `m` only the
first of this has happened. -/
structure TakenOver (cfg : Config) (c p i : Nat) (h m w : Heap π) : Prop where
  heap : HeapOk cfg w
  used : ∀ C, (w.view cfg).used C ↔ (h.view cfg).used C ∧ C ≠ ⟨p, i⟩
  entries : ∀ q, (w.pages q).sourceentries = (h.pages q).sourceentries
  keeps : (h.view cfg).Keeps (w.view cfg) (· = ⟨p, i⟩)
  before : m.memory = h.memory
  addresses : w.addresses = m.addresses
  counts : Counts c h w

omit [LawfulAddressPool π] in
theorem partitionField_start (placed : (h.view cfg).Placed ⟨p, i⟩)
    (size : (h.view cfg).size ⟨p, i⟩ = blockSize c) : partitionField p i (blockSize c) =
      (h.view cfg).start ⟨p, i⟩ + ((h.view cfg).size ⟨p, i⟩ - 8) := by
  have large := placed.size_ge
  rw [← size, partitionField_eq (by omega)]
  rfl

omit [LawfulAddressPool π] in
theorem TakenSource.takeOver (taken : TakenSource cfg c p h h1) (ok : HeapOk cfg h)
    (used : (h.view cfg).used ⟨p, i⟩) (placed : (h.view cfg).Placed ⟨p, i⟩)
    (size : (h.view cfg).size ⟨p, i⟩ = blockSize c) {a x : Nat} {k m : Heap π}
    (hk : (h1.modifyPage p fun pg =>
      { pg with usedPageBlockBitmap := pg.usedPageBlockBitmap.clear i }) = k)
    (hm : k.setAa cfg a x = m) : ∃ r, releaseSource cfg t c p m = .ok r ∧
      TakenOver cfg c p i h m (r.writeMemory (partitionField p i (blockSize c)) 0) := by
  obtain ⟨usedK, entriesK, scK, memoryK, _⟩ := taken.view_clear hk.symm
  have heapM : HeapOk cfg m := by
    have heapK : HeapOk cfg k := hk ▸ taken.clear ok used taken.loose rfl
    exact hm ▸ heapK.congr ⟨rfl, rfl, rfl, rfl, fun _ _ => .refl _ _ _⟩
  have pagesM : m.pages = k.pages := by rw [← hm]; rfl
  have classesM : m.classes = h1.classes := by rw [← hm, ← hk]; rfl
  have memoryM : m.memory = h.memory := by rw [← hm]; exact memoryK
  have entriesM : ∀ q, (m.pages q).sourceentries =
      (h.pages q).sourceentries + if p = q then 1 else 0 := by
    intro q
    rw [pagesM]
    exact entriesK q
  have scM : ∀ q, (m.pages q).sc = (h.pages q).sc := by
    intro q
    rw [pagesM]
    exact congrFun scK q
  obtain ⟨r, runR, released⟩ := releaseSource_spec t (p := p) heapM ((scM p).trans taken.sc)
    (by rw [entriesM]; simp)
  have field := partitionField_start placed size
  have large := placed.size_ge
  have behind := placed.behind_links (j := (h.view cfg).size ⟨p, i⟩ - 8) (by omega) (by omega)
  refine ⟨r, runR, ?_⟩
  generalize hw : r.writeMemory (partitionField p i (blockSize c)) 0 = w
  have sameW : SameHeaders r w := by
    rw [← hw, field]
    exact sameHeaders_write r behind.1 behind.2
  have heapW : HeapOk cfg w := released.ok.congr sameW
  refine ⟨heapW, fun C => ?_, fun q => ?_, ⟨fun q _ => ?_, fun C neC placedC inUse => ?_⟩,
    memoryM, by rw [← hw]; exact released.only.addresses, ?_⟩
  · rw [← usedK C]
    by_cases page : C.page = p
    · simp only [Heap.view, sameW.pages, page, released.used, pagesM]
    · simp only [Heap.view, sameW.pages, released.only.pages _ page, pagesM]
  · rw [sameW.pages]
    by_cases page : q = p
    · subst page
      rw [released.entries, entriesM]
      simp
    · have other : p ≠ q := fun eq => page eq.symm
      rw [released.only.pages q page, entriesM]
      simp [other]
  · simp only [Heap.view, sameW.pages]
    rw [released.only.sc_eq, scM]
  · have notFree : (r.pages C.page).listFlags ≠ .free := by
      rw [← sameW.pages]
      exact heapW.notFree inUse
    have first : AgreeOn h.memory r.memory ((h.view cfg).start C) ((h.view cfg).size C) := by
      intro j hj
      have within := placedC.within
      rw [← memoryM]
      refine released.only.memory _ ?_
      rw [show (((h.view cfg).start C + j) / pageSize) = C.page from
        placedC.pageOfBlock (by omega) (by omega)]
      exact notFree
    have second : AgreeOn r.memory w.memory ((h.view cfg).start C) ((h.view cfg).size C) := by
      rw [← hw, field]
      refine writeWord_agreeOn _ ?_
      have := placedC.disjoint placed neC
      omega
    exact first.trans second
  · have nf := released.nfullentries
    have se := released.sourceentries
    have first := taken.nfullentries
    have total := taken.total
    have entry := entriesM p
    simp only [if_true] at entry
    rw [classesM, entry] at nf se
    refine ⟨fun d hd => ?_, ?_, ?_⟩
    · rw [sameW.classes, released.only.classes d hd, classesM, taken.quiet.classes d hd]
    · rw [sameW.classes, nf]
      split at first <;> split <;> omega
    · rw [sameW.classes, nf]
      split at first <;> split at se <;> split <;> omega

/-- The run of the source selection when the source block is the target of call `g`. -/
theorem selectSource_of_target (good : Good cfg T h live F)
    (size : (h.view cfg).size ⟨p, i⟩ = blockSize c)
    (found : (h1.pages p).usedPageBlockBitmap.findUsed = some i) {u : Nat} {g : Frame}
    (hG : F u = some g) {s : Source} (carries : (h.view cfg).Carries ⟨p, i⟩ g.address)
    (used : (h.view cfg).used ⟨p, i⟩) (sourceG : g.source = some s) {o : Obj}
    (sok : SourceOk cfg (h.view cfg) ⟨p, i⟩ s o) (linked : s.linked = true) {k m r : Heap π}
    (hk : (h1.modifyPage p fun pg =>
      { pg with usedPageBlockBitmap := pg.usedPageBlockBitmap.clear i }) = k)
    (hm : k.setAa cfg g.address ((k.view cfg).word g.address ||| abortCompactFlag) = m)
    (flagged : (m.view cfg).word g.address = (h.view cfg).start ⟨p, i⟩ + 1)
    (runR : releaseSource cfg t c p m = .ok r)
    (won : TakenOver cfg c p i h m (r.writeMemory (partitionField p i (blockSize c)) 0)) :
    selectSource cfg t c p (blockSize c) h1 = .ok (s.block.page, s.block.index,
      r.writeMemory (partitionField p i (blockSize c)) 0) := by
  have isAaG := good.isAa _ (Good.out_call hG)
  have placedX := carries.placed
  have placedS := sok.carries.placed
  have field := partitionField_start placedX size
  have large := placedX.size_ge
  have sizeS : (h.view cfg).size s.block = blockSize c := by
    rw [← size]
    simp only [View.size, sok.sc]
  obtain ⟨inc, partX, _⟩ := sok.linked linked
  rw [size] at inc
  have entryS : 0 < (h.pages s.block.page).sourceentries := (good.owns.entries_pos hG).1 s sourceG
  have startS : readWord m.memory (partitionField p i (blockSize c)) =
    (h.view cfg).start s.block := by
    rw [won.before, ← partX, ← size]
    rfl
  have back : readWord m.memory (partitionField p i (blockSize c) + 4) = g.address := by
    have next : partitionField p i (blockSize c) + 4 =
        (h.view cfg).start ⟨p, i⟩ + ((h.view cfg).size ⟨p, i⟩ - 4) := by
      rw [field]
      omega
    rw [won.before, ← carries.back, placedX.back_eq, next]
    rfl
  have pos : 0 < (h.view cfg).start s.block := by
    have within := placedS.within
    have bounds := (good.heap.range s.block.page).mp (by
      have := (good.heap.page s.block.page).source_of_entries entryS
      rcases this with ⟨f, _⟩ | ⟨f, _⟩ <;> simp [f])
    have first := cfg.firstPage_pos
    have := Nat.mul_le_mul_right pageSize (show 1 ≤ s.block.page by have := bounds.1; omega)
    simp only [pageSize] at *
    omega
  have memK : k.memory = m.memory := by rw [← hm]; rfl
  have cond : Incremental cfg (blockSize c) ∧
      readWord k.memory (partitionField p i (blockSize c)) ≠ 0 := by
    refine ⟨inc, ?_⟩
    rw [memK, startS]
    omega
  have bound : cfg.firstPage * pageSize < (m.view cfg).word g.address := by
    rw [flagged]
    have within := placedX.within
    have inHeap := (good.heap.range p).mp (by
      intro off
      have flag := (good.heap.page p).flag
      rw [off] at flag
      have := (good.heap.page p).used_pos used
      have := flag.1
      omega)
    have := Nat.mul_le_mul_right pageSize inHeap.1
    simp only at within
    omega
  have page : pageOfBlock ((h.view cfg).start s.block) = s.block.page :=
    placedS.pageOfBlock le_rfl (by have := placedS.size_ge; omega)
  have index : indexOfBlock s.block.page ((h.view cfg).start s.block) (blockSize c) =
      s.block.index := by
    rw [← sizeS]
    exact placedS.indexOfBlock le_rfl (by have := placedS.size_ge; omega)
  generalize hw : r.writeMemory (partitionField p i (blockSize c)) 0 = w at won ⊢
  have entryW : 0 < (w.pages s.block.page).sourceentries := by
    rw [won.entries]
    exact entryS
  have listed : (w.pages s.block.page).listFlags = .source ∨
      (w.pages s.block.page).listFlags = .emptying := by
    rcases (won.heap.page s.block.page).source_of_entries entryW with ⟨f, _⟩ | ⟨f, _⟩
    · exact .inl f
    · exact .inr f
  simp only [selectSource, found, hk]
  rw [if_pos cond]
  simp only [memK, back, k.flagAa_ok abortCompactFlag isAaG, hm, ok_bind, m.loadAa_ok isAaG,
    ensure_true bound, startS, runR, hw, page, ensure_true entryW, ensure_true listed, index]
  rfl

/-- The source block is the target of a suspended call, whose compaction is aborted. -/
theorem selectSource_takeOver (good : Good cfg T h live F) (hF : F t = some f)
    (target : f.target = some B) (source : f.source = none)
    (taken : TakenSource cfg c p h h1) (hc : c = f.sc)
    (found : (h1.pages p).usedPageBlockBitmap.findUsed = some i) {u : Nat} {g : Frame}
    (hG : F u = some g) (ne : u ≠ t) {s : Source} (targetG : g.target = some ⟨p, i⟩)
    (sourceG : g.source = some s) (linked : s.linked = true) :
    ∃ F' s h2, selectSource cfg t c p (blockSize c) h1 = .ok (s.block.page, s.block.index, h2) ∧
      Selected cfg T t c h h2 live F f F' s := by
  obtain ⟨used, carriesX, startX, scX⟩ := good.target_facts hG targetG
  obtain ⟨X, o, targetG', hlive, sok⟩ := (good.owns.frame u g hG).source s sourceG
  have same : (⟨p, i⟩ : Block) = X := Option.some.inj (targetG.symm.trans targetG')
  subst same
  have size : (h.view cfg).size ⟨p, i⟩ = blockSize c := by
    simp only [View.size, Heap.view, taken.sc]
  have sizeS : (h.view cfg).size s.block = blockSize c := by
    rw [← size]
    simp only [View.size, sok.sc]
  have inc : Incremental cfg (blockSize c) := size ▸ (sok.linked linked).1
  have placedX := carriesX.placed
  have placedS := sok.carries.placed
  have entryS : 0 < (h.pages s.block.page).sourceentries := (good.owns.entries_pos hG).1 s sourceG
  have outG : Out live F g.address := Good.out_call hG
  have outS : Out live F s.address := .inl (by rw [hlive]; simp)
  have isAaG := good.isAa _ outG
  have isAaS := good.isAa _ outS
  have neS : s.address ≠ g.address := (good.owns.ne_source hG hG sourceG).symm
  generalize hk : (h1.modifyPage p fun pg =>
    { pg with usedPageBlockBitmap := pg.usedPageBlockBitmap.clear i }) = k
  obtain ⟨_, _, _, _, addressesK⟩ := taken.view_clear hk.symm
  have words : ∀ a, (k.view cfg).word a = (h.view cfg).word a :=
    fun a => Good.word_congr addressesK a
  generalize hm : k.setAa cfg g.address ((k.view cfg).word g.address ||| abortCompactFlag) = m
  -- the word of the aborted call
  have flagged : (m.view cfg).word g.address = (h.view cfg).start ⟨p, i⟩ + 1 := by
    rw [← hm, Heap.setAa_word_same _ isAaG, words, startX, or_compact_flag placedX.start_word]
  obtain ⟨r, runR, won⟩ := taken.takeOver (t := t) good.heap used placedX size hk hm
  have run := selectSource_of_target good size found hG carriesX used sourceG sok linked hk hm
    flagged runR won
  generalize r.writeMemory (partitionField p i (blockSize c)) 0 = w at run won
  have wordsW : ∀ a, (w.view cfg).word a = (m.view cfg).word a :=
    fun a => Good.word_congr won.addresses a
  have wordsM : ∀ a, a ≠ g.address → (m.view cfg).word a = (h.view cfg).word a := fun a neA => by
    rw [← hm, Heap.setAa_word_other _ isAaG neA, words]
  have wordS : (w.view cfg).word s.address ||| abortCompactFlag = (h.view cfg).word s.address := by
    rw [wordsW, wordsM _ neS, sok.word, or_compact_flag_again placedS.start_word]
  generalize hz : w.setAa cfg s.address ((w.view cfg).word s.address ||| abortCompactFlag) = z
  have keeps : (h.view cfg).Keeps (z.view cfg) (· = ⟨p, i⟩) :=
    hz ▸ ⟨won.keeps.sc, won.keeps.memory⟩
  have wordsZ : ∀ a, a ≠ g.address → (z.view cfg).word a = (h.view cfg).word a := by
    intro a neA
    rw [← hz]
    by_cases eqS : a = s.address
    · subst eqS
      rw [Heap.setAa_word_same _ isAaS, wordS]
    · rw [Heap.setAa_word_other _ isAaS eqS, wordsW, wordsM _ neA]
  have lost : (z.view cfg).word g.address = (h.view cfg).start ⟨p, i⟩ + 1 := by
    rw [← hz, Heap.setAa_word_other _ isAaS neS.symm, wordsW, flagged]
  have owns := good.owns.takeOver hF target source hG ne targetG sourceG
    (by simp only [Heap.view, taken.sc, hc]) keeps (hz ▸ won.used) (hz ▸ won.entries)
    fun a neA _ => wordsZ a neA
  have out : ∀ a, Out live (update (update F u (some
      { g with target := none, source := none, lost := (z.view cfg).word g.address })) t
      (some { f with source := some { s with copied := 0, linked := false } })) a ↔
      Out live F a := by
    intro a
    refine (out_update (t := t) (f := f) ?_ ?_).trans ?_
    · rw [update_of_ne ne.symm, hF]
    · rfl
    · exact out_update hG rfl
  have valid : Valid cfg.toAddressConfig T (fun id => Out live F (aaPointer cfg id))
      z.addresses := by
    have first : Valid cfg.toAddressConfig T (fun id => Out live F (aaPointer cfg id))
        m.addresses := hm ▸ good.valid_setAa _ outG addressesK
    rw [← hz]
    refine valid_setWord (won.addresses ▸ first) ?_
    rw [isAaS.pointer]
    exact outS
  generalize hF' : update (update F u (some
      { g with target := none, source := none, lost := (z.view cfg).word g.address })) t
      (some { f with source := some { s with copied := 0, linked := false } }) = F' at owns out
  refine ⟨F', { s with copied := 0, linked := false }, w, run, ⟨?_, isAaS, ?_,
    by rw [← hF', update_self], ?_, rfl, rfl, won.counts, fun notInc => absurd inc notInc⟩⟩
  · have inUse : (w.view cfg).InUse s.block.page := .inr (by
      simp only [Heap.view, won.entries]
      exact entryS)
    have sameS := won.keeps.same (sok.carries.ne carriesX neS) placedS inUse
    have back := (sameS.carries sok.carries).back
    rw [View.back, sameS.size, sizeS] at back
    exact back
  · have heapZ : HeapOk cfg z := hz ▸ won.heap.congr ⟨rfl, rfl, rfl, rfl, fun _ _ => .refl _ _ _⟩
    simp only [hz]
    exact ⟨heapZ, owns, valid_congr valid fun id => out _, fun a h => good.isAa a ((out a).mp h)⟩
  · intro x hx
    by_cases eq : x = u
    · subst eq
      refine .inr ⟨g, _, hG, by rw [← hF', update_of_ne hx, update_self], ⟨p, i⟩, _, targetG,
        .inl ?_, rfl⟩
      rw [lost, ← scX]
      rfl
    · exact .inl (by rw [← hF', update_of_ne hx, update_of_ne eq])

theorem selectSource_spec (good : Good cfg T h live F) (hF : F t = some f)
    (target : f.target = some B) (source : f.source = none) (parked : Parked t F)
    (taken : TakenSource cfg c p h h1) (hc : c = f.sc) (apart : p ≠ B.page) :
    ∃ F' s h2, selectSource cfg t c p (blockSize c) h1 = .ok (s.block.page, s.block.index, h2) ∧
      Selected cfg T t c h h2 live F f F' s := by
  obtain ⟨_, someUsed⟩ := taken.some
  obtain ⟨i, found⟩ := UsedBitmap.findUsed_isSome someUsed
  have used := (UsedBitmap.findUsed_least found).1
  rw [← taken.used] at found
  rcases good.owns.owned ⟨p, i⟩ used with ⟨b, o, hlive, still, ok⟩ | ⟨u, g, hG, targetG⟩
  · exact selectSource_still good hF target source taken hc found hlive still ok
  · have ne : u ≠ t := by
      rintro rfl
      rw [hF] at hG
      cases hG
      rw [target] at targetG
      cases targetG
      exact apart rfl
    obtain ⟨s, sourceG, linked⟩ := parked u g _ ne hG targetG
    exact selectSource_takeOver good hF target source taken hc found hG ne targetG sourceG linked

end Select

/-! ### The copy loop -/

/-- The local variables of the compaction of a frame, in round `j` of its outer loop. -/
def Frame.compaction (f : Frame) (B : Block) (s : Source) (j : Nat) : Compaction :=
  let size := blockSize f.sc
  { sc := f.sc
    targetPage := B.page
    targetIndex := B.index
    srcPage := s.block.page
    srcIndex := s.block.index
    size := size
    remSize := size - s.copied
    j := j
    dest := blockStart B.page B.index size + s.copied
    src := blockStart s.block.page s.block.index size + s.copied
    srcPartField := partitionField s.block.page s.block.index size
    targetPartField := partitionField B.page B.index size
    targetAa := f.address
    targetAaVal := blockStart B.page B.index size
    srcAa := s.address }

section Copy
variable {cfg : Config} {T t : Nat} {h h' : Heap π} {live : Live} {F : Frames} {f : Frame}
  {B : Block} {s : Source}

omit [AddressPool π] [LawfulAddressPool π] in
/-- A change of memory outside the free pages. -/
theorem sameHeaders_memory {m : Memory} (h : Heap π)
    (outside : ∀ x, (h.pages (x / pageSize)).listFlags = .free → m x = h.memory x) :
    SameHeaders h { h with memory := m } := by
  refine ⟨rfl, rfl, rfl, rfl, fun p free j hj => outside _ ?_⟩
  have page : (pageAddress p + j) / pageSize = p := by
    simp only [pageAddress, pageSize]
    omega
  rw [page]
  exact free

omit [LawfulAddressPool π] in
/-- Blocks of pages in use lie below the end of the 32-bit space. -/
theorem HeapOk.block_lt (ok : HeapOk cfg h) (placed : (h.view cfg).Placed B)
    (notNone : (h.pages B.page).listFlags ≠ .none) :
    0 < (h.view cfg).start B ∧ (h.view cfg).start B < 4294967296 := by
  have within := placed.within
  have size := placed.size_ge
  have bounds := pageAddress_bounds ((ok.range B.page).mp notNone)
  have data : pageDataSize ≤ pageSize := by decide
  simp only [pageAddress] at bounds
  omega

omit [LawfulAddressPool π] in
theorem HeapOk.listed_of_inUse (ok : HeapOk cfg h) {p : Nat} (inUse : (h.view cfg).InUse p) :
    (h.pages p).listFlags ≠ .none := by
  intro off
  have flag := (ok.page p).flag
  rw [off] at flag
  rcases inUse with ⟨i, used⟩ | entries
  · have := (ok.page p).used_pos used
    have := flag.1
    omega
  · have : 0 < (h.pages p).sourceentries := entries
    have := flag.2
    omega

/-- The facts about the two blocks of a compaction that the copy loop needs. -/
structure Copying (cfg : Config) (h : Heap π) (live : Live) (f : Frame) (B : Block) (s : Source) :
    Prop where
  sizeB : (h.view cfg).size B = blockSize f.sc
  sizeS : (h.view cfg).size s.block = blockSize f.sc
  carries : (h.view cfg).Carries B f.address
  ne : B ≠ s.block
  used : (h.view cfg).used B
  entries : 0 < (h.pages s.block.page).sourceentries
  start : 0 < (h.view cfg).start s.block ∧ (h.view cfg).start s.block < 4294967296 ∧
    (h.view cfg).start B < 4294967296
  notFree : (h.pages B.page).listFlags ≠ .free ∧ (h.pages s.block.page).listFlags ≠ .free
  many : 1 < capacity f.sc
  obj : ∃ o, live s.address = some o ∧ SourceOk cfg (h.view cfg) B s o

theorem Good.copying (good : Good cfg T h live F) (hF : F t = some f) (target : f.target = some B)
    (source : f.source = some s) : Copying cfg h live f B s := by
  obtain ⟨used, carries, _, sc⟩ := good.target_facts hF target
  obtain ⟨B', o, target', hlive, sok⟩ := (good.owns.frame t f hF).source s source
  have same : B = B' := Option.some.inj (target.symm.trans target')
  subst same
  have sizeB : (h.view cfg).size B = blockSize f.sc := by
    simp only [View.size, Heap.view, sc]
  have entries := (good.owns.entries_pos hF).1 s source
  have inUseB : (h.view cfg).InUse B.page := View.used_inUse used
  have inUseS : (h.view cfg).InUse s.block.page := .inr entries
  have startB := good.heap.block_lt carries.placed (good.heap.listed_of_inUse inUseB)
  have startS := good.heap.block_lt sok.carries.placed (good.heap.listed_of_inUse inUseS)
  refine ⟨sizeB, ?_, carries, ?_, used, entries, ⟨startS.1, startS.2, startB.2⟩,
    ⟨good.heap.notFree inUseB, good.heap.notFree inUseS⟩, ?_, o, hlive, sok⟩
  · rw [← sizeB]
    simp only [View.size, sok.sc]
  · exact carries.ne sok.carries (good.owns.ne_source hF hF source)
  · have pos : 0 < (h.pages s.block.page).sourceentries := entries
    have scS : (h.pages s.block.page).sc = f.sc := Eq.trans sok.sc sc
    rw [← scS]
    rcases (good.heap.page s.block.page).source_of_entries entries with ⟨_, _, room⟩ | ⟨_, _, room⟩
    · omega
    · omega

omit [LawfulAddressPool π] in
/-- The code computes the addresses of both blocks from the size class of the call. -/
theorem Copying.starts (c : Copying cfg h live f B s) :
    blockStart B.page B.index (blockSize f.sc) = (h.view cfg).start B ∧
      blockStart s.block.page s.block.index (blockSize f.sc) = (h.view cfg).start s.block := by
  rw [View.start, View.start, c.sizeB, c.sizeS]
  exact ⟨rfl, rfl⟩

omit [LawfulAddressPool π] in
theorem Copying.fields (c : Copying cfg h live f B s) :
    partitionField B.page B.index (blockSize f.sc) =
        (h.view cfg).start B + (blockSize f.sc - 8) ∧
      partitionField s.block.page s.block.index (blockSize f.sc) =
        (h.view cfg).start s.block + (blockSize f.sc - 8) := by
  have large := c.carries.placed.size_ge
  rw [c.sizeB] at large
  rw [partitionField_eq (by omega), partitionField_eq (by omega), c.starts.1, c.starts.2]
  exact ⟨rfl, rfl⟩

/-- The memory after a copy increment that leaves the copy open: `n` more bytes in
the target block at `b`, and the partition fields of both blocks. -/
structure LinkedMemory (m m' : Memory) (b s size k n : Nat) : Prop where
  outside : ∀ x, x < b ∨ b + size ≤ x → x < s ∨ s + size ≤ x → m' x = m x
  target : ∀ j, j + 8 < size → m' (b + j) = if k ≤ j ∧ j < k + n then m (s + j) else m (b + j)
  source : ∀ j, j + 8 < size → m' (s + j) = m (s + j)
  backs : AgreeOn m m' (b + (size - 4)) 4 ∧ AgreeOn m m' (s + (size - 4)) 4
  parts : readWord m' (b + (size - 8)) = s ∧ readWord m' (s + (size - 8)) = b

theorem linkedMemory (m : Memory) {b s size k n : Nat} (apart : b + size ≤ s ∨ s + size ≤ b)
    (large : 16 ≤ size) (fit : k + n + 4 ≤ size) (hb : b < 4294967296) (hs : s < 4294967296) :
    LinkedMemory m (writeWord (writeWord (memcpy m (b + k) (s + k) n) (b + (size - 8)) s)
      (s + (size - 8)) b) b s size k n := by
  have copied : ∀ {x}, x < b + k ∨ b + k + n ≤ x → memcpy m (b + k) (s + k) n x = m x :=
    fun h => memcpy_of_outside m h
  constructor
  · intro x hx hx'
    rw [writeWord_of_outside _ (by omega), writeWord_of_outside _ (by omega), copied (by omega)]
  · intro j hj
    rw [writeWord_of_outside _ (by omega), writeWord_of_outside _ (by omega)]
    split
    next inside =>
      rw [show b + j = b + k + (j - k) by omega, memcpy_of_inside m (by omega),
        show s + k + (j - k) = s + j by omega]
    next => exact copied (by omega)
  · intro j hj
    rw [writeWord_of_outside _ (by omega), writeWord_of_outside _ (by omega), copied (by omega)]
  · constructor
    · intro j hj
      rw [writeWord_of_outside _ (by omega), writeWord_of_outside _ (by omega), copied (by omega)]
    · intro j hj
      rw [writeWord_of_outside _ (by omega), writeWord_of_outside _ (by omega), copied (by omega)]
  · refine ⟨?_, readWord_writeWord _ _ hb⟩
    rw [(writeWord_agreeOn _ (b := b + (size - 8)) (n := 4) (by omega)).readWord le_rfl le_rfl]
    exact readWord_writeWord _ _ hs

/-- The copy changes nothing if the bytes and the partition fields are there already. -/
theorem LinkedMemory.same {m m' : Memory} {b s size k n : Nat}
    (linked : LinkedMemory m m' b s size k n) (large : 16 ≤ size)
    (equal : ∀ j, k ≤ j → j < k + n → j + 8 < size → m (b + j) = m (s + j))
    (parts : readWord m (b + (size - 8)) = s ∧ readWord m (s + (size - 8)) = b) : m' = m := by
  have inside : ∀ {x}, (∀ j, j + 8 < size → m' (x + j) = m (x + j)) →
      readWord m' (x + (size - 8)) = readWord m (x + (size - 8)) →
      AgreeOn m m' (x + (size - 4)) 4 → AgreeOn m m' x size := by
    intro x low part back j hj
    by_cases user : j + 8 < size
    · exact low j user
    · by_cases last : j + 4 < size
      · have byte := readWord_inj part (j := j - (size - 8)) (by omega)
        rwa [show x + (size - 8) + (j - (size - 8)) = x + j by omega] at byte
      · exact back.apply (by omega) (by omega)
  have target := inside (x := b) (fun j hj => ?_) (linked.parts.1.trans parts.1.symm) linked.backs.1
  · have source := inside (x := s) linked.source (linked.parts.2.trans parts.2.symm) linked.backs.2
    funext x
    by_cases inB : b ≤ x ∧ x < b + size
    · exact target.apply inB.1 inB.2
    · by_cases inS : s ≤ x ∧ x < s + size
      · exact source.apply inS.1 inS.2
      · exact linked.outside x (by omega) (by omega)
  · rw [linked.target j hj]
    split
    next copied => exact (equal j copied.1 copied.2 hj).symm
    next => rfl

/-- Such a copy changes both blocks only. -/
theorem LinkedMemory.keeps {v : View} {m' : Memory} {k n : Nat}
    (linked : LinkedMemory v.memory m' (v.start B) (v.start s.block) (v.size B) k n)
    (placedB : v.Placed B) (placedS : v.Placed s.block) (sizes : v.size s.block = v.size B) :
    v.Keeps { v with memory := m' } fun C => C = B ∨ C = s.block := by
  refine ⟨fun _ _ => rfl, fun C other placedC _ j hj => ?_⟩
  push Not at other
  have apartB := placedC.disjoint placedB other.1
  have apartS := placedC.disjoint placedS other.2
  exact linked.outside _ (by omega) (by omega)

/-- Both blocks keep the abstract addresses they carry. -/
theorem LinkedMemory.carries {v : View} {m' : Memory} {k n a b : Nat}
    (linked : LinkedMemory v.memory m' (v.start B) (v.start s.block) (v.size B) k n)
    (sizes : v.size s.block = v.size B) (carriesB : v.Carries B a)
    (carriesS : v.Carries s.block b) :
    View.Carries { v with memory := m' } B a ∧ View.Carries { v with memory := m' } s.block b := by
  have backB : View.back { v with memory := m' } B = v.back B :=
    carriesB.placed.back_congr rfl linked.backs.1
  have backS : View.back { v with memory := m' } s.block = v.back s.block :=
    carriesS.placed.back_congr rfl (by rw [sizes]; exact linked.backs.2)
  exact ⟨⟨⟨carriesB.placed.sc, carriesB.placed.index⟩, backB.trans carriesB.back⟩,
    ⟨⟨carriesS.placed.sc, carriesS.placed.index⟩, backS.trans carriesS.back⟩⟩

/-- The source of a call after a copy increment that leaves the copy open. -/
theorem LinkedMemory.sourceOk {v : View} {m' : Memory} {n a : Nat} {o : Obj}
    (linked : LinkedMemory v.memory m' (v.start B) (v.start s.block) (v.size B) s.copied n)
    (carries : v.Carries B a) (sok : SourceOk cfg v B s o) (inc : Incremental cfg (v.size B))
    (room : s.copied + n + 4 ≤ v.size B) (chunk : cfg.incrementalMemcpy ∣ n) :
    SourceOk cfg { v with memory := m' } B { s with copied := s.copied + n, linked := true } o := by
  have sizes : v.size s.block = v.size B := by simp only [View.size, sok.sc]
  have user : View.userBytes cfg (v.size B) = v.size B - 8 := if_pos inc
  obtain ⟨carriesB, carriesS⟩ := linked.carries sizes carries sok.carries
  refine ⟨sok.sc, sok.unused, carriesS, sok.word, fun j hj low => ?_, room, fun _ => inc,
    fun j hj low => ?_, fun _ => ⟨inc, ?_, ?_⟩, sok.obj, Nat.dvd_add sok.chunks chunk⟩
  · have low : j < View.userBytes cfg (v.size s.block) := low
    have stored := sok.stores j hj low
    rw [sizes, user] at low
    exact (linked.source j (by omega)).trans stored
  · have low : j + 8 < v.size B := low
    have atB := linked.target j low
    have atS := linked.source j low
    by_cases fresh : s.copied ≤ j
    · rw [if_pos ⟨fresh, hj⟩] at atB
      exact atB.trans atS.symm
    · rw [if_neg fun h => fresh h.1] at atB
      exact atB.trans ((sok.before j (by omega) low).trans atS.symm)
  · rw [carriesB.placed.part_eq]
    exact linked.parts.1
  · rw [carriesS.placed.part_eq,
      show View.size { v with memory := m' } s.block = v.size B from sizes]
    exact linked.parts.2

/-- The memory when the copy is complete; with a partition field (`inc`) that field
of the target block is cleared. -/
structure CopiedMemory (m m' : Memory) (b s size k : Nat) (inc : Prop) : Prop where
  outside : ∀ x, x < b ∨ b + size ≤ x → m' x = m x
  target : ∀ j, j < size → (inc → j + 8 < size ∨ size ≤ j + 4) →
    m' (b + j) = if k ≤ j then m (s + j) else m (b + j)
  part : inc → readWord m' (b + (size - 8)) = 0

theorem copiedMemory (m : Memory) {b s size k : Nat} (large : 16 ≤ size) (fit : k ≤ size)
    (inc : Prop) [Decidable inc] :
    CopiedMemory m (if inc then writeWord (memcpy m (b + k) (s + k) (size - k)) (b + (size - 8)) 0
      else memcpy m (b + k) (s + k) (size - k)) b s size k inc := by
  have copied : ∀ j, j < size → memcpy m (b + k) (s + k) (size - k) (b + j) =
      if k ≤ j then m (s + j) else m (b + j) := by
    intro j hj
    split
    next le =>
      rw [show b + j = b + k + (j - k) by omega, memcpy_of_inside m (by omega),
        show s + k + (j - k) = s + j by omega]
    next lt => exact memcpy_of_outside m (by omega)
  constructor
  · intro x hx
    split
    · rw [writeWord_of_outside _ (by omega), memcpy_of_outside m (by omega)]
    · exact memcpy_of_outside m (by omega)
  · intro j hj field
    split
    next yes =>
      have := field yes
      rw [writeWord_of_outside _ (by omega)]
      exact copied j hj
    next => exact copied j hj
  · intro yes
    rw [if_pos yes]
    exact readWord_writeWord _ _ (by decide)

omit [LawfulAddressPool π] in
theorem copyIncrement_of_more {comp : Compaction} {n : Nat}
    (size : (if cfg.incrementalMemcpy ≠ 0 then min comp.remSize cfg.incrementalMemcpy
      else comp.remSize) = n) (more : 0 < comp.remSize - n) :
    copyIncrement cfg t comp h = .ok (.unlocked { comp with
      remSize := comp.remSize - n, dest := comp.dest + n, src := comp.src + n },
      Heap.writeMemory (Heap.writeMemory
        { h with memory := memcpy h.memory comp.dest comp.src n } comp.targetPartField
          (blockStart comp.srcPage comp.srcIndex comp.size)) comp.srcPartField
        (blockStart comp.targetPage comp.targetIndex comp.size)) := by
  subst size
  exact if_pos more

omit [LawfulAddressPool π] in
theorem copyIncrement_of_last {comp : Compaction} {n : Nat}
    (size : (if cfg.incrementalMemcpy ≠ 0 then min comp.remSize cfg.incrementalMemcpy
      else comp.remSize) = n) (last : ¬ 0 < comp.remSize - n) :
    copyIncrement cfg t comp h = finishCompaction cfg t { comp with
      remSize := comp.remSize - n, dest := comp.dest + n, src := comp.src + n }
      { h with memory := memcpy h.memory comp.dest comp.src n } := by
  subst size
  exact if_neg last

/-- An increment that does not complete the copy: the class lock is released with
both partition fields set. -/
theorem copyIncrement_open (good : Good cfg T h live F) (hF : F t = some f)
    (target : f.target = some B) (source : f.source = some s)
    (whole : WholeCopies cfg.incrementalMemcpy) (inc : Incremental cfg (blockSize f.sc))
    (more : s.copied + cfg.incrementalMemcpy < blockSize f.sc) (j : Nat) :
    ∃ h', copyIncrement cfg t (f.compaction B s j) h =
        .ok (.unlocked (f.compaction B
          { s with copied := s.copied + cfg.incrementalMemcpy, linked := true } j), h') ∧
      Good cfg T h' live (update F t (some { f with
        source := some { s with copied := s.copied + cfg.incrementalMemcpy, linked := true } })) ∧
      SameHeaders h h' := by
  have c := good.copying hF target source
  obtain ⟨o, hlive, sok⟩ := c.obj
  have placedB := c.carries.placed
  have placedS := sok.carries.placed
  have large := placedB.size_ge
  have words := placedB.size_word
  have apart := placedB.disjoint placedS c.ne
  have sizes : (h.view cfg).size s.block = (h.view cfg).size B := c.sizeS.trans c.sizeB.symm
  obtain ⟨_, _, wordB, scB⟩ := good.target_facts hF target
  have split : s.copied + cfg.incrementalMemcpy + 4 ≤ (h.view cfg).size B := by
    rw [c.sizeB] at words large ⊢
    obtain ⟨n, hn⟩ := sok.chunks
    have chunk := whole f.sc (scB ▸ placedB.sc) c.many (n + 1)
    rw [Nat.add_mul, Nat.one_mul, Nat.mul_comm, ← hn] at chunk
    omega
  rw [sizes] at apart
  have linked := linkedMemory h.memory (k := s.copied) (n := cfg.incrementalMemcpy) apart large
    split c.start.2.2 c.start.2.1
  generalize hm : writeWord (writeWord (memcpy h.memory ((h.view cfg).start B + s.copied)
    ((h.view cfg).start s.block + s.copied) cfg.incrementalMemcpy)
    ((h.view cfg).start B + ((h.view cfg).size B - 8)) ((h.view cfg).start s.block))
    ((h.view cfg).start s.block + ((h.view cfg).size B - 8)) ((h.view cfg).start B) = m at linked
  have run : copyIncrement cfg t (f.compaction B s j) h =
      .ok (.unlocked (f.compaction B
        { s with copied := s.copied + cfg.incrementalMemcpy, linked := true } j),
        { h with memory := m }) := by
    have size : (if cfg.incrementalMemcpy ≠ 0 then
        min (blockSize f.sc - s.copied) cfg.incrementalMemcpy else blockSize f.sc - s.copied) =
        cfg.incrementalMemcpy := by
      rw [if_pos inc.1]
      omega
    rw [copyIncrement_of_more size (by simp only [Frame.compaction]; omega)]
    rw [c.sizeB] at hm
    simp only [Frame.compaction, c.starts.1, c.starts.2, c.fields.1, c.fields.2, Heap.writeMemory,
      hm]
    simp only [Nat.sub_sub, Nat.add_assoc]
  have same : SameHeaders h { h with memory := m } := by
    refine sameHeaders_memory h fun x free => linked.outside x ?_ ?_
    · by_contra inside
      have page := placedB.pageOfBlock (x := x) (by omega) (by omega)
      exact c.notFree.1 (page ▸ free)
    · by_contra inside
      have page := placedS.pageOfBlock (x := x) (by omega) (by omega)
      exact c.notFree.2 (page ▸ free)
  have mine : FrameOk cfg (Heap.view cfg { h with memory := m }) live { f with
      source := some { s with copied := s.copied + cfg.incrementalMemcpy, linked := true } } := by
    refine ⟨?_, (fun none => by cases target.symm.trans none), ?_, (good.owns.frame t f hF).held⟩
    · intro C hC
      have eq : B = C := Option.some.inj (target.symm.trans hC)
      subst eq
      exact ⟨c.used, (linked.carries sizes c.carries sok.carries).1, wordB, scB⟩
    · rintro r hr
      cases hr
      exact ⟨B, o, target, hlive,
        linked.sourceOk c.carries sok (c.sizeB.symm ▸ inc) split (Nat.dvd_refl _)⟩
  refine ⟨_, run, ?_, same⟩
  exact good.of_frame hF rfl (good.heap.congr same) good.valid
    (good.owns.progress hF target source rfl rfl (linked.keeps placedB placedS sizes)
      (fun _ => Iff.rfl) (fun _ => rfl) (fun _ => rfl) mine)

/-- The object in the target block once the copy is complete. -/
theorem CopiedMemory.still {v : View} {a : Nat} {o : Obj} {m' : Memory}
    (memory : CopiedMemory v.memory m' (v.start B) (v.start s.block) (v.size B) s.copied
      (Incremental cfg (v.size B)))
    (used : v.used B) (carries : v.Carries B a) (sok : SourceOk cfg v B s o) {w : Nat → Nat}
    (word : w s.address = v.start B) :
    StillOk cfg { v with memory := m', word := w } s.address o B := by
  have placed := carries.placed
  have size := placed.size_ge
  have copied := sok.copied
  have sizes : v.size s.block = v.size B := by simp only [View.size, sok.sc]
  have placed' : View.Placed { v with memory := m', word := w } B := ⟨placed.sc, placed.index⟩
  refine ⟨used, ⟨placed', ?_⟩, word, ?_, ?_, sok.obj⟩
  · rw [← sok.carries.back, sok.carries.placed.back_eq, placed'.back_eq, sizes]
    refine readWord_congr fun j hj => ?_
    have at_ := memory.target (v.size B - 4 + j)
      (show _ < v.size B by omega) (fun _ => .inr (by omega))
    rw [if_pos (by omega)] at at_
    rw [Nat.add_assoc, Nat.add_assoc]
    exact at_
  · intro j hj user
    have bound : View.userBytes cfg (v.size B) ≤ v.size B - 4 ∧
        (Incremental cfg (v.size B) → View.userBytes cfg (v.size B) = v.size B - 8) := by
      simp only [View.userBytes]
      split
      next inc => exact ⟨by omega, fun _ => rfl⟩
      next inc => exact ⟨le_rfl, fun h => absurd h inc⟩
    have user : j < View.userBytes cfg (v.size B) := user
    have stored := sok.stores j hj (by rw [sizes]; exact user)
    have atB := memory.target j (by omega) (fun inc => .inl (by have := bound.2 inc; omega))
    by_cases fresh : s.copied ≤ j
    · rw [if_pos fresh] at atB
      exact atB.trans stored
    · rw [if_neg fresh] at atB
      have low := bound.2 (sok.copied_inc (by omega))
      exact atB.trans ((sok.before j (by omega) (by omega)).trans stored)
  · intro inc
    rw [placed'.part_eq]
    exact memory.part inc

/-- The increment that completes the copy: the object moves to the target block,
and the source page loses the call's entry. -/
theorem copyIncrement_last (good : Good cfg T h live F) (hF : F t = some f)
    (target : f.target = some B) (source : f.source = some s)
    (last : ¬ (Incremental cfg (blockSize f.sc) ∧
      s.copied + cfg.incrementalMemcpy < blockSize f.sc)) (j : Nat) :
    ∃ g h', copyIncrement cfg t (f.compaction B s j) h = .ok (.returned 0, h') ∧
      SameHeaders h g ∧ ReleasedEntry cfg f.sc s.block.page g h' ∧
      Good cfg T h' live (update F t (some
        { f with target := none, source := none, lost := (h'.view cfg).word f.address })) := by
  have c := good.copying hF target source
  obtain ⟨o, hlive, sok⟩ := c.obj
  have placedB := c.carries.placed
  have large := placedB.size_ge
  have room := sok.copied
  have memory := copiedMemory h.memory (b := (h.view cfg).start B)
    (s := (h.view cfg).start s.block) (k := s.copied) large (by omega)
    (Incremental cfg ((h.view cfg).size B))
  rw [c.sizeB] at room large
  generalize hm : (if Incremental cfg ((h.view cfg).size B) then
      writeWord (memcpy h.memory ((h.view cfg).start B + s.copied)
        ((h.view cfg).start s.block + s.copied) ((h.view cfg).size B - s.copied))
        ((h.view cfg).start B + ((h.view cfg).size B - 8)) 0
    else memcpy h.memory ((h.view cfg).start B + s.copied)
      ((h.view cfg).start s.block + s.copied) ((h.view cfg).size B - s.copied)) = m at memory
  rw [c.sizeB] at hm
  have outS : Out live F s.address := .inl (by rw [hlive]; simp)
  have isAa := good.isAa _ outS
  generalize hg : Heap.setAa cfg s.address ((h.view cfg).start B) { h with memory := m } = g
  have same : SameHeaders h g := by
    have first := sameHeaders_memory (m := m) h fun x free => memory.outside x <| by
      by_contra inside
      have page := placedB.pageOfBlock (x := x) (by omega) (by omega)
      exact c.notFree.1 (page ▸ free)
    rw [← hg]
    exact ⟨rfl, rfl, rfl, rfl, first.links⟩
  have sc : (h.pages s.block.page).sc = f.sc := by
    have eq : (h.pages s.block.page).sc = (h.pages B.page).sc := sok.sc
    exact eq.trans (good.target_facts hF target).2.2.2
  obtain ⟨h', runR, released⟩ := releaseSource_spec t (good.heap.congr same)
    ((congrArg (fun pages => (pages s.block.page).sc) same.pages).trans sc)
    (by rw [same.pages]; exact c.entries)
  have run : copyIncrement cfg t (f.compaction B s j) h = .ok (.returned 0, h') := by
    have size : (if cfg.incrementalMemcpy ≠ 0 then
        min (blockSize f.sc - s.copied) cfg.incrementalMemcpy else blockSize f.sc - s.copied) =
        blockSize f.sc - s.copied := by
      split
      next some =>
        have : ¬ (cfg.incrementalMemcpy < blockSize f.sc ∧
          s.copied + cfg.incrementalMemcpy < blockSize f.sc) :=
          fun h => last ⟨⟨some, h.1⟩, h.2⟩
        by_cases inc : cfg.incrementalMemcpy < blockSize f.sc <;> omega
      next => rfl
    rw [copyIncrement_of_last size (by simp only [Frame.compaction]; omega)]
    simp only [finishCompaction, Frame.compaction, c.starts.1, c.starts.2, c.fields.1,
      Heap.storeAa_ok _ _ isAa, ok_bind]
    have eq : (if Incremental cfg (blockSize f.sc) then
        Heap.writeMemory (Heap.setAa cfg s.address ((h.view cfg).start B) { h with
          memory := memcpy h.memory ((h.view cfg).start B + s.copied)
            ((h.view cfg).start s.block + s.copied) (blockSize f.sc - s.copied) })
          ((h.view cfg).start B + (blockSize f.sc - 8)) 0
      else Heap.setAa cfg s.address ((h.view cfg).start B) { h with
          memory := memcpy h.memory ((h.view cfg).start B + s.copied)
            ((h.view cfg).start s.block + s.copied) (blockSize f.sc - s.copied) }) = g := by
      rw [← hg, ← hm]
      split <;> rfl
    rw [eq, runR]
    rfl
  obtain ⟨usedR, entriesR, keepsR⟩ := released.view
    (by rw [same.pages]; exact c.entries)
  have viewG : (g.view cfg).used = (h.view cfg).used ∧
      (g.view cfg).entries = (h.view cfg).entries ∧ (g.view cfg).sc = (h.view cfg).sc := by
    simp only [Heap.view, same.pages, and_self]
  have memoryG : (g.view cfg).memory = m := by rw [← hg]; rfl
  have inUseR : ∀ q, (h'.view cfg).InUse q → (g.view cfg).InUse q := fun q use =>
    use.of_le (fun B use => (usedR B).mp use) fun q => Nat.le.intro (entriesR q)
  have first : (h.view cfg).Keeps (g.view cfg) fun C => C = B ∨ C = s.block := by
    refine ⟨fun q _ => congrFun viewG.2.2 q, fun C other placedC _ i hi => ?_⟩
    push Not at other
    have apart := placedC.disjoint placedB other.1
    rw [memoryG]
    exact memory.outside _ (by omega)
  have wordR : ∀ a, (h'.view cfg).word a = (g.view cfg).word a :=
    fun a => Good.word_congr released.only.addresses a
  have wordG : (g.view cfg).word s.address = (h.view cfg).start B := by
    rw [← hg, Heap.setAa_word_same _ isAa]
  refine ⟨g, h', run, same, released, good.of_frame hF rfl released.ok ?_
    (good.owns.finish hF target source (first.trans keepsR inUseR)
      (fun C => (usedR C).trans (by rw [viewG.1])) ?_ ?_ ?_)⟩
  · rw [released.only.addresses, ← hg]
    exact good.valid_setAa _ outS rfl
  · intro q
    rw [entriesR q, viewG.2.1]
  · intro a ne _
    rw [wordR, ← hg, Heap.setAa_word_other _ isAa ne]
    rfl
  · intro o' now
    have eq : o = o' := Option.some.inj (hlive.symm.trans now)
    subst eq
    have moved := memory.still c.used c.carries sok wordG
    have view : (g.view cfg) =
        { h.view cfg with memory := m, word := (g.view cfg).word } := by
      rw [← memoryG]
      simp only [Heap.view, same.pages]
    rw [← view] at moved
    exact moved.transport keepsR id ((usedR B).mpr moved.used) (wordR _)

/-- Where the call of frame `f` stands when its compaction gives the lock back. -/
def Settled (t : Nat) (f : Frame) (B : Block) (F : Frames) : Outcome → Prop
  | .returned abort => abort = 0 ∧
      ∃ w, F t = some { f with target := none, source := none, lost := w }
  | .unlocked comp => ∃ s, comp = f.compaction B s 0 ∧ F t = some { f with source := some s } ∧
      s.linked = true

/-- A compaction from the choice of its source on moves an object into the target
block, or waits with the first increment copied. -/
theorem doCompaction_spec (good : Good cfg T h live F) (hF : F t = some f)
    (target : f.target = some B) (source : f.source = none) (parked : Parked t F)
    {p : Nat} {h1 : Heap π} (taken : TakenSource cfg f.sc p h h1) (apart : p ≠ B.page)
    (whole : WholeCopies cfg.incrementalMemcpy) :
    ∃ o h' F', doCompaction cfg t f.sc B.page B.index p (blockSize f.sc) h1 = .ok (o, h') ∧
      Good cfg T h' live F' ∧ OthersKept t F F' ∧ Counts f.sc h h' ∧ Settled t f B F' o ∧
      (Incremental cfg (blockSize f.sc) → ∃ comp, o = .unlocked comp) := by
  obtain ⟨F', s, h2, select, sel⟩ :=
    selectSource_spec good hF target source parked taken rfl apart
  generalize hh : h2.setAa cfg s.address ((h2.view cfg).word s.address ||| abortCompactFlag) = h3
  have goodS := sel.good
  rw [hh] at goodS
  obtain ⟨_, carries, word, sc⟩ := goodS.target_facts sel.frame target
  have isAa := goodS.isAa _ (Good.out_call sel.frame)
  have back : readWord h3.memory (addressField B.page B.index (blockSize f.sc)) = f.address := by
    have eq := carries.back
    simp only [View.back, View.size, Heap.view, sc] at eq
    exact eq
  have value : (h3.view cfg).word f.address = blockStart B.page B.index (blockSize f.sc) := by
    refine word.trans ?_
    simp only [View.start, View.size, Heap.view, sc]
  have start : doCompaction cfg t f.sc B.page B.index p (blockSize f.sc) h1 =
      copyIncrement cfg t (f.compaction B s 0) h3 := by
    simp only [doCompaction, select, ok_bind, sel.back, h2.flagAa_ok _ sel.isAa, hh, back,
      ensure_true (Nat.pos_iff_ne_zero.mp sel.isAa.bounds.1), h3.loadAa_ok isAa, value,
      ensure_true (Nat.pos_iff_ne_zero.mp isAa.bounds.1)]
    simp only [Frame.compaction, sel.copied, Nat.sub_zero, Nat.add_zero]
  have others : ∀ x, OthersKept t F (update F' t x) := by
    intro x u hu
    rw [update_of_ne hu]
    exact sel.others u hu
  have classes3 : h3.classes = h2.classes := by rw [← hh]; rfl
  have pages3 : h3.pages = h2.pages := by rw [← hh]; rfl
  have before := sel.counts
  by_cases more : Incremental cfg (blockSize f.sc) ∧
      s.copied + cfg.incrementalMemcpy < blockSize f.sc
  · obtain ⟨h', run, good', same⟩ := copyIncrement_open goodS sel.frame target rfl whole more.1
      more.2 0
    have classes : h'.classes = h2.classes := same.classes.trans classes3
    refine ⟨_, h', _, start.trans run, good', others _,
      ⟨fun d hd => classes ▸ before.other d hd, classes ▸ before.nfullentries,
        classes ▸ before.total⟩, ⟨_, rfl, update_self .., rfl⟩, fun _ => ⟨_, rfl⟩⟩
  · obtain ⟨g, h', run, same, released, good'⟩ :=
      copyIncrement_last goodS sel.frame target rfl more 0
    have notInc : ¬ Incremental cfg (blockSize f.sc) :=
      fun inc => more ⟨inc, by rw [sel.copied]; have := inc.2; omega⟩
    have room := sel.room notInc
    have n := released.nfullentries
    have total := released.sourceentries
    have classes := same.classes.trans classes3
    rw [classes, same.pages.trans pages3] at n total
    refine ⟨_, h', _, start.trans run, good', others _, ⟨fun d hd => ?_, ?_, ?_⟩,
      ⟨rfl, _, update_self ..⟩, fun inc => absurd inc notInc⟩
    · rw [released.only.classes d hd, classes]
      exact before.other d hd
    · rw [n]
      grind
    · have := before.total
      grind

end Copy
end
end CompactFit
