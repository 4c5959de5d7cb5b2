import CompactFit.CompactionInvariant
import CompactFit.Allocator
import Mathlib.Order.Interval.Finset.Nat

/-!
The calls keep the invariant. A suspended `cf_free` is `Waiting` with a frame: its
copy goes on from where it stopped, or another call has aborted it. Each call has
one lemma with its result, the frames it leaves and its effect on the counters.
-/

namespace CompactFit
open Function ByteMemory AddressPool LawfulAddressPool

/-- The moving mode with increments that do not split the last word of a block they copy. -/
structure Config.Compacting (cfg : Config) : Prop where
  bound : 1 ≤ cfg.partialCompactionBound
  increment : WholeCopies cfg.incrementalMemcpy

section
variable {π : Type} [AddressPool π] [LawfulAddressPool π]

/-! ### Runs that may lack an address bucket -/

/-- The run succeeds with a result in `P`, unless `put_free_aa` lacks an empty
bucket, which a robust address pool rules out. -/
def Succeeds {α : Type} (π : Type) [AddressPool π] [LawfulAddressPool π] (cfg : Config) (T : Nat)
    (run : Except Fault α) (P : α → Prop) : Prop :=
  (∃ x, run = .ok x ∧ P x) ∨
    run = .error .emptyBucket ∧ ¬ Robust (π := π) cfg.toAddressConfig T

section Succeeds
variable {α β : Type} {cfg : Config} {T : Nat} {run : Except Fault α} {P Q : α → Prop}

theorem Succeeds.ok {x : α} (h : P x) : Succeeds π cfg T (.ok x) P := .inl ⟨x, rfl, h⟩

theorem Succeeds.mono (h : Succeeds π cfg T run P) (sub : ∀ x, P x → Q x) :
    Succeeds π cfg T run Q :=
  h.imp_left fun ⟨x, eq, hx⟩ => ⟨x, eq, sub x hx⟩

theorem Succeeds.bind {k : α → Except Fault β} {R : β → Prop} (h : Succeeds π cfg T run P)
    (next : ∀ x, P x → Succeeds π cfg T (k x) R) : Succeeds π cfg T (run >>= k) R := by
  rcases h with ⟨x, rfl, hx⟩ | ⟨rfl, lacks⟩
  · exact next x hx
  · exact .inr ⟨rfl, lacks⟩

theorem Succeeds.result (h : Succeeds π cfg T run P)
    (robust : Robust (π := π) cfg.toAddressConfig T) :
    ∃ x, run = .ok x ∧ P x :=
  h.resolve_right fun ⟨_, lacks⟩ => lacks robust

theorem Succeeds.of_ok {x : α} (h : Succeeds π cfg T run P) (ok : run = .ok x) : P x := by
  rcases h with ⟨y, run, hy⟩ | ⟨failed, _⟩
  · rw [ok] at run
    cases run
    exact hy
  · rw [ok] at failed
    cases failed

end Succeeds

/-! ### Returning the address of a call -/

section Leave
variable {cfg : Config} {T t : Nat} {h h' : Heap π} {live : Live} {F : Frames} {f : Frame}

theorem clearAbstractAddress_spec {out : Nat → Prop} {a : Nat}
    (valid : Valid cfg.toAddressConfig T out h.addresses) (ht : t < T)
    (held : out ((a - cfg.aaSpace) / 4)) :
    Succeeds π cfg T (clearAbstractAddress cfg t a h) fun h' => ∃ σ,
      h' = { h with addresses := σ } ∧
      Valid cfg.toAddressConfig T (fun id => out id ∧ id ≠ (a - cfg.aaSpace) / 4) σ ∧
      ∀ id, out id → id ≠ (a - cfg.aaSpace) / 4 → word σ id = word h.addresses id := by
  rcases putFreeAa_spec valid ht held with ⟨run, lacks⟩ | ⟨σ, run, valid', words⟩
  · refine .inr ⟨?_, lacks⟩
    rw [clearAbstractAddress, run]
    rfl
  · refine .inl ⟨{ h with addresses := σ }, ?_, σ, rfl, valid', words⟩
    rw [clearAbstractAddress, run]
    rfl

/-- The addresses that are out after call `t` has returned its own. -/
theorem Good.out_retire (good : Good cfg T h live F) (hF : F t = some f) (a : Nat) :
    Out live (update F t none) a ↔ Out live F a ∧ a ≠ f.address := by
  constructor
  · rintro (hlive | ⟨u, g, hG, rfl⟩)
    · exact ⟨.inl hlive, fun eq => hlive (eq ▸ good.owns.dead t f hF)⟩
    · by_cases hu : u = t
      · subst hu
        rw [update_self] at hG
        cases hG
      · rw [update_of_ne hu] at hG
        exact ⟨.inr ⟨u, g, hG, rfl⟩, fun eq => hu (good.owns.address_inj u t g f hG hF eq)⟩
  · rintro ⟨hlive | ⟨u, g, hG, rfl⟩, ne⟩
    · exact .inl hlive
    · refine .inr ⟨u, g, ?_, rfl⟩
      rw [update_of_ne]
      · exact hG
      · rintro rfl
        rw [hF] at hG
        cases hG
        exact ne rfl

theorem Good.retire (good : Good cfg T h live F) (hF : F t = some f) (heap : HeapOk cfg h')
    (valid : Valid cfg.toAddressConfig T (fun id => Out live F (aaPointer cfg id) ∧
      id ≠ (f.address - cfg.aaSpace) / 4) h'.addresses)
    (owns : Owns cfg T (h'.view cfg) live (update F t none)) :
    Good cfg T h' live (update F t none) := by
  have isAa := good.isAa _ (Good.out_call hF)
  refine ⟨heap, owns, valid_congr valid fun id => ?_,
    fun a out => good.isAa a ((good.out_retire hF a).mp out).1⟩
  rw [good.out_retire hF]
  refine and_congr_right fun _ => not_congr ⟨?_, ?_⟩
  · intro eq
    rw [← eq, aaPointer_id]
  · rintro rfl
    exact isAa.pointer

omit [LawfulAddressPool π] in
theorem aaWord_congr {σ : π} {out : Nat → Prop} {a : Nat}
    (words : ∀ id, out id → id ≠ (a - cfg.aaSpace) / 4 → word σ id = word h.addresses id)
    (ha : IsAa cfg a) {b : Nat} (hb : IsAa cfg b) (held : out ((b - cfg.aaSpace) / 4))
    (ne : b ≠ a) (addresses : h'.addresses = σ) :
    (h'.view cfg).word b = (h.view cfg).word b := by
  simp only [Heap.view, hb, if_true, Heap.aaWord, addresses]
  exact words _ held fun eq => ne (hb.inj ha eq)

theorem Good.out_id (good : Good cfg T h live F) {a : Nat} (out : Out live F a) :
    Out live F (aaPointer cfg ((a - cfg.aaSpace) / 4)) := by
  rw [(good.isAa a out).pointer]
  exact out

theorem Good.leave (good : Good cfg T h live F) (hF : F t = some f) (target : f.target = none)
    (held : f.held = none) : Succeeds π cfg T (clearAbstractAddress cfg t f.address h) fun h' =>
      Good cfg T h' live (update F t none) ∧ h'.pages = h.pages ∧ h'.classes = h.classes ∧
        h'.memory = h.memory := by
  have isAa := good.isAa _ (Good.out_call hF)
  refine (clearAbstractAddress_spec good.valid (good.owns.thread t f hF)
    (good.out_id (Good.out_call hF))).mono ?_
  rintro _ ⟨σ, rfl, valid, words⟩
  refine ⟨good.retire hF (good.heap.congr ⟨rfl, rfl, rfl, rfl, fun _ _ => .refl _ _ _⟩) valid ?_,
    rfl, rfl, rfl⟩
  refine (good.owns.leave hF target held).congr ⟨fun _ _ => rfl, fun _ _ _ _ => .refl _ _ _⟩
    (fun _ => Iff.rfl) (fun _ => rfl) fun a out => ?_
  obtain ⟨outF, ne⟩ := (good.out_retire hF a).mp out
  exact aaWord_congr words isAa (good.isAa a outF) (good.out_id outF) ne rfl

/-! ### The source entries a call gives up -/

/-- How many pages return to the not-full list when these pages lose one source
entry for each time they are listed. -/
def pagesReturned (gives : List Nat) (h : Heap π) : Nat :=
  (gives.dedup.filter fun p =>
    (h.pages p).sourceentries = gives.count p ∧ (h.pages p).nrUsedPageBlocks ≠ 0).length

/-- The counters of class `c` after the entries of the pages `gives` are given up. -/
structure Returned (c : Nat) (gives : List Nat) (h h' : Heap π) : Prop where
  other : ∀ d, d ≠ c → h'.classes d = h.classes d
  nfullentries : (h'.classes c).nfullentries ≤ (h.classes c).nfullentries + pagesReturned gives h
  total : (h'.classes c).nfullentries + (h'.classes c).sourceentries ≤
    (h.classes c).nfullentries + (h.classes c).sourceentries

omit [LawfulAddressPool π] [AddressPool π] in
theorem Returned.refl {c : Nat} (same : h'.classes = h.classes) : Returned c [] h h' := by
  refine ⟨fun d _ => by rw [same], ?_, ?_⟩ <;> rw [same]
  exact Nat.le_add_right _ _

omit [LawfulAddressPool π] [AddressPool π] in
theorem pagesReturned_one (h : Heap π) (p : Nat) : pagesReturned [p] h =
    if (h.pages p).sourceentries = 1 ∧ (h.pages p).nrUsedPageBlocks ≠ 0 then 1 else 0 := by
  have dedup : [p].dedup = [p] := by simp
  have count : [p].count p = 1 := by simp
  simp only [pagesReturned, dedup, List.filter_cons, List.filter_nil, count, decide_eq_true_eq]
  split <;> rfl

omit [AddressPool π] [LawfulAddressPool π] in
theorem ReleasedEntry.nrUsed {c p : Nat} (released : ReleasedEntry cfg c p h h')
    (ok : HeapOk cfg h) : (h'.pages p).nrUsedPageBlocks = (h.pages p).nrUsedPageBlocks := by
  rw [(released.ok.page p).used, (ok.page p).used, released.used]

omit [AddressPool π] [LawfulAddressPool π] in
theorem ReleasedEntry.returned {c p : Nat} (released : ReleasedEntry cfg c p h h') :
    Returned c [p] h h' := by
  have n := released.nfullentries
  have total := released.sourceentries
  refine ⟨released.only.classes, ?_, ?_⟩
  · rw [pagesReturned_one, n]
  · rw [n]
    split
    next last =>
      rw [if_pos last.1] at total
      omega
    next => omega

omit [LawfulAddressPool π] [AddressPool π] in
theorem Returned.congr {c : Nat} {gives : List Nat} {g g' : Heap π} (h : Returned c gives g g')
    {k k' : Heap π} (pages : k.pages = g.pages) (classes : k.classes = g.classes)
    (classes' : k'.classes = g'.classes) : Returned c gives k k' := by
  have returned : pagesReturned gives k = pagesReturned gives g := by
    simp only [pagesReturned, pages]
  refine ⟨?_, ?_, ?_⟩ <;> simp only [classes, classes', returned]
  · exact h.other
  · exact h.nfullentries
  · exact h.total

omit [LawfulAddressPool π] [AddressPool π] in
theorem Returned.trans_none {c : Nat} {gives : List Nat} {g g' g'' : Heap π}
    (first : Returned c gives g g') (second : Returned c [] g' g'') : Returned c gives g g'' :=
  ⟨fun d hd => (second.other d hd).trans (first.other d hd),
    second.nfullentries.trans first.nfullentries, second.total.trans first.total⟩

omit [LawfulAddressPool π] [AddressPool π] in
/-- Two entries given up one after the other. -/
theorem ReleasedEntry.returned_then {c p q : Nat} {g : Heap π}
    (released : ReleasedEntry cfg c p h g) (ok : HeapOk cfg h) (second : Returned c [q] g h')
    (pos : 0 < (h.pages p).sourceentries ∧ 0 < (g.pages q).sourceentries) :
    Returned c [p, q] h h' := by
  have first := released.returned
  refine ⟨fun d hd => (second.other d hd).trans (first.other d hd), ?_,
    second.total.trans first.total⟩
  have counted : pagesReturned [p] h + pagesReturned [q] g ≤ pagesReturned [p, q] h := by
    by_cases same : p = q
    · subst same
      have entries := released.entries
      have dedup : [p, p].dedup = [p] := by simp
      have count : [p, p].count p = 2 := by simp
      rw [pagesReturned_one, pagesReturned_one, released.nrUsed ok, entries]
      simp only [pagesReturned, dedup, List.filter_cons, List.filter_nil, count, decide_eq_true_eq]
      split <;> split <;> split <;> simp <;> omega
    · have dedup : [p, q].dedup = [p, q] := by simp [same]
      have countP : [p, q].count p = 1 := by simp [Ne.symm same]
      have countQ : [p, q].count q = 1 := by simp [same]
      rw [pagesReturned_one, pagesReturned_one, released.only.pages q (Ne.symm same)]
      simp only [pagesReturned, dedup, List.filter_cons, List.filter_nil, countP, countQ,
        decide_eq_true_eq]
      split <;> split <;> simp
  have := first.nfullentries
  have := second.nfullentries
  omega

def Finished (cfg : Config) (T t : Nat) (f : Frame) (live : Live) (F : Frames) (h h' : Heap π) :
    Prop :=
  Good cfg T h' live (update F t none) ∧ Returned f.sc f.held.toList h h'

theorem finishFree_spec (good : Good cfg T h live F) (hF : F t = some f)
    (target : f.target = none) (bound : 0 ≤ cfg.partialCompactionBound) :
    Succeeds π cfg T (finishFree cfg t f.sc f.address f.held 0 h)
      (Finished cfg T t f live F h) := by
  cases held : f.held with
  | none =>
      have run : finishFree cfg t f.sc f.address none 0 h =
          clearAbstractAddress cfg t f.address h := by
        simp only [finishFree, ok_bind, bound, and_self, if_true]
      rw [run]
      refine (good.leave hF target held).mono fun h' left => ⟨left.1, ?_⟩
      rw [held]
      exact .refl left.2.2.1
  | some p =>
      have pos : 0 < (h.pages p).sourceentries := (good.owns.entries_pos hF).2 p held
      obtain ⟨g, runR, released⟩ := releaseSource_spec t (p := p) good.heap
        ((good.owns.frame t f hF).held p held) pos
      have run : finishFree cfg t f.sc f.address (some p) 0 h =
          clearAbstractAddress cfg t f.address g := by
        simp only [finishFree, runR, ok_bind, bound, and_self, if_true]
      rw [run]
      have good' := good.releaseHeld hF target held released
      refine (good'.leave (update_self ..) target rfl).mono fun h' left => ⟨?_, ?_⟩
      · have gone := left.1
        rwa [update_idem] at gone
      · rw [held]
        exact released.returned.congr rfl rfl left.2.2.1

/-- The end of an aborted call: `do_compaction` has returned its address. -/
theorem abandon_spec (good : Good cfg T h live F) (hF : F t = some f) (target : f.target = none)
    {flag : Nat} (aborted : flag ≠ 0) : Succeeds π cfg T
      (clearAbstractAddress cfg t f.address h >>= finishFree cfg t f.sc f.address f.held flag)
      (Finished cfg T t f live F h) := by
  have done : ∀ {g : Heap π}, (if 0 ≤ cfg.partialCompactionBound ∧ flag = 0 then
      clearAbstractAddress cfg t f.address g else .ok g) = .ok g := fun {g} => by
    simp only [aborted, and_false, if_false]
  cases held : f.held with
  | none =>
      refine (good.leave hF target held).bind fun h' left => ?_
      have run : finishFree cfg t f.sc f.address none flag h' = .ok h' := done
      rw [run]
      refine .ok ⟨left.1, ?_⟩
      rw [held]
      exact .refl left.2.2.1
  | some p =>
      have pos : 0 < (h.pages p).sourceentries := (good.owns.entries_pos hF).2 p held
      have isAa := good.isAa _ (Good.out_call hF)
      refine (clearAbstractAddress_spec good.valid (good.owns.thread t f hF)
        (good.out_id (Good.out_call hF))).bind ?_
      rintro _ ⟨σ, rfl, valid, words⟩
      have same : SameHeaders h { h with addresses := σ } :=
        ⟨rfl, rfl, rfl, rfl, fun _ _ => .refl _ _ _⟩
      obtain ⟨g, runR, released⟩ := releaseSource_spec t (p := p) (good.heap.congr same)
        ((good.owns.frame t f hF).held p held) pos
      have run : finishFree cfg t f.sc f.address (some p) flag { h with addresses := σ } =
          .ok g := by
        rw [finishFree, runR]
        exact done
      rw [run]
      obtain ⟨used, entries, keeps⟩ := released.view pos
      have keeps : (h.view cfg).Keeps (g.view cfg) fun _ => False :=
        ⟨keeps.sc, fun C hC placed => keeps.memory C hC ⟨placed.sc, placed.index⟩⟩
      have dropped := good.owns.dropHeld hF target held keeps used entries fun a ne out => by
        have outA : Out live F a := out
        exact aaWord_congr words isAa (good.isAa a outA) (good.out_id outA) ne
          released.only.addresses
      refine .ok ⟨good.retire hF released.ok (released.only.addresses ▸ valid) ?_, ?_⟩
      · have gone := dropped.leave (update_self ..) target rfl
        rwa [update_idem] at gone
      · rw [held]
        exact released.returned.congr rfl rfl rfl

end Leave

/-! ### Suspended calls -/

/-- A suspended call and its frame: the copy waits for its next increment, or the
compaction has been aborted and only the call's address word is left to look at. -/
inductive Waiting : Suspended → Frame → Prop where
  | copying {f : Frame} {B : Block} {s : Source} (target : f.target = some B)
      (source : f.source = some s) (linked : s.linked = true)
      (size : blockSize f.sc % 4 = 0) :
      Waiting { address := f.address, held := f.held, comp := f.compaction B s 0 } f
  | aborted {f : Frame} {comp : Compaction} (target : f.target = none) (sc : comp.sc = f.sc)
      (targetAa : comp.targetAa = f.address) (round : comp.j = 0)
      (value : comp.targetAaVal % 4 = 0)
      (lost : f.lost = comp.targetAaVal + 1 ∨ f.lost = comp.targetAaVal + 2) :
      Waiting { address := f.address, held := f.held, comp := comp } f

def Answers : Option Suspended → Option Frame → Prop
  | none, none => True
  | some call, some f => Waiting call f
  | _, _ => False

/-- The call has just given back the lock: its compaction is not aborted. -/
def Answering : Option Suspended → Option Frame → Prop
  | none, none => True
  | some call, some f => Waiting call f ∧ f.target ≠ none
  | _, _ => False

theorem Answering.answers {r : Option Suspended} {g : Option Frame} (h : Answering r g) :
    Answers r g := by
  cases r <;> cases g <;> first | exact h | exact h.1

theorem Waiting.sc {call : Suspended} {f : Frame} (waiting : Waiting call f) :
    call.comp.sc = f.sc := by
  cases waiting with
  | copying => rfl
  | aborted _ sc => exact sc

theorem blockStart_word {p i size : Nat} (h : size % 4 = 0) : blockStart p i size % 4 = 0 := by
  obtain ⟨k, rfl⟩ : ∃ k, size = 4 * k := ⟨size / 4, by omega⟩
  simp only [blockStart, pageSize]
  rw [Nat.mul_left_comm]
  omega

theorem Waiting.abort {call : Suspended} {g g' : Frame} (waiting : Waiting call g)
    (aborted : Aborted g g') : Waiting call g' := by
  obtain ⟨X, w, target, lost, rfl⟩ := aborted
  cases waiting with
  | @copying _ B s target' _ _ size =>
      have same : X = B := Option.some.inj (target.symm.trans target')
      subst same
      refine .aborted (f := { g with target := none, source := none, lost := w }) rfl rfl rfl rfl ?_
        lost
      exact blockStart_word size
  | aborted none =>
      rw [target] at none
      cases none

section Resume
variable {cfg : Config} {T t : Nat} {h h' : Heap π} {live : Live} {F : Frames} {f : Frame}
  {B : Block} {s : Source}

/-- The pages whose source entries a suspended call gives up when it is resumed. -/
def Suspended.givesUp (cfg : Config) (call : Suspended) (h : Heap π) : List Nat :=
  if h.aaWord cfg call.comp.targetAa ≠ call.comp.targetAaVal then call.held.toList
  else if cfg.incrementalMemcpy < call.comp.remSize then []
  else call.comp.srcPage :: call.held.toList

/-- What a resumed call leaves: it is suspended again or gone, the other calls keep
their frames, and the counters only lose the source entries given up. -/
structure Resumed (cfg : Config) (T t : Nat) (call : Suspended) (h : Heap π) (live : Live)
    (F : Frames) (r : Option Suspended × Heap π) (g : Option Frame) : Prop where
  good : Good cfg T r.2 live (update F t g)
  answers : Answering r.1 g
  returned : Returned call.comp.sc (call.givesUp cfg h) h r.2
  shorter : ∀ call', r.1 = some call' → call'.comp.remSize < call.comp.remSize

theorem resume_copying (good : Good cfg T h live F) (hF : F t = some f)
    (target : f.target = some B) (source : f.source = some s) (linked : s.linked = true)
    (size : blockSize f.sc % 4 = 0) (config : cfg.Compacting)
    {call : Suspended}
    (hc : call = { address := f.address, held := f.held, comp := f.compaction B s 0 }) :
    Succeeds π cfg T (resumeFree cfg t call h) fun r => ∃ g, Resumed cfg T t call h live F r g := by
  have isAa := good.isAa _ (Good.out_call hF)
  obtain ⟨_, _, word, sc⟩ := good.target_facts hF target
  have value : (h.view cfg).word f.address = blockStart B.page B.index (blockSize f.sc) := by
    refine word.trans ?_
    simp only [View.start, View.size, Heap.view, sc]
  have aaWord : h.aaWord cfg f.address = blockStart B.page B.index (blockSize f.sc) := by
    rw [← value]
    simp only [Heap.view, isAa, if_true]
  have start : resumeCompaction cfg t call.comp h = copyIncrement cfg t (f.compaction B s 0) h := by
    rw [hc]
    simp only [resumeCompaction, Frame.compaction, h.loadAa_ok isAa, ok_bind, value, if_true]
  have c := good.copying hF target source
  obtain ⟨o, _, sok⟩ := c.obj
  have inc : Incremental cfg (blockSize f.sc) := c.sizeB ▸ (sok.linked linked).1
  by_cases more : Incremental cfg (blockSize f.sc) ∧
      s.copied + cfg.incrementalMemcpy < blockSize f.sc
  · obtain ⟨h', run, good', same⟩ := copyIncrement_open good hF target source config.increment
      more.1 more.2 0
    have gives : call.givesUp cfg h = [] := by
      have notLast : cfg.incrementalMemcpy < blockSize f.sc - s.copied := by omega
      rw [hc]
      simp only [Suspended.givesUp, Frame.compaction, aaWord, notLast, ne_eq, not_true, if_true,
        if_false]
    generalize hs : ({ s with copied := s.copied + cfg.incrementalMemcpy, linked := true } :
      Source) = s' at run good'
    refine .inl ⟨(some ⟨f.address, f.held, f.compaction B s' 0⟩, h'), ?_,
      some { f with source := some s' }, good', ?_, ?_, ?_⟩
    · rw [resumeFree, start, run, hc]
      rfl
    · refine ⟨.copying (f := { f with source := some s' }) target rfl ?_ size,
        fun none => by cases target.symm.trans none⟩
      rw [← hs]
    · rw [gives]
      exact .refl same.classes
    · rintro call' eq
      cases eq
      have pos := more.1.1
      rw [hc, ← hs]
      simp only [Frame.compaction]
      omega
  · obtain ⟨g, h', run, same, released, good'⟩ :=
      copyIncrement_last good hF target source more 0
    have gives : call.givesUp cfg h = s.block.page :: f.held.toList := by
      have isLast : ¬ cfg.incrementalMemcpy < blockSize f.sc - s.copied :=
        fun lt => more ⟨inc, by omega⟩
      rw [hc]
      simp only [Suspended.givesUp, Frame.compaction, aaWord, isLast, ne_eq, not_true, if_false]
    have settle : resumeFree cfg t call h =
        finishFree cfg t f.sc f.address f.held 0 h' >>= fun h'' => .ok (none, h'') := by
      rw [resumeFree, start, run, hc]
      rfl
    rw [settle]
    refine (finishFree_spec (f := { f with target := none, source := none, lost := _ }) good'
      (update_self ..) rfl (by have := config.bound; omega)).bind fun h'' done => ?_
    obtain ⟨gone, returned⟩ := done
    rw [update_idem] at gone
    refine .ok ⟨none, gone, trivial, ?_, fun _ eq => by cases eq⟩
    rw [gives, hc]
    refine Returned.congr ?_ same.pages.symm same.classes.symm rfl
    have pos : 0 < (g.pages s.block.page).sourceentries := by rw [same.pages]; exact c.entries
    cases held : f.held with
    | none =>
        rw [held] at returned
        refine released.returned.trans_none returned
    | some q =>
        rw [held] at returned
        have next := (good'.owns.entries_pos (update_self ..)).2 q held
        exact released.returned_then (good.heap.congr same) returned ⟨pos, next⟩

/-- An aborted compaction sees its flagged word and returns the address. -/
theorem Good.abort_run (good : Good cfg T h live F) (hF : F t = some f) (target : f.target = none)
    {comp : Compaction} (targetAa : comp.targetAa = f.address) (round : comp.j = 0)
    (value : comp.targetAaVal % 4 = 0)
    (lost : f.lost = comp.targetAaVal + 1 ∨ f.lost = comp.targetAaVal + 2)
    (once : cfg.memcpyMultiplicator = 1) : ∃ flag, flag ≠ 0 ∧ resumeCompaction cfg t comp h =
      clearAbstractAddress cfg t f.address h >>= fun h' => .ok (.returned flag, h') := by
  have isAa := good.isAa _ (Good.out_call hF)
  have changed : f.lost ≠ comp.targetAaVal := by omega
  have rounds : ¬ comp.j + 1 < cfg.memcpyMultiplicator := by
    rw [round, once]
    exact Nat.lt_irrefl 1
  have load : h.loadAa cfg f.address = .ok f.lost := by
    rw [h.loadAa_ok isAa, ((good.owns.frame t f hF).lost target).1]
  by_cases compact : f.lost &&& abortCompactFlag ≠ 0
  · refine ⟨abortCompactFlag, by decide, ?_⟩
    simp only [resumeCompaction, abortCompaction, load, ok_bind, changed, rounds, compact,
      if_false, targetAa, ne_eq, not_false_eq_true, if_true]
    rfl
  · refine ⟨abortFreeFlag, by decide, ?_⟩
    have free := (flag_visible value lost).resolve_left compact
    simp only [resumeCompaction, abortCompaction, load, ok_bind, changed, rounds, compact, free,
      if_false, targetAa, ne_eq, not_false_eq_true, if_true]
    rfl

theorem resume_aborted (good : Good cfg T h live F) (hF : F t = some f) (target : f.target = none)
    {comp : Compaction} (sc : comp.sc = f.sc) (targetAa : comp.targetAa = f.address)
    (round : comp.j = 0) (value : comp.targetAaVal % 4 = 0)
    (lost : f.lost = comp.targetAaVal + 1 ∨ f.lost = comp.targetAaVal + 2)
    (once : cfg.memcpyMultiplicator = 1) {call : Suspended}
    (hc : call = { address := f.address, held := f.held, comp := comp }) :
    Succeeds π cfg T (resumeFree cfg t call h) fun r => ∃ g, Resumed cfg T t call h live F r g := by
  have isAa := good.isAa _ (Good.out_call hF)
  have aaWord : h.aaWord cfg comp.targetAa = f.lost := by
    rw [← ((good.owns.frame t f hF).lost target).1, targetAa]
    simp only [Heap.view, isAa, if_true]
  have changed : f.lost ≠ comp.targetAaVal := by omega
  obtain ⟨flag, aborted, run⟩ := good.abort_run hF target targetAa round value lost once
  have gives : call.givesUp cfg h = f.held.toList := by
    rw [hc]
    simp only [Suspended.givesUp, aaWord, changed, ne_eq, not_false_eq_true, if_true]
  have settle : resumeFree cfg t call h = (clearAbstractAddress cfg t f.address h >>=
      finishFree cfg t f.sc f.address f.held flag) >>= fun h' => .ok (none, h') := by
    rw [resumeFree, hc, run, sc]
    cases clearAbstractAddress cfg t f.address h <;> rfl
  rw [settle]
  refine (abandon_spec good hF target aborted).bind fun h' done => .ok ⟨none, done.1, trivial, ?_,
    fun _ eq => by cases eq⟩
  rw [gives, hc]
  exact sc ▸ done.2

theorem resumeFree_spec {call : Suspended} (good : Good cfg T h live F) (hF : F t = some f)
    (waiting : Waiting call f) (config : cfg.Compacting)
    (once : f.target = none → cfg.memcpyMultiplicator = 1) :
    Succeeds π cfg T (resumeFree cfg t call h) fun r => ∃ g, Resumed cfg T t call h live F r g := by
  cases waiting with
  | copying target source linked size =>
      exact resume_copying good hF target source linked size config rfl
  | aborted target sc targetAa round value lost =>
      exact resume_aborted good hF target sc targetAa round value lost (once target) rfl

end Resume

/-! ### Starting a free -/

def Config.k (cfg : Config) : Nat := cfg.partialCompactionBound.toNat

section Free
variable {cfg : Config} {T t : Nat} {h h' : Heap π} {live : Live} {F : Frames} {f : Frame}
  {B : Block}

omit [LawfulAddressPool π] [AddressPool π] in
theorem HeapOk.length_le (ok : HeapOk cfg h) (c : Nat) (l : ListFlag) :
    ((h.classes c).lists l).length ≤ cfg.nrPages := by
  have sub : ((h.classes c).lists l).toFinset ⊆
      Finset.Ico cfg.firstPage (cfg.firstPage + cfg.nrPages) := by
    intro p hp
    obtain ⟨listed, _, flag, _⟩ := (ok.lists.mem c l p).mp (List.mem_toFinset.mp hp)
    have inHeap := (ok.range p).mp (flag ▸ listed)
    exact Finset.mem_Ico.mpr inHeap
  have card := Finset.card_le_card sub
  rw [List.toFinset_card_of_nodup (ok.lists.nodup c l), Nat.card_Ico] at card
  omega

omit [LawfulAddressPool π] [AddressPool π] in
/-- The unsigned comparison of `valid_nfull_pages_ratio` does not wrap. -/
theorem HeapOk.ratio (ok : HeapOk cfg h) (bound : 1 ≤ cfg.partialCompactionBound) (c : Nat) :
    validNfullPagesRatio cfg c 1 h ↔ (h.classes c).nfullentries + 1 ≤ cfg.k := by
  have few := ok.length_le c .nfull
  rw [← ok.lists.nfullentries c] at few
  have end_ := cfg.heap_end
  have int := cfg.partialCompactionBound_int
  simp only [validNfullPagesRatio, Config.k, pageSize] at *
  omega

/-- The counters of class `c` after a free has started: `full` pages leave the full
list and `returned` pages may come back from the source lists. -/
structure Charged (cfg : Config) (c full returned : Nat) (h h' : Heap π) : Prop where
  other : ∀ d, d ≠ c → h'.classes d = h.classes d
  kept : returned = 0 → (h'.classes c).nfullentries ≤ max (h.classes c).nfullentries cfg.k
  nfullentries : (h'.classes c).nfullentries ≤
    max (max (h.classes c).nfullentries cfg.k) ((h.classes c).nfullentries + full + returned)
  total : (h'.classes c).nfullentries + (h'.classes c).sourceentries ≤
    max ((h.classes c).nfullentries + (h.classes c).sourceentries)
      (cfg.k + (h.classes c).sourceentries)

omit [LawfulAddressPool π] [AddressPool π] in
/-- A free that gives up no source entry. -/
theorem Charged.of_le {c : Nat} (full : Nat) (other : ∀ d, d ≠ c → h'.classes d = h.classes d)
    (n : (h'.classes c).nfullentries ≤ (h.classes c).nfullentries + full)
    (total : (h'.classes c).nfullentries + (h'.classes c).sourceentries ≤
      (h.classes c).nfullentries + full + (h.classes c).sourceentries)
    (room : full = 0 ∨ (h.classes c).nfullentries + full ≤ cfg.k) : Charged cfg c 0 0 h h' := by
  refine ⟨other, fun _ => ?_, ?_, ?_⟩ <;> omega

/-- A live object's address becomes that of a call. -/
theorem out_begin (idle : F t = none) (hlive : live f.address ≠ none) (b : Nat) :
    Out (update live f.address none) (update F t (some f)) b ↔ Out live F b := by
  by_cases eq : b = f.address
  · subst eq
    exact iff_of_true (.inr ⟨t, f, update_self .., rfl⟩) (.inl hlive)
  · rw [Out, update_of_ne eq]
    refine or_congr_right ⟨?_, ?_⟩
    · rintro ⟨u, g, hG, rfl⟩
      by_cases hu : u = t
      · subst hu
        rw [update_self] at hG
        cases hG
        exact absurd rfl eq
      · exact ⟨u, g, by rwa [update_of_ne hu] at hG, rfl⟩
    · rintro ⟨u, g, hG, rfl⟩
      refine ⟨u, g, ?_, rfl⟩
      rw [update_of_ne]
      · exact hG
      · rintro rfl
        rw [idle] at hG
        cases hG

/-- The object is no longer live and a call frees its block. -/
theorem Good.beginFree (good : Good cfg T h live F) {a : Nat} {o : Obj} (hlive : live a = some o)
    (still : ¬ Moving F a) (ok : StillOk cfg (h.view cfg) a o B) (idle : F t = none)
    (ht : t < T) : Good cfg T h (update live a none)
      (update F t (some (.start (h.pages B.page).sc a B))) := by
  have out := @out_begin _ live F (.start (h.pages B.page).sc a B) idle
    (show live a ≠ none by rw [hlive]; simp)
  exact ⟨good.heap, good.owns.beginFree hlive still ok idle ht,
    valid_congr good.valid fun _ => out _, fun b hb => good.isAa b ((out b).mp hb)⟩

/-- After its target block is freed, a call gives up what it holds and ends. -/
theorem settle_freed (good : Good cfg T h live F) (hF : F t = some f)
    (target : f.target = some B) (source : f.source = none)
    (freed : FreedBlock cfg f.sc B.page B.index h h') (config : cfg.Compacting) :
    Succeeds π cfg T (settleFree cfg t f.address f.held f.sc (.returned 0, h')) fun r =>
      r.1 = none ∧ Good cfg T r.2 live (update F t none) ∧
        Returned f.sc f.held.toList h' r.2 := by
  have good' := good.freeTarget hF target source freed
  refine (finishFree_spec (f := { f with target := none, lost := _ }) good' (update_self ..) rfl
    (by have := config.bound; omega)).bind fun h'' done => .ok ⟨rfl, ?_, done.2⟩
  have gone := done.1
  rwa [update_idem] at gone

/-- What a started free leaves: it is suspended or gone, and other calls may have
been aborted. -/
structure Freed (cfg : Config) (T t c full returned : Nat) (h : Heap π) (live : Live) (F : Frames)
    (r : Option Suspended × Heap π) (F' : Frames) : Prop where
  good : Good cfg T r.2 live F'
  answers : Answering r.1 (F' t)
  others : OthersKept t F F'
  charged : Charged cfg c full returned h r.2

omit [LawfulAddressPool π] in
theorem settle_waiting (cfg : Config) (h' : Heap π) {F' : Frames} {comp : Compaction}
    (settled : Settled t f B F' (.unlocked comp)) (target : f.target = some B)
    (size : blockSize f.sc % 4 = 0) : ∃ call,
      settleFree cfg t f.address f.held f.sc (.unlocked comp, h') = .ok (some call, h') ∧
      Answering (some call) (F' t) := by
  obtain ⟨s, rfl, frame, linked⟩ := settled
  refine ⟨_, rfl, ?_⟩
  rw [frame]
  exact ⟨.copying (f := { f with source := some s }) target rfl linked size,
    fun none => by cases target.symm.trans none⟩

theorem settle_done {F' : Frames} {abort : Nat} (good : Good cfg T h' live F')
    (settled : Settled t f B F' (.returned abort)) (config : cfg.Compacting) :
    Succeeds π cfg T (settleFree cfg t f.address f.held f.sc (.returned abort, h')) fun r =>
      r.1 = none ∧ Good cfg T r.2 live (update F' t none) ∧
        Returned f.sc f.held.toList h' r.2 := by
  obtain ⟨rfl, w, frame⟩ := settled
  exact (finishFree_spec good frame rfl (by have := config.bound; omega)).bind
    fun h'' done => .ok ⟨rfl, done.1, done.2⟩

theorem OthersKept.updateFrame {F F' : Frames} (others : OthersKept t F F') (x : Option Frame) :
    OthersKept t F (update F' t x) := by
  intro u hu
  rw [update_of_ne hu]
  exact others u hu

theorem othersKept_update (F : Frames) (x : Option Frame) : OthersKept t F (update F t x) :=
  OthersKept.updateFrame (fun _ _ => .inl rfl) x

omit [LawfulAddressPool π] [AddressPool π] in
theorem FreedBlock.returned {c p i : Nat} {gives : List Nat} {h'' : Heap π}
    (freed : FreedBlock cfg c p i h h') (returned : Returned c gives h' h'') :
    (∀ d, d ≠ c → h''.classes d = h.classes d) ∧
      (h''.classes c).nfullentries ≤ (h.classes c).nfullentries +
        (if (h.pages p).listFlags = .full then 1 else 0) + pagesReturned gives h' ∧
      (h''.classes c).nfullentries + (h''.classes c).sourceentries ≤
        (h.classes c).nfullentries + (if (h.pages p).listFlags = .full then 1 else 0) +
          (h.classes c).sourceentries := by
  have n := freed.nfullentries
  have s := freed.sourceentries
  have n' := returned.nfullentries
  have total := returned.total
  exact ⟨fun d hd => (returned.other d hd).trans (freed.only.classes d hd), by omega, by omega⟩

omit [AddressPool π] [LawfulAddressPool π] in
theorem HeapOk.full_iff (ok : HeapOk cfg h) {c p : Nat} (hc : (h.pages p).sc = c) :
    isPageFull p (blockSize c) h ↔ (h.pages p).listFlags = .full := by
  rw [← (ok.page p).full_iff, hc]
  rfl

/-- A call whose object no compaction is moving, with its frame already in place. -/
theorem freeStill_spec (good : Good cfg T h live F) (hF : F t = some f)
    (target : f.target = some B) (source : f.source = none) (held : f.held = none)
    (parked : Parked t F) (config : cfg.Compacting) :
    Succeeds π cfg T (freeStill cfg t f.sc f.address B.page (blockSize f.sc) B.index h) fun r =>
      ∃ F', Freed cfg T t f.sc 0 0 h live F r F' := by
  obtain ⟨used, carries, _, sc⟩ := good.target_facts hF target
  have ratio := good.heap.ratio config.bound f.sc
  have full := good.heap.full_iff sc
  have pos : 1 ≤ cfg.k := by have := config.bound; simp only [Config.k]; omega
  have none : pagesReturned ([] : List Nat) h = 0 := rfl
  simp only [freeStill]
  by_cases room : validNfullPagesRatio cfg f.sc 1 h
  · obtain ⟨h', run, freed⟩ := doFree_spec t good.heap used sc
    rw [if_pos room, run, ok_bind]
    refine (held ▸ settle_freed good hF target source freed config).mono ?_
    rintro ⟨_, h''⟩ ⟨rfl, gone, returned⟩
    obtain ⟨other, n, total⟩ := freed.returned returned
    have few := ratio.mp room
    refine ⟨_, gone, by rw [update_self]; trivial, othersKept_update F _,
      .of_le _ other n total ?_⟩
    split <;> omega
  · have many := fun few => room (ratio.mpr few)
    rw [if_neg room]
    by_cases pageFull : isPageFull B.page (blockSize f.sc) h
    · have notFull : ¬ inFullState f.sc h := by
        rintro ⟨zero, _⟩
        exact many (by omega)
      obtain ⟨p, h1, run, taken⟩ := getSourcePage_spec good.heap notFull
      have apart : p ≠ B.page := by
        rintro rfl
        exact taken.notFull (full.mp pageFull)
      obtain ⟨o, h', F', run', good', others, counts, settled, _⟩ :=
        doCompaction_spec good hF target source parked taken apart config.increment
      have charged : Charged cfg f.sc 0 0 h h' := .of_le 0 counts.other
        (by have := counts.nfullentries; omega) (by have := counts.total; omega) (.inl rfl)
      simp only [if_pos pageFull, run, ok_bind, run']
      cases o with
      | unlocked comp =>
          obtain ⟨call, settle, answers⟩ := settle_waiting cfg h' settled target
            (blockSize_word (sc ▸ carries.placed.sc))
          rw [held] at settle
          exact .inl ⟨_, settle, F', good', answers, others, charged⟩
      | returned abort =>
          refine (held ▸ settle_done good' settled config).mono ?_
          rintro ⟨_, h''⟩ ⟨rfl, gone, returned⟩
          have n := returned.nfullentries
          refine ⟨_, gone, by rw [update_self]; trivial, others.updateFrame _, .of_le 0
            (fun d hd => (returned.other d hd).trans (counts.other d hd)) ?_ ?_ (.inl rfl)⟩
          · exact n.trans counts.nfullentries
          · exact returned.total.trans counts.total
    · obtain ⟨h', run, freed⟩ := doFreeNfullState_spec t good.heap used sc fun flag =>
        pageFull (full.mpr flag)
      have notFull : (h.pages B.page).listFlags ≠ .full := fun flag => pageFull (full.mpr flag)
      rw [if_neg pageFull, run, ok_bind]
      refine (held ▸ settle_freed good hF target source freed config).mono ?_
      rintro ⟨_, h''⟩ ⟨rfl, gone, returned⟩
      obtain ⟨other, n, total⟩ := freed.returned returned
      rw [if_neg notFull] at n total
      exact ⟨_, gone, by rw [update_self]; trivial, othersKept_update F _,
        .of_le _ other n total (.inl rfl)⟩

/-- A used block of a class in the full state is in a full page. -/
theorem Good.full_of_inFullState (good : Good cfg T h live F) {c : Nat} (state : inFullState c h)
    (used : (h.view cfg).used B) (sc : (h.pages B.page).sc = c) :
    (h.pages B.page).listFlags = .full := by
  have page := good.heap.page B.page
  have pos := page.used_pos used
  have flag := page.flag
  cases listed : (h.pages B.page).listFlags with
  | full => rfl
  | nfull =>
      have := good.heap.lists.nfullentries_pos listed sc
      have := state.1
      omega
  | source =>
      have mem := (good.heap.lists.mem c .source B.page).mpr ⟨by simp, by simp, listed, sc⟩
      rw [state.2] at mem
      cases mem
  | none | emptying | free =>
      rw [listed] at flag
      have := flag.1
      omega

theorem OthersKept.of_update {F F' : Frames} {x : Option Frame}
    (others : OthersKept t (update F t x) F') : OthersKept t F F' := by
  intro u hu
  have kept := others u hu
  rwa [update_of_ne hu] at kept

theorem Parked.updateFrame {F : Frames} (parked : Parked t F) (x : Option Frame) :
    Parked t (update F t x) := by
  intro u g X hu hG
  rw [update_of_ne hu] at hG
  exact parked u g X hu hG

/-- The target block of the compaction that is moving the object at `a`, as `cf_free`
finds it. -/
def movingTarget (cfg : Config) (a : Nat) (h : Heap π) : Option Nat :=
  let pageBlock := h.aaWord cfg a
  let p := pageOfBlock pageBlock
  let size := blockSize (h.pages p).sc
  let partition := readWord h.memory (partitionField p (indexOfBlock p pageBlock size) size)
  if Incremental cfg size ∧ partition ≠ 0 then some partition else none

def freeClass (cfg : Config) (a : Nat) (h : Heap π) : Nat :=
  (h.pages (pageOfBlock (h.aaWord cfg a))).sc

/-- The pages whose source entries a free gives up before it ends: the page a moving
object is moved from, unless the free goes on with a compaction of its own. -/
def freeGivesUp (cfg : Config) (a : Nat) (h : Heap π) : List Nat :=
  match movingTarget cfg a h with
  | none => []
  | some target =>
      if ¬ validNfullPagesRatio cfg (freeClass cfg a h) 1 h ∧
          (h.pages (pageOfBlock target)).listFlags = .full then []
      else [pageOfBlock (h.aaWord cfg a)]

/-- Whether a free of a moving object frees a block of a full page. -/
def freeFromFull (cfg : Config) (a : Nat) (h : Heap π) : Nat :=
  match movingTarget cfg a h with
  | none => 0
  | some target => if (h.pages (pageOfBlock target)).listFlags = .full then 1 else 0

theorem cfFree_still (good : Good cfg T h live F) {a : Nat} {o : Obj} (hlive : live a = some o)
    (still : ¬ Moving F a) (ok : StillOk cfg (h.view cfg) a o B) (idle : F t = none)
    (ht : t < T) (parked : Parked t F) (config : cfg.Compacting) :
    Succeeds π cfg T (cfFree cfg t a h) fun r => ∃ F', Freed cfg T t (freeClass cfg a h)
      (freeFromFull cfg a h) (pagesReturned (freeGivesUp cfg a h) h) h (update live a none) F
      r F' := by
  have placed := ok.carries.placed
  have size := placed.size_ge
  have isAa := good.isAa a (.inl (by rw [hlive]; simp))
  have word : h.aaWord cfg a = (h.view cfg).start B := by
    have eq := ok.word
    simp only [Heap.view, isAa, if_true] at eq
    exact eq
  have load : h.loadAa cfg a = .ok ((h.view cfg).start B) := by
    rw [h.loadAa_ok isAa, ok.word]
  have page : pageOfBlock ((h.view cfg).start B) = B.page :=
    placed.pageOfBlock le_rfl (by omega)
  have index : indexOfBlock B.page ((h.view cfg).start B) (blockSize (h.pages B.page).sc) =
      B.index := placed.indexOfBlock le_rfl (by omega)
  have begun := good.beginFree hlive still ok idle ht
  have moving : compactionOn cfg := by
    have := config.bound
    simp only [compactionOn]
    omega
  have notLinked : ¬ (Incremental cfg (blockSize (h.pages B.page).sc) ∧ readWord h.memory
      (partitionField B.page B.index (blockSize (h.pages B.page).sc)) ≠ 0) := by
    rintro ⟨inc, part⟩
    exact part (ok.part inc)
  have notMoving : movingTarget cfg a h = none := by
    simp only [movingTarget, word, page, index, notLinked, if_false]
  have class_ : freeClass cfg a h = (h.pages B.page).sc := by
    simp only [freeClass, word, page]
  simp only [freeFromFull, freeGivesUp, notMoving, class_]
  change Succeeds π cfg T (cfFree cfg t a h) fun r => ∃ F', Freed cfg T t (h.pages B.page).sc 0 0 h
    (update live a none) F r F'
  simp only [cfFree, moving, not_true, if_false, load, ok_bind, page, index, notLinked]
  by_cases state : inFullState (h.pages B.page).sc h
  · have full := good.full_of_inFullState state ok.used rfl
    obtain ⟨h', run, freed⟩ := doFreeFullState_spec t good.heap ok.used rfl full
    simp only [if_pos state, freeInFullState, notLinked, if_false, run, ok_bind]
    refine (settle_freed begun (update_self ..) rfl rfl freed config).mono ?_
    rintro ⟨_, h''⟩ ⟨rfl, gone, returned⟩
    obtain ⟨other, n, total⟩ := freed.returned returned
    rw [update_idem] at gone
    refine ⟨_, gone, by rw [update_self]; trivial, othersKept_update F _, .of_le _ other n total ?_⟩
    have := config.bound
    have := state.1
    simp only [Config.k]
    split <;> omega
  · rw [if_neg state]
    refine (freeStill_spec begun (update_self ..) rfl rfl rfl (parked.updateFrame _) config).mono ?_
    rintro r ⟨F', freed⟩
    exact ⟨F', freed.good, freed.answers, freed.others.of_update, freed.charged⟩

/-- What `cf_free` finds at the address of an object that a suspended compaction is
moving: the flagged word still leads to the source block, whose partition field
leads to the target block `X` of the other call. -/
structure Linked (cfg : Config) (h : Heap π) (a : Nat) (g : Frame) (X : Block) (s : Source) :
    Prop where
  load : h.loadAa cfg a = .ok ((h.view cfg).word a)
  page : pageOfBlock ((h.view cfg).word a) = s.block.page
  index : indexOfBlock s.block.page ((h.view cfg).word a) (blockSize g.sc) = s.block.index
  sc : (h.pages s.block.page).sc = g.sc
  incremental : Incremental cfg (blockSize g.sc)
  partition : readWord h.memory (partitionField s.block.page s.block.index (blockSize g.sc)) =
    (h.view cfg).start X
  positive : 0 < (h.view cfg).start X
  targetAa : readWord h.memory ((h.view cfg).start X + (blockSize g.sc - 4)) = g.address
  targetPage : pageOfBlock ((h.view cfg).start X) = X.page
  targetIndex : indexOfBlock X.page ((h.view cfg).start X) (blockSize g.sc) = X.index

theorem Good.linked_sc (good : Good cfg T h live F) {u : Nat} {g : Frame} (hG : F u = some g)
    {X : Block} {s : Source} (target : g.target = some X) (source : g.source = some s) :
    (h.pages s.block.page).sc = g.sc := by
  obtain ⟨o, _, sok⟩ := (good.copying hG target source).obj
  have eq : (h.pages s.block.page).sc = (h.pages X.page).sc := sok.sc
  exact eq.trans (good.target_facts hG target).2.2.2

theorem Good.linked (good : Good cfg T h live F) {u : Nat} {g : Frame} (hG : F u = some g)
    {X : Block} {s : Source} (target : g.target = some X) (source : g.source = some s)
    (linked : s.linked = true) : Linked cfg h s.address g X s := by
  have c := good.copying hG target source
  obtain ⟨o, hlive, sok⟩ := c.obj
  obtain ⟨inc, _, part⟩ := sok.linked linked
  have isAa := good.isAa s.address (.inl (by rw [hlive]; simp))
  have placedX := c.carries.placed
  have placedS := sok.carries.placed
  have sizeX := placedX.size_ge
  have sizeS := placedS.size_ge
  have sc := good.linked_sc hG target source
  have startX := good.heap.block_lt placedX
    (good.heap.listed_of_inUse (View.used_inUse (v := h.view cfg) c.used))
  refine ⟨h.loadAa_ok isAa, ?_, ?_, sc, c.sizeB ▸ inc, ?_, startX.1, ?_, ?_, ?_⟩
  · rw [sok.word]
    exact placedS.pageOfBlock (by omega) (by omega)
  · rw [sok.word, ← c.sizeS]
    exact placedS.indexOfBlock (by omega) (by omega)
  · rw [← part, ← c.sizeS]
    rfl
  · rw [← c.sizeB]
    exact placedX.back_eq.symm.trans c.carries.back
  · exact placedX.pageOfBlock le_rfl (by omega)
  · rw [← c.sizeB]
    exact placedX.indexOfBlock le_rfl (by omega)

theorem OthersKept.trans {F F' F'' : Frames} (first : OthersKept t F F')
    (second : OthersKept t F' F'') : OthersKept t F F'' := by
  intro u hu
  rcases first u hu with same | ⟨g, g', hG, hG', aborted⟩ <;>
    rcases second u hu with same' | ⟨k, k', hK, hK', aborted'⟩
  · exact .inl (same'.trans same)
  · exact .inr ⟨k, k', same ▸ hK, hK', aborted'⟩
  · exact .inr ⟨g, g', hG, same'.trans hG', aborted⟩
  · -- an aborted call has no target left
    obtain ⟨_, _, _, _, rfl⟩ := aborted
    obtain ⟨_, _, target, _, _⟩ := aborted'
    rw [hG'] at hK
    cases hK
    cases target

theorem OthersKept.parked {F F' : Frames} (others : OthersKept t F F') (parked : Parked t F) :
    Parked t F' := by
  intro u g X hu hG target
  rcases others u hu with same | ⟨_, g', _, hG', aborted⟩
  · exact parked u g X hu (same ▸ hG) target
  · obtain ⟨_, _, _, _, rfl⟩ := aborted
    rw [hG] at hG'
    cases hG'
    cases target

/-- A call frees the object that call `u` is moving, and aborts that call. -/
theorem Good.steal (good : Good cfg T h live F) (idle : F t = none) (ht : t < T) {u : Nat}
    {g : Frame} (hG : F u = some g) {X : Block} {s : Source} (target : g.target = some X)
    (source : g.source = some s) (address : f.address = s.address) (noSource : f.source = none)
    (held : f.held = some s.block.page) (heap : HeapOk cfg h')
    (valid : Valid cfg.toAddressConfig T (fun id => Out live F (aaPointer cfg id)) h'.addresses)
    (keeps : (h.view cfg).Keeps (h'.view cfg) (· = X))
    (used : ∀ C, C ≠ X → ((h'.view cfg).used C ↔ (h.view cfg).used C))
    (usedX : (h'.view cfg).used X → f.target = some X)
    (entries : ∀ q, (h'.view cfg).entries q = (h.view cfg).entries q)
    (word : ∀ a, a ≠ g.address → a ≠ s.address → Out live F a →
      (h'.view cfg).word a = (h.view cfg).word a)
    (flagged : (h'.view cfg).word g.address = (h.view cfg).start X + 2)
    (mine : FrameOk cfg (h'.view cfg) (update live s.address none) f) :
    ∃ F', F' t = some f ∧ OthersKept t F F' ∧ Good cfg T h' (update live s.address none) F' := by
  have ne : u ≠ t := by
    rintro rfl
    rw [idle] at hG
    cases hG
  obtain ⟨_, _, _, sc⟩ := good.target_facts hG target
  obtain ⟨_, o, _, hlive, _⟩ := (good.owns.frame u g hG).source s source
  have owns := good.owns.steal idle ht hG target source f address noSource held keeps used usedX
    entries word mine
  generalize hy : (some
    { g with target := none, source := none, lost := (h'.view cfg).word g.address }) = y at owns
  have out : ∀ b, Out (update live s.address none) (update (update F u y) t (some f)) b ↔
      Out live F b := by
    intro b
    rw [← address]
    refine (out_begin ?_ ?_ b).trans ?_
    · rw [update_of_ne ne.symm, idle]
    · rw [address, hlive]
      simp
    · rw [← hy]
      exact out_update hG rfl
  refine ⟨_, update_self .., ?_, heap, owns, valid_congr valid fun _ => out _,
    fun a ha => good.isAa a ((out a).mp ha)⟩
  intro w hw
  rw [update_of_ne hw]
  by_cases eq : w = u
  · subst eq
    refine .inr ⟨g, _, hG, by rw [update_self, ← hy], X, _, target, .inr ?_, rfl⟩
    rw [flagged]
    simp only [View.start, View.size, Heap.view, sc]
  · exact .inl (update_of_ne eq _ _)

/-- The free of a moving object that frees the other call's target block. -/
theorem Good.stealFreed (good : Good cfg T h live F) (idle : F t = none) (ht : t < T) {u : Nat}
    {g : Frame} (hG : F u = some g) {X : Block} {s : Source} (target : g.target = some X)
    (source : g.source = some s) {h1 : Heap π}
    (flag : h.setAa cfg g.address ((h.view cfg).word g.address ||| abortFreeFlag) = h1)
    (freed : FreedBlock cfg g.sc X.page X.index h1 h') :
    ∃ F', F' t = some ⟨g.sc, s.address, none, none, some s.block.page,
        (h.view cfg).word s.address⟩ ∧
      OthersKept t F F' ∧ Good cfg T h' (update live s.address none) F' := by
  have c := good.copying hG target source
  obtain ⟨o, hlive, sok⟩ := c.obj
  have isAa := good.isAa _ (Good.out_call hG)
  obtain ⟨_, _, wordX, scX⟩ := good.target_facts hG target
  have wordR : ∀ a, (h'.view cfg).word a = (h1.view cfg).word a :=
    fun a => Good.word_congr freed.only.addresses a
  have other : ∀ a, a ≠ g.address → (h'.view cfg).word a = (h.view cfg).word a := by
    intro a neA
    rw [wordR, ← flag, Heap.setAa_word_other _ isAa neA]
  have pages : h1.pages = h.pages := by rw [← flag]; rfl
  have memory : h1.memory = h.memory := by rw [← flag]; rfl
  have keepsR := freed.only.keeps freed.ok
  have keeps : (h.view cfg).Keeps (h'.view cfg) fun _ => False := by
    refine ⟨fun q use => (keepsR.sc q use).trans (by simp only [Heap.view, pages]), ?_⟩
    intro C hC placed use
    have agree := keepsR.memory C hC ⟨by simpa only [Heap.view, pages] using placed.sc,
      by simpa only [Heap.view, pages] using placed.index⟩ use
    simpa only [Heap.view, View.start, View.size, pages, memory] using agree
  have entries : ∀ q, (h'.view cfg).entries q = (h.view cfg).entries q := by
    intro q
    rw [freed.entries_eq]
    simp only [Heap.view, pages]
  refine good.steal idle ht hG target source rfl rfl rfl freed.ok ?_
    (keeps.mono fun _ h => h.elim) ?_ ?_ entries (fun a neA _ _ => other a neA) ?_ ⟨?_, ?_, ?_, ?_⟩
  · rw [freed.only.addresses, ← flag]
    exact good.valid_setAa _ (Good.out_call hG) rfl
  · intro C neC
    rw [freed.used_iff, and_iff_left neC]
    simp only [Heap.view, pages]
  · intro usedX
    exact absurd rfl ((freed.used_iff X).mp usedX).2
  · rw [wordR, ← flag, Heap.setAa_word_same _ isAa, wordX, or_free_flag c.carries.placed.start_word]
  · rintro C hC
    cases hC
  · exact fun _ => ⟨other _ (good.owns.ne_source hG hG source).symm, rfl⟩
  · rintro r hr
    cases hr
  · rintro p hp
    cases hp
    have entry : 0 < (h'.view cfg).entries s.block.page := by rw [entries]; exact c.entries
    rw [keeps.sc _ (.inr entry)]
    exact (good.linked_sc hG target source)

/-- The heap in which `cf_free` has given the target block `X` of the other call to
its own address. -/
def Heap.rebind (cfg : Config) (a start size : Nat) (h : Heap π) : Heap π :=
  (h.writeMemory (start + (size - 4)) a).setAa cfg a start

omit [LawfulAddressPool π] in
theorem sameHeaders_rebind (cfg : Config) {v : View} (placed : v.Placed B) (a : Nat) (h : Heap π) :
    SameHeaders h (h.rebind cfg a (v.start B) (v.size B)) := by
  have size := placed.size_ge
  have behind := placed.behind_links (j := v.size B - 4) (by omega) (by omega)
  exact ⟨rfl, rfl, rfl, rfl, (sameHeaders_write h behind.1 behind.2).links⟩

/-- The free of a moving object that compacts into the other call's target block. -/
theorem Good.stealRebound (good : Good cfg T h live F) (idle : F t = none) (ht : t < T) {u : Nat}
    {g : Frame} (hG : F u = some g) {X : Block} {s : Source} (target : g.target = some X)
    (source : g.source = some s) {h1 : Heap π}
    (flag : h.setAa cfg g.address ((h.view cfg).word g.address ||| abortFreeFlag) = h1)
    (bound : h1.rebind cfg s.address ((h.view cfg).start X) ((h.view cfg).size X) = h') :
    ∃ F', F' t = some ⟨g.sc, s.address, some X, none, some s.block.page, 0⟩ ∧
      OthersKept t F F' ∧ Good cfg T h' (update live s.address none) F' := by
  have c := good.copying hG target source
  obtain ⟨o, hlive, sok⟩ := c.obj
  have isAa := good.isAa _ (Good.out_call hG)
  have outS : Out live F s.address := .inl (by rw [hlive]; simp)
  have isAaS := good.isAa _ outS
  obtain ⟨_, _, wordX, scX⟩ := good.target_facts hG target
  have neS : g.address ≠ s.address := good.owns.ne_source hG hG source
  have placed := c.carries.placed
  have size := placed.size_ge
  have same : SameHeaders h h' := by
    have first := sameHeaders_rebind cfg placed s.address h1
    rw [bound] at first
    rw [← flag] at first
    exact ⟨first.pages, first.classes, first.threads, first.freePageHead, first.links⟩
  have memory : h'.memory =
      writeWord h.memory ((h.view cfg).start X + ((h.view cfg).size X - 4)) s.address := by
    rw [← bound, ← flag]
    rfl
  have word : ∀ a, a ≠ s.address → (h'.view cfg).word a = (h1.view cfg).word a := by
    intro a neA
    rw [← bound, Heap.rebind, Heap.setAa_word_other _ isAaS neA]
    rfl
  have viewSame : (h'.view cfg).used = (h.view cfg).used ∧
      (h'.view cfg).entries = (h.view cfg).entries ∧ (h'.view cfg).sc = (h.view cfg).sc := by
    simp only [Heap.view, same.pages, and_self]
  have placed' : (h'.view cfg).Placed X := placed.congr (congrFun viewSame.2.2 _)
  have start : (h'.view cfg).start X = (h.view cfg).start X :=
    View.start_congr (congrFun viewSame.2.2 _)
  have sizes : (h'.view cfg).size X = (h.view cfg).size X :=
    View.size_congr (congrFun viewSame.2.2 _)
  refine good.steal idle ht hG target source rfl rfl rfl (good.heap.congr same) ?_ ⟨?_, ?_⟩
    (fun C _ => by rw [viewSame.1]) (fun _ => rfl) (fun q => by rw [viewSame.2.1]) ?_ ?_
    ⟨?_, ?_, ?_, ?_⟩
  · have first := good.valid_setAa ((h.view cfg).word g.address ||| abortFreeFlag)
      (Good.out_call hG) rfl
    rw [flag] at first
    rw [← bound]
    refine valid_setWord first ?_
    rw [isAaS.pointer]
    exact outS
  · exact fun q _ => congrFun viewSame.2.2 q
  · intro C neC placedC _
    have apart := placedC.disjoint placed neC
    change AgreeOn h.memory h'.memory _ _
    rw [memory]
    exact writeWord_agreeOn _ (by omega)
  · intro a neA neS' _
    rw [word a neS', ← flag, Heap.setAa_word_other _ isAa neA]
  · rw [word _ neS, ← flag, Heap.setAa_word_same _ isAa, wordX, or_free_flag placed.start_word]
  · rintro C hC
    cases hC
    refine ⟨viewSame.1 ▸ c.used, ⟨placed', ?_⟩, ?_, (congrFun viewSame.2.2 _).trans scX⟩
    · rw [placed'.back_eq, start, sizes]
      change readWord h'.memory _ = _
      rw [memory]
      exact readWord_writeWord _ _ isAaS.bounds.2
    · rw [start, ← bound, Heap.rebind, Heap.setAa_word_same _ isAaS]
  · rintro none
    cases none
  · rintro r hr
    cases hr
  · rintro p hp
    cases hp
    rw [viewSame.2.2]
    exact good.linked_sc hG target source

omit [LawfulAddressPool π] [AddressPool π] in
/-- Freeing a block brings no further page back from the source lists. -/
theorem FreedBlock.pagesReturned_le {c p i : Nat} (freed : FreedBlock cfg c p i h h')
    (ok : HeapOk cfg h) (q : Nat) : pagesReturned [q] h' ≤ pagesReturned [q] h := by
  rw [pagesReturned_one, pagesReturned_one]
  by_cases page : q = p
  · subst page
    have some : (h'.pages q).nrUsedPageBlocks ≠ 0 → (h.pages q).nrUsedPageBlocks ≠ 0 := by
      intro pos
      obtain ⟨j, used⟩ := (freed.ok.page q).exists_used (Nat.pos_of_ne_zero pos)
      rw [freed.used, UsedBitmap.used_clear] at used
      have := (ok.page q).used_pos used.1
      omega
    rw [freed.entries]
    split <;> split <;> simp_all
  · rw [freed.only.pages q page]

omit [AddressPool π] [LawfulAddressPool π] in
/-- The counters after a free of a moving object that frees the other call's target. -/
theorem Charged.of_freed {c p i q : Nat} {h1 h2 h3 : Heap π} (ok : HeapOk cfg h1)
    (pages : h1.pages = h.pages) (classes : h1.classes = h.classes)
    (freed : FreedBlock cfg c p i h1 h2) (returned : Returned c [q] h2 h3)
    (room : (h.pages p).listFlags = .full → (h.classes c).nfullentries + 1 ≤ cfg.k) :
    Charged cfg c (if (h.pages p).listFlags = .full then 1 else 0) (pagesReturned [q] h) h h3 := by
  obtain ⟨other, n, total⟩ := freed.returned returned
  have le := freed.pagesReturned_le ok q
  have same : pagesReturned [q] h1 = pagesReturned [q] h := by simp only [pagesReturned, pages]
  rw [classes, pages] at n total
  refine ⟨fun d hd => by rw [other d hd, classes], fun zero => ?_, ?_, ?_⟩
  · split at n
    next full =>
      have := room full
      omega
    next => omega
  · omega
  · split at total
    next full =>
      have := room full
      omega
    next => omega

/-- A free of a moving object by freeing the other call's target block. -/
theorem free_stolen (good : Good cfg T h live F) (idle : F t = none) (ht : t < T) {u : Nat}
    {g : Frame} (hG : F u = some g) {X : Block} {s : Source} (target : g.target = some X)
    (source : g.source = some s) {h1 : Heap π}
    (flag : h.setAa cfg g.address ((h.view cfg).word g.address ||| abortFreeFlag) = h1)
    (freed : FreedBlock cfg g.sc X.page X.index h1 h') (config : cfg.Compacting)
    (room : (h.pages X.page).listFlags = .full → (h.classes g.sc).nfullentries + 1 ≤ cfg.k) :
    Succeeds π cfg T (settleFree cfg t s.address (some s.block.page) g.sc (.returned 0, h'))
      fun r => ∃ F', Freed cfg T t g.sc (if (h.pages X.page).listFlags = .full then 1 else 0)
        (pagesReturned [s.block.page] h) h (update live s.address none) F r F' := by
  obtain ⟨F', frame, others, good'⟩ := good.stealFreed idle ht hG target source flag freed
  refine (finishFree_spec good' frame rfl (by have := config.bound; omega)).bind
    fun h'' done => .ok ⟨_, done.1, by rw [update_self]; trivial, others.updateFrame _, ?_⟩
  refine .of_freed ?_ ?_ ?_ freed done.2 room
  · rw [← flag]
    exact good.heap.congr ⟨rfl, rfl, rfl, rfl, fun _ _ => .refl _ _ _⟩
  · rw [← flag]
    rfl
  · rw [← flag]
    rfl

theorem freeMoving_spec (good : Good cfg T h live F) (idle : F t = none) (ht : t < T)
    (parked : Parked t F) {u : Nat} {g : Frame} (hG : F u = some g) {X : Block} {s : Source}
    (target : g.target = some X) (source : g.source = some s) (linked : s.linked = true)
    (state : ¬ inFullState g.sc h) (config : cfg.Compacting) :
    Succeeds π cfg T (freeMoving cfg t g.sc s.address s.block.page ((h.view cfg).start X)
        (blockSize g.sc) h) fun r =>
      ∃ F', Freed cfg T t g.sc (if (h.pages X.page).listFlags = .full then 1 else 0)
        (pagesReturned (if ¬ validNfullPagesRatio cfg g.sc 1 h ∧
          (h.pages X.page).listFlags = .full then [] else [s.block.page]) h) h
        (update live s.address none) F r F' := by
  have link := good.linked hG target source linked
  have isAa := good.isAa _ (Good.out_call hG)
  have c := good.copying hG target source
  obtain ⟨o, hlive, _⟩ := c.obj
  have isAaS := good.isAa s.address (.inl (by rw [hlive]; simp))
  obtain ⟨_, _, _, scX⟩ := good.target_facts hG target
  have ratio := good.heap.ratio config.bound g.sc
  have full := good.heap.full_iff scX
  generalize flag : h.setAa cfg g.address ((h.view cfg).word g.address ||| abortFreeFlag) = h1
  have same : SameHeaders h h1 := by
    rw [← flag]
    exact ⟨rfl, rfl, rfl, rfl, fun _ _ => .refl _ _ _⟩
  have heap1 := good.heap.congr same
  have used1 : (h1.pages X.page).usedPageBlockBitmap.Used X.index := by
    rw [same.pages]
    exact c.used
  have sc1 : (h1.pages X.page).sc = g.sc := by
    rw [same.pages]
    exact scX
  have ratio1 : validNfullPagesRatio cfg g.sc 1 h1 ↔ validNfullPagesRatio cfg g.sc 1 h := by
    simp only [validNfullPagesRatio, same.classes]
  have full1 : isPageFull X.page (blockSize g.sc) h1 ↔ (h.pages X.page).listFlags = .full := by
    rw [← full]
    simp only [isPageFull, same.pages]
  simp only [freeMoving, link.targetAa, h.flagAa_ok _ isAa, flag, ok_bind, link.targetPage,
    link.targetIndex, ratio1, full1]
  by_cases room : validNfullPagesRatio cfg g.sc 1 h
  · obtain ⟨h', run, freed⟩ := doFree_spec t heap1 used1 sc1
    simp only [room, if_true, run, ok_bind, not_true, false_and, if_false]
    exact free_stolen good idle ht hG target source flag freed config fun _ => ratio.mp room
  · by_cases pageFull : (h.pages X.page).listFlags = .full
    · obtain ⟨p, h2, run, taken⟩ := getSourcePage_spec (c := g.sc) heap1
        (by simpa only [inFullState, same.classes] using state)
      have placed := c.carries.placed
      obtain ⟨F', frame, others, good'⟩ :=
        good.stealRebound idle ht hG target source flag rfl
      have taken' := taken.congr (sameHeaders_rebind cfg placed s.address h1)
        (sameHeaders_rebind cfg placed s.address h2)
        (by simp only [Heap.rebind, Heap.setAa, Heap.writeMemory, taken.quiet.memory])
        (by simp only [Heap.rebind, Heap.setAa, Heap.writeMemory, taken.quiet.addresses])
      have apart : p ≠ X.page := by
        rintro rfl
        have notFull := taken.notFull
        rw [same.pages] at notFull
        exact notFull pageFull
      obtain ⟨o', h', F'', run', good'', others', counts, settled, waits⟩ :=
        doCompaction_spec good' frame rfl rfl (others.parked parked) taken' apart config.increment
      obtain ⟨comp, rfl⟩ := waits link.incremental
      obtain ⟨call, settle, answers⟩ := settle_waiting cfg h' settled rfl
        (blockSize_word (scX ▸ placed.sc))
      have bind : (h2.writeMemory ((h.view cfg).start X + (blockSize g.sc - 4)) s.address).storeAa
          cfg s.address ((h.view cfg).start X) =
          .ok (h2.rebind cfg s.address ((h.view cfg).start X) ((h.view cfg).size X)) := by
        rw [Heap.storeAa_ok _ _ isAaS, c.sizeB]
        rfl
      simp only [room, pageFull, if_true, if_false, run, ok_bind, bind, not_false_eq_true,
        and_self, run']
      have classes : (h1.rebind cfg s.address ((h.view cfg).start X)
          ((h.view cfg).size X)).classes = h.classes := same.classes
      obtain ⟨other, n, total⟩ := counts
      rw [classes] at n total
      have charged : Charged cfg g.sc 0 0 h h' := .of_le 0
        (fun d hd => (other d hd).trans (by rw [classes])) n total (.inl rfl)
      exact .inl ⟨_, settle, F'', good'', answers, others.trans others',
        charged.other, fun _ => charged.kept rfl,
        charged.nfullentries.trans (by omega), charged.total⟩
    · obtain ⟨h', run, freed⟩ := doFreeNfullState_spec t heap1 used1 sc1
        (by rw [same.pages]; exact pageFull)
      have stolen := free_stolen good idle ht hG target source flag freed config
        fun is => absurd is pageFull
      simp only [pageFull, if_false] at stolen
      simp only [room, pageFull, if_false, run, ok_bind, and_false]
      exact stolen

omit [LawfulAddressPool π] in
/-- In the full state `cf_free` gives up the entry of the source page itself; the page
is on the emptying list, so this is `do_free_source_state`. -/
theorem fullState_release {c a p : Nat} (empty : (h.pages p).nrUsedPageBlocks = 0) :
    (do
      let h := h.modifyPage p fun pg => { pg with sourceentries := decrement pg.sourceentries }
      let h ← if (h.pages p).sourceentries = 0 then do
          let h ← removePageFromEmptyingList c p h
          addFreePage cfg t p h
        else .ok h
      let h ← finishFree cfg t c a none 0 h
      return (none, h)) = settleFree cfg t a (some p) c (.returned 0, h) := by
  generalize hg :
    (h.modifyPage p fun pg => { pg with sourceentries := decrement pg.sourceentries }) = g
  have emptyG : (g.pages p).nrUsedPageBlocks = 0 := by
    rw [← hg]
    simpa using empty
  simp only [settleFree, finishFree, releaseSource, doFreeSourceState, hg, emptyG, if_true, ok_bind]
  by_cases last : (g.pages p).sourceentries = 0
  · simp only [last, if_true, bind_assoc]
  · simp only [last, if_false]
    rfl

theorem freeInFullState_moving (good : Good cfg T h live F) (idle : F t = none) (ht : t < T)
    {u : Nat} {g : Frame} (hG : F u = some g) {X : Block} {s : Source}
    (target : g.target = some X) (source : g.source = some s) (linked : s.linked = true)
    (state : inFullState g.sc h) (config : cfg.Compacting) :
    Succeeds π cfg T (freeInFullState cfg t g.sc s.address s.block.page (blockSize g.sc)
        s.block.index h) fun r => ∃ F', Freed cfg T t g.sc
          (if (h.pages X.page).listFlags = .full then 1 else 0) (pagesReturned [s.block.page] h) h
          (update live s.address none) F r F' := by
  have link := good.linked hG target source linked
  have isAa := good.isAa _ (Good.out_call hG)
  have c := good.copying hG target source
  obtain ⟨_, _, _, scX⟩ := good.target_facts hG target
  have fullX := good.full_of_inFullState state c.used scX
  have emptying : (h.pages s.block.page).listFlags = .emptying ∧
      (h.pages s.block.page).nrUsedPageBlocks = 0 := by
    refine (((good.heap.page s.block.page).source_of_entries c.entries).resolve_left ?_).imp_right
      And.left
    rintro ⟨listed, _⟩
    have mem := (good.heap.lists.mem g.sc .source s.block.page).mpr
      ⟨by simp, by simp, listed, link.sc⟩
    rw [state.2] at mem
    cases mem
  have apart : s.block.page ≠ X.page := by
    intro eq
    rw [eq, fullX] at emptying
    cases emptying.1
  generalize flag : h.setAa cfg g.address ((h.view cfg).word g.address ||| abortFreeFlag) = h1
  have same : SameHeaders h h1 := by
    rw [← flag]
    exact ⟨rfl, rfl, rfl, rfl, fun _ _ => .refl _ _ _⟩
  obtain ⟨h', run, freed⟩ := doFreeFullState_spec (c := g.sc) (i := X.index) t
    (good.heap.congr same) (by rw [same.pages]; exact c.used) (by rw [same.pages]; exact scX)
    (by rw [same.pages]; exact fullX)
  have empty : (h'.pages s.block.page).nrUsedPageBlocks = 0 := by
    rw [freed.only.pages _ apart, same.pages]
    exact emptying.2
  have partition : Incremental cfg (blockSize g.sc) ∧ (h.view cfg).start X ≠ 0 :=
    ⟨link.incremental, by have := link.positive; omega⟩
  have start : freeInFullState cfg t g.sc s.address s.block.page (blockSize g.sc) s.block.index h =
      settleFree cfg t s.address (some s.block.page) g.sc (.returned 0, h') := by
    rw [← fullState_release empty]
    simp only [freeInFullState, link.partition]
    rw [if_pos partition]
    simp only [ensure_true emptying.1, link.targetAa, h.flagAa_ok _ isAa, flag, ok_bind,
      link.targetPage, link.targetIndex, run]
  rw [start]
  refine free_stolen good idle ht hG target source flag freed config fun _ => ?_
  have := config.bound
  have := state.1
  simp only [Config.k]
  omega

/-- The free of an object that a suspended compaction is moving. -/
theorem cfFree_moving (good : Good cfg T h live F) (idle : F t = none) (ht : t < T)
    (parked : Parked t F) {u : Nat} {g : Frame} (hG : F u = some g) {X : Block} {s : Source}
    (target : g.target = some X) (source : g.source = some s) (linked : s.linked = true)
    (config : cfg.Compacting) :
    Succeeds π cfg T (cfFree cfg t s.address h) fun r => ∃ F', Freed cfg T t
      (freeClass cfg s.address h) (freeFromFull cfg s.address h)
      (pagesReturned (freeGivesUp cfg s.address h) h) h (update live s.address none) F r F' := by
  have link := good.linked hG target source linked
  obtain ⟨o, hlive, _⟩ := (good.copying hG target source).obj
  have isAa := good.isAa s.address (.inl (by rw [hlive]; simp))
  have word : h.aaWord cfg s.address = (h.view cfg).word s.address := by
    simp only [Heap.view, isAa, if_true]
  have mode : compactionOn cfg := by
    have := config.bound
    simp only [compactionOn]
    omega
  have partition : Incremental cfg (blockSize g.sc) ∧ (h.view cfg).start X ≠ 0 :=
    ⟨link.incremental, by have := link.positive; omega⟩
  have moving : movingTarget cfg s.address h = some ((h.view cfg).start X) := by
    simp only [movingTarget, word, link.page, link.sc, link.index, link.partition]
    rw [if_pos partition]
  have class_ : freeClass cfg s.address h = g.sc := by
    simp only [freeClass, word, link.page, link.sc]
  simp only [freeFromFull, freeGivesUp, moving, class_, link.targetPage, word, link.page]
  simp only [cfFree, mode, not_true, if_false, link.load, ok_bind, link.page, link.sc, link.index,
    link.partition]
  by_cases state : inFullState g.sc h
  · have room : validNfullPagesRatio cfg g.sc 1 h := by
      refine (good.heap.ratio config.bound g.sc).mpr ?_
      have := config.bound
      have := state.1
      simp only [Config.k]
      omega
    simp only [if_pos state, room, not_true, false_and, if_false]
    exact freeInFullState_moving good idle ht hG target source linked state config
  · rw [if_neg state, if_pos partition]
    exact freeMoving_spec good idle ht parked hG target source linked state config

/-- `cf_free` of a live object succeeds and keeps the invariant. -/
theorem cfFree_spec (good : Good cfg T h live F) (idle : F t = none) (ht : t < T)
    (parked : Parked t F) (config : cfg.Compacting) {a : Nat} {o : Obj} (hlive : live a = some o) :
    Succeeds π cfg T (cfFree cfg t a h) fun r => ∃ F', Freed cfg T t (freeClass cfg a h)
      (freeFromFull cfg a h) (pagesReturned (freeGivesUp cfg a h) h) h (update live a none) F
      r F' := by
  by_cases moving : Moving F a
  · obtain ⟨u, g, s, hG, source, rfl⟩ := moving
    obtain ⟨X, _, target, _, _⟩ := (good.owns.frame u g hG).source s source
    have ne : u ≠ t := by
      rintro rfl
      rw [idle] at hG
      cases hG
    obtain ⟨s', source', linked⟩ := parked u g X ne hG target
    have same : s' = s := Option.some.inj (source'.symm.trans source)
    subst same
    exact cfFree_moving good idle ht parked hG target source linked config
  · obtain ⟨B, ok⟩ := good.owns.still a o hlive moving
    exact cfFree_still good hlive moving ok idle ht parked config

end Free

/-! ### Allocation -/

section Malloc
variable {cfg : Config} {T t c p i : Nat} {h h' : Heap π} {live : Live} {F : Frames}

def Heap.pageBlock (cfg : Config) (a : Nat) (h : Heap π) : Nat :=
  if compactionOn cfg then h.aaWord cfg a else a

/-- The object `cf_malloc` has just made: its bytes are what the block holds. -/
def newObj (cfg : Config) (a c size : Nat) (h : Heap π) : Obj :=
  { sc := c, size := size, bytes := fun j => h.memory (h.pageBlock cfg a + j) }

/-- What `cf_malloc` leaves when it returns the address `a` of block `i` of page `p`. -/
structure Allocated (cfg : Config) (T c p i a size : Nat) (h2 h' : Heap π) (live : Live)
    (F : Frames) : Prop where
  fresh : ¬ Out live F a
  isAa : IsAa cfg a
  word : h'.aaWord cfg a = blockStart p i (blockSize c)
  good : Good cfg T h' (update live a (some (newObj cfg a c size h'))) F
  pages : h'.pages = h2.pages
  classes : h'.classes = h2.classes

theorem out_alloc {a : Nat} {o : Obj} (b : Nat) :
    Out (update live a (some o)) F b ↔ Out live F b ∨ b = a := by
  by_cases eq : b = a
  · subst eq
    simp [Out]
  · simp [Out, eq]

/-- The heap in which block `⟨p, i⟩` carries the address `a`. -/
def Heap.name (cfg : Config) (c p i a : Nat) (h : Heap π) : Heap π :=
  let h := h.writeMemory (addressField p i (blockSize c)) a
  if Incremental cfg (blockSize c) then h.writeMemory (partitionField p i (blockSize c)) 0 else h

/-- The memory after the address word and the partition field of a new block are set. -/
theorem namedMemory (m : Memory) (start size : Nat) {a : Nat} (large : 8 ≤ size)
    (ha : a < 4294967296)
    (inc : Prop) [Decidable inc] {m' : Memory}
    (hm : (if inc then writeWord (writeWord m (start + (size - 4)) a) (start + (size - 8)) 0
      else writeWord m (start + (size - 4)) a) = m') :
    (∀ x, x < start ∨ start + size ≤ x → m' x = m x) ∧
      readWord m' (start + (size - 4)) = a ∧ (inc → readWord m' (start + (size - 8)) = 0) := by
  subst hm
  by_cases yes : inc
  · simp only [if_pos yes]
    refine ⟨fun x hx => ?_, ?_, fun _ => readWord_writeWord _ _ (by decide)⟩
    · rw [writeWord_of_outside _ (by omega), writeWord_of_outside _ (by omega)]
    · rw [(writeWord_agreeOn _ (b := start + (size - 4)) (n := 4) (by omega)).readWord le_rfl
        le_rfl]
      exact readWord_writeWord _ _ ha
  · simp only [if_neg yes]
    exact ⟨fun x hx => writeWord_of_outside _ (by omega), readWord_writeWord _ _ ha,
      fun h => absurd h yes⟩

/-- From `h` to `h'`, block `⟨p, i⟩` gets the address `a`, and nothing else changes. -/
structure Named (cfg : Config) (c p i a : Nat) (h h' : Heap π) : Prop where
  headers : SameHeaders h h'
  addresses : h'.addresses = h.addresses
  memory : ∀ C, C ≠ ⟨p, i⟩ → (h.view cfg).Placed C →
    AgreeOn h.memory h'.memory ((h.view cfg).start C) ((h.view cfg).size C)
  placed : (h'.view cfg).Placed ⟨p, i⟩
  sc : (h'.view cfg).sc p = c
  back : (h'.view cfg).back ⟨p, i⟩ = a
  part : Incremental cfg (blockSize c) → (h'.view cfg).part ⟨p, i⟩ = 0

omit [LawfulAddressPool π] in
/-- Naming a block of a page that is not free writes into the block only. -/
theorem name_spec {a : Nat} (placed : (h.view cfg).Placed ⟨p, i⟩) (sc : (h.pages p).sc = c)
    (notFree : (h.pages p).listFlags ≠ .free) (ha : a < 4294967296) :
    Named cfg c p i a h (h.name cfg c p i a) := by
  have size : (h.view cfg).size ⟨p, i⟩ = blockSize c := congrArg blockSize sc
  have large := placed.size_ge
  rw [size] at large
  have start : blockStart p i (blockSize c) = (h.view cfg).start ⟨p, i⟩ := by
    rw [View.start, size]
  generalize hh : h.name cfg c p i a = h'
  have fields : h'.pages = h.pages ∧ h'.classes = h.classes ∧ h'.threads = h.threads ∧
      h'.freePageHead = h.freePageHead ∧ h'.addresses = h.addresses := by
    rw [← hh, Heap.name]
    split <;> exact ⟨rfl, rfl, rfl, rfl, rfl⟩
  obtain ⟨pages, classes, threads, head, addresses⟩ := fields
  obtain ⟨outside, backWord, partWord⟩ := namedMemory h.memory ((h.view cfg).start ⟨p, i⟩)
    (blockSize c) (by omega) ha (Incremental cfg (blockSize c)) (show _ = h'.memory by
      rw [← hh, Heap.name, addressField_eq (by omega), partitionField_eq (by omega), start]
      split <;> rfl)
  have same : (h'.view cfg).sc p = (h.view cfg).sc p := by simp only [Heap.view, pages]
  have placed' : (h'.view cfg).Placed ⟨p, i⟩ := placed.congr same
  have size' : (h'.view cfg).size ⟨p, i⟩ = blockSize c := (View.size_congr same).trans size
  have start' : (h'.view cfg).start ⟨p, i⟩ = (h.view cfg).start ⟨p, i⟩ := View.start_congr same
  refine ⟨⟨pages, classes, threads, head, ?_⟩, addresses, fun C ne placedC j hj => ?_, placed',
    same.trans sc, ?_, fun inc => ?_⟩
  · refine (sameHeaders_memory (m := h'.memory) h fun x free => outside x ?_).links
    by_contra inside
    have page := placed.pageOfBlock (x := x) (by omega) (by omega)
    rw [show x / pageSize = p from page] at free
    exact notFree free
  · have apart := placedC.disjoint placed ne
    exact outside _ (by omega)
  · rw [placed'.back_eq, start', size']
    exact backWord
  · rw [placed'.part_eq, start', size']
    exact partWord inc

/-- The pool once the word of the new address is set and the address is out. -/
theorem valid_named {a w : Nat} {out out' : Nat → Prop} {σ : π} (isAa : IsAa cfg a)
    (valid : Valid cfg.toAddressConfig T
      (fun id => out (aaPointer cfg id) ∨ id = (a - cfg.aaSpace) / 4) σ)
    (after : ∀ b, out' b ↔ out b ∨ b = a) :
    Valid cfg.toAddressConfig T (fun id => out' (aaPointer cfg id))
      (setWord ((a - cfg.aaSpace) / 4) w σ) := by
  refine valid_congr (valid_setWord valid (.inr rfl)) fun id => ?_
  rw [after]
  refine or_congr_right ⟨fun eq => ?_, fun eq => ?_⟩
  · rw [← eq, aaPointer_id]
  · rw [eq, isAa.pointer]

omit [LawfulAddressPool π] in
/-- A page that is in use keeps its class when a block is taken. -/
theorem TakenBlock.sc_of_inUse (taken : TakenBlock cfg c p i h h') (ok : HeapOk cfg h) {q : Nat}
    (inUse : (h.view cfg).InUse q) : (h'.pages q).sc = (h.pages q).sc := by
  by_cases page : q = p
  · subst page
    rcases taken.was with free | ⟨_, sc⟩
    · exact absurd free (ok.notFree inUse)
    · rw [taken.sc, sc]
  · rw [taken.pages q page]

/-- The blocks keep their owners when pages that are not in use get another class. -/
theorem Owns.reclass {v : View} {sc : Nat → Nat} (owns : Owns cfg T v live F)
    (same : ∀ q, v.InUse q → sc q = v.sc q) : Owns cfg T { v with sc := sc } live F :=
  owns.congr ⟨same, fun _ _ _ _ => .refl _ _ _⟩ (fun _ => Iff.rfl) (fun _ => rfl)
    (fun _ _ => rfl)

omit [LawfulAddressPool π] in
theorem Named.still {g : Heap π} {a size : Nat} (named : Named cfg c p i a g h')
    (moving : compactionOn cfg) (isAa : IsAa cfg a)
    (used : (h'.pages p).usedPageBlockBitmap.Used i)
    (word : h'.aaWord cfg a = (h'.view cfg).start ⟨p, i⟩) :
    StillOk cfg (h'.view cfg) a (newObj cfg a c size h') ⟨p, i⟩ := by
  refine ⟨used, ⟨named.placed, named.back⟩, ?_, fun j _ _ => ?_, fun inc => ?_, named.sc⟩
  · rw [← word]
    simp only [Heap.view, isAa, if_true]
  · rw [← word]
    simp only [newObj, Heap.pageBlock, moving, if_true]
    rfl
  · refine named.part ?_
    rwa [View.size, named.sc] at inc

/-- The block that `cf_malloc` has taken becomes the block of its new object. -/
theorem Good.alloc (good : Good cfg T h live F) {h2 : Heap π} (moving : compactionOn cfg)
    (hc : c < sizeClasses)
    (taken : TakenBlock cfg c p i h h2) {a size : Nat} (fresh : ¬ Out live F a)
    (isAa : IsAa cfg a) {σ : π}
    (valid : Valid cfg.toAddressConfig T
      (fun id => Out live F (aaPointer cfg id) ∨ id = (a - cfg.aaSpace) / 4) σ)
    (words : ∀ id, Out live F (aaPointer cfg id) → word σ id = word h.addresses id)
    (named : (Heap.setAa cfg a (blockStart p i (blockSize c)) { h2 with addresses := σ }).name
      cfg c p i a = h') : Allocated cfg T c p i a size h2 h' live F := by
  generalize hg : Heap.setAa cfg a (blockStart p i (blockSize c)) { h2 with addresses := σ } = g
    at named
  have pagesG : g.pages = h2.pages := by rw [← hg]; rfl
  have memoryG : g.memory = h.memory := by rw [← hg]; exact taken.memory
  have scG : (g.pages p).sc = c := by rw [pagesG, taken.sc]
  have placed : (g.view cfg).Placed ⟨p, i⟩ :=
    ⟨by simpa only [Heap.view, scG] using hc, by simpa only [Heap.view, scG] using taken.inside⟩
  have made : Named cfg c p i a g h' := by
    rw [← named]
    refine name_spec placed scG ?_ isAa.bounds.2
    rw [pagesG]
    rcases taken.listed with f | f <;> simp [f]
  have pages : h'.pages = h2.pages := made.headers.pages.trans pagesG
  have aaWord : h'.aaWord cfg a = blockStart p i (blockSize c) := by
    rw [Heap.aaWord, made.addresses, ← hg]
    exact word_setWord_same
  have start' : (h'.view cfg).start ⟨p, i⟩ = blockStart p i (blockSize c) := by
    rw [View.start, View.size, made.sc]
  -- in the view of the old heap the page may have another class: then it is not in use
  have owns : Owns cfg T { h.view cfg with sc := (g.view cfg).sc } live F := by
    refine good.owns.reclass fun q use => ?_
    simp only [Heap.view, pagesG]
    exact taken.sc_of_inUse good.heap use
  have keeps : View.Keeps { h.view cfg with sc := (g.view cfg).sc } (h'.view cfg)
      (· = ⟨p, i⟩) := by
    refine ⟨fun q _ => by simp only [Heap.view, made.headers.pages], fun C ne placedC _ => ?_⟩
    have agree := made.memory C ne ⟨placedC.sc, placedC.index⟩
    rw [memoryG] at agree
    exact agree
  have heap : HeapOk cfg h' := by
    refine HeapOk.congr ?_ made.headers
    exact taken.ok.congr (hg ▸ ⟨rfl, rfl, rfl, rfl, fun _ _ => .refl _ _ _⟩)
  have new : StillOk cfg (h'.view cfg) a (newObj cfg a c size h') ⟨p, i⟩ := by
    refine made.still moving isAa ?_ (aaWord.trans start'.symm)
    rw [pages, taken.used]
    exact .inr rfl
  have classes : h'.classes = h2.classes := by rw [made.headers.classes, ← hg]; rfl
  refine ⟨fresh, isAa, aaWord, ⟨heap, ?_, ?_, fun b out => ?_⟩, pages, classes⟩
  · refine owns.alloc ?_ (fun u f hF eq => fresh (.inr ⟨u, f, hF, eq⟩)) keeps taken.unused
      taken.entries.2 (fun C => ?_) (fun q => ?_) (fun b ne out => ?_) new
    · by_contra alive
      exact fresh (.inl alive)
    · simp only [Heap.view, pages]
      exact taken.used_iff C
    · simp only [Heap.view, pages]
      exact field_same Page.sourceentries taken.pages
        (taken.entries.1.trans taken.entries.2.symm) q
    · have isAaB := good.isAa b out
      simp only [Heap.view, isAaB, if_true, Heap.aaWord, made.addresses, ← hg, Heap.setAa]
      rw [word_setWord_other fun eq => ne (isAaB.inj isAa eq)]
      exact words _ (by rw [isAaB.pointer]; exact out)
  · rw [made.addresses, ← hg]
    exact valid_named isAa valid out_alloc
  · rcases (out_alloc b).mp out with out | rfl
    · exact good.isAa b out
    · exact isAa

def requestClass (cfg : Config) (size : Nat) : Nat :=
  getSizeClassIndex cfg.past (adjustedSize cfg size)

/-- Only the lookup of the size `LARGESTSC` leaves the table of the size classes. -/
theorem requestClass_lt (cfg : Config) (size : Nat) :
    requestClass cfg size < sizeClasses ∨ adjustedSize cfg size = largestSc := by
  rcases Nat.lt_trichotomy (adjustedSize cfg size) largestSc with small | eq | large
  · exact .inl (getSizeClassIndex_small cfg.past small).1
  · exact .inr eq
  · refine .inl ?_
    rw [requestClass, getSizeClassIndex_large cfg.past large]
    decide

/-- The ways a call of `cf_malloc` ends: the size lookup leaves its table; no page is
available; the address pool is empty and the block that was taken stays marked; or
the block gets a fresh address. -/
inductive Malloced (cfg : Config) (T t size : Nat) (h : Heap π) (live : Live) (F : Frames) :
    Except Fault (Option Nat × Heap π) → Prop where
  | noClass (hc : ¬ requestClass cfg size < sizeClasses) :
      Malloced cfg T t size h live F (.error .noSizeClass)
  | noPage (hc : requestClass cfg size < sizeClasses)
      (nfull : (h.classes (requestClass cfg size)).lists .nfull = [])
      (free : getFreePage cfg t h = .ok (none, h)) : Malloced cfg T t size h live F (.ok (none, h))
  | noAddress (hc : requestClass cfg size < sizeClasses) {p i : Nat} {h2 : Heap π}
      (page : ∃ g, getNfullPage cfg t (requestClass cfg size) h = .ok (some p, g))
      (taken : TakenBlock cfg (requestClass cfg size) p i h h2)
      (empty : (getFreeAa cfg.toAddressConfig t h.addresses).1 = none) :
      Malloced cfg T t size h live F (.ok (none, h2))
  | named (hc : requestClass cfg size < sizeClasses) {p i a : Nat} {h2 h' : Heap π}
      (taken : TakenBlock cfg (requestClass cfg size) p i h h2)
      (nonempty : (getFreeAa cfg.toAddressConfig t h.addresses).1 ≠ none)
      (allocated : Allocated cfg T (requestClass cfg size) p i a size h2 h' live F) :
      Malloced cfg T t size h live F (.ok (some a, h'))

omit [LawfulAddressPool π] in
theorem cfMalloc_of_noPage {size : Nat} (hc : requestClass cfg size < sizeClasses)
    (page : getNfullPage cfg t (requestClass cfg size) h = .ok (none, h')) :
    cfMalloc cfg t size h = .ok (none, h') := by
  rw [requestClass] at hc page
  simp only [cfMalloc, ensure_true hc, page, ok_bind]
  rfl

omit [LawfulAddressPool π] in
theorem cfMalloc_of_page {size p i : Nat} {h1 : Heap π}
    (hc : requestClass cfg size < sizeClasses)
    (page : getNfullPage cfg t (requestClass cfg size) h = .ok (some p, h1))
    (block : takePageBlock (requestClass cfg size) p h1 = .ok (i, h')) :
    cfMalloc cfg t size h = .ok (nameBlock cfg t (requestClass cfg size) p i h') := by
  rw [requestClass] at hc page block
  simp only [cfMalloc, ensure_true hc, page, ok_bind, block]
  rfl

omit [LawfulAddressPool π] in
theorem nameBlock_some (moving : compactionOn cfg) {id : Nat} {σ : π}
    (get : getFreeAa cfg.toAddressConfig t h.addresses = (some id, σ)) (lt : id < cfg.nrAas) :
    nameBlock cfg t c p i h = (some (aaPointer cfg id),
      (Heap.setAa cfg (aaPointer cfg id) (blockStart p i (blockSize c))
        { h with addresses := σ }).name cfg c p i (aaPointer cfg id)) := by
  simp only [nameBlock, moving, not_true, if_false, getAbstractAddress, get, lt, if_true,
    Heap.name, Heap.setAa, aaPointer_id]

theorem cfMalloc_spec (good : Good cfg T h live F) (ht : t < T) (config : cfg.Compacting)
    (size : Nat) : Malloced cfg T t size h live F (cfMalloc cfg t size h) := by
  have moving : compactionOn cfg := by
    have := config.bound
    simp only [compactionOn]
    omega
  by_cases hc : requestClass cfg size < sizeClasses
  · rcases getNfullPage_spec t good.heap hc with ⟨run, nfull, free⟩ | ⟨p, g, run, page⟩
    · rw [cfMalloc_of_noPage hc run]
      exact .noPage hc nfull free
    · obtain ⟨i, h2, run2, taken⟩ := takePageBlock_spec hc page
      rw [cfMalloc_of_page hc run run2]
      rcases getFreeAa_spec good.valid ht with get | ⟨id, σ, get, fresh, lt, valid, words⟩
      · have name : nameBlock cfg t (requestClass cfg size) p i h2 = (none, h2) := by
          simp only [nameBlock, moving, not_true, if_false, getAbstractAddress, taken.addresses,
            get]
          rw [← taken.addresses]
        rw [name]
        exact .noAddress hc ⟨g, run⟩ taken (by rw [get])
      · rw [nameBlock_some moving (by rw [taken.addresses, get]) lt]
        exact .named hc taken (by rw [get]; simp)
          (good.alloc moving hc taken fresh (isAa_aaPointer lt)
          (by rw [aaPointer_id]; exact valid) words rfl)
  · have none : ¬ getSizeClassIndex cfg.past (adjustedSize cfg size) < sizeClasses := hc
    rw [cfMalloc, ensure, if_neg none]
    exact .noClass hc

end Malloc
end
end CompactFit
