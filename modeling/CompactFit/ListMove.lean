import CompactFit.ListHead

/-!
The calls of `list.h` that hand their arguments on in the wrong order. `list_move` and
`list_move_tail` link the head of a list in beside the entry that they have cut out, and
`list_splice` and `list_splice_init` put the entries of the first list into the second.
-/

namespace CompactFit
namespace ListHead
open Function LinkedRing

/-! ### A node linked in beside one that was cut out -/

section Rings
variable {ν : Type} [DecidableEq ν] {m : Links ν} {head h x : ν} {xs ys : List ν}

omit [DecidableEq ν] in
theorem neighbours_rest (ring : Ring m head (xs ++ x :: ys)) :
    m.prev x ∈ head :: (xs ++ ys) ∧ m.next x ∈ head :: (xs ++ ys) ∧ x ∉ head :: (xs ++ ys) := by
  obtain ⟨last, first⟩ := ring.around
  have before := List.mem_of_getLast? last
  have after := List.mem_of_mem_head? first
  have out := (List.nodup_cons.mp (ring_rotate.mp ring).nodup).1
  simp only [List.mem_cons, List.mem_append, List.not_mem_nil, or_false] at before after out ⊢
  tauto

/-- The head of another list is linked in behind the entry that was cut out. -/
theorem cut_insert_loops (ring : Ring m head (xs ++ x :: ys))
    (out : h ∉ head :: (xs ++ x :: ys)) :
    Loop ((m.cut x).insert h x (m.next x)).next head (xs ++ ys) ∧
      Loop ((m.cut x).insert h x (m.next x)).prev head (ys.reverse ++ h :: x :: xs.reverse) := by
  obtain ⟨before, after, own⟩ := neighbours_rest ring
  have others : ∀ y, y ∈ head :: (xs ++ ys) → y ≠ x ∧ y ≠ h := by
    intro y mem
    refine ⟨fun eq => own (eq ▸ mem), fun eq => out (eq ▸ ?_)⟩
    simp only [List.mem_cons, List.mem_append] at mem ⊢
    tauto
  have apart : h ≠ x := fun eq => out (by simp [eq])
  have nodup : (head :: (xs ++ ys)).Nodup := by
    have inner := (List.nodup_cons.mp (ring_rotate.mp ring).nodup).2
    exact (List.perm_middle.trans (List.perm_append_comm.cons head)).nodup_iff.mp inner
  obtain ⟨beforeX, beforeH⟩ := others _ before
  obtain ⟨afterX, afterH⟩ := others _ after
  constructor
  · have loop : Loop ((m.cut x).insert h x (m.next x)).next head (xs ++ [] ++ ys) := by
      refine ring.detour ?_ (fun y mem ne => ?_) (by rwa [List.append_nil])
      · simp [Links.insert, Links.cut, Links.connect, beforeX, beforeH]
      · simp [Links.insert, Links.cut, Links.connect, ne, others y mem]
    rwa [List.append_nil] at loop
  · have loop : Loop ((m.cut x).insert h x (m.next x)).prev head
        (ys.reverse ++ [h, x] ++ xs.reverse) := by
      refine ring.flip_entry.detour ?_ (fun y mem ne => ?_) ?_
      · simp [Links.insert, Links.cut, Links.connect, Links.flip, afterH, Ne.symm apart,
          Ne.symm afterX]
      · have rest := others y (by simpa [or_comm] using mem)
        change y ≠ m.next x at ne
        simp [Links.insert, Links.cut, Links.connect, Links.flip, ne, rest]
      · have all : (h :: x :: head :: (xs ++ ys)).Nodup := by
          refine List.nodup_cons.mpr ⟨?_, List.nodup_cons.mpr ⟨own, nodup⟩⟩
          simp only [List.mem_cons, List.mem_append] at out ⊢
          tauto
        refine (List.Perm.nodup_iff (List.perm_iff_count.mpr fun z => ?_)).mp all
        simp only [List.count_cons, List.count_append, List.count_reverse, List.count_nil]
        omega
    rwa [List.append_assoc] at loop

theorem cut_insert_head_loops (ring : Ring m head (xs ++ x :: ys)) :
    Loop ((m.cut x).insert head x (m.next x)).next head ys ∧
      Loop ((m.cut x).insert head x (m.next x)).prev head (x :: xs.reverse) := by
  obtain ⟨before, after, own⟩ := neighbours_rest ring
  have near := (ring_rotate.mp ring).nodup
  obtain ⟨_, inner⟩ := List.nodup_cons.mp near
  obtain ⟨nodupY, nodupX, apart⟩ := List.nodup_append.mp inner
  have last := List.mem_of_getLast? ring.around.1
  have first := List.mem_of_mem_head? ring.around.2
  have ne : head ≠ x := fun eq => own (eq ▸ List.mem_cons_self)
  have afterX : m.next x ≠ x := fun eq => own (eq ▸ after)
  constructor
  · have loop : Loop ((m.cut x).insert head x (m.next x)).next head ([] ++ ys) := by
      refine ring.shortcut ?_ (fun y mem => ?_) ?_
      · simp [Links.insert, Links.cut, Links.connect, ne]
      · have away := apart y mem
        have yx : y ≠ x := fun eq => own (by rw [← eq]; simp [mem])
        simp [Links.insert, Links.cut, Links.connect, yx, away head List.mem_cons_self,
          away _ last]
      · exact List.nodup_cons.mpr ⟨fun mem => apart head mem head List.mem_cons_self rfl, nodupY⟩
    exact loop
  · have loop : Loop ((m.cut x).insert head x (m.next x)).prev head ([x] ++ xs.reverse) := by
      refine ring.flip_entry.shortcut ?_ (fun y mem => ?_) ?_
      · simp [Links.insert, Links.cut, Links.connect, Links.flip, Ne.symm ne, Ne.symm afterX]
      · have mem := List.mem_reverse.mp mem
        have yh : y ≠ head := fun eq => (List.nodup_cons.mp nodupX).1 (eq ▸ mem)
        have yb : y ≠ m.next x := by
          rintro rfl
          rcases List.mem_append.mp first with inY | isHead
          · exact apart _ inY _ (List.mem_cons_of_mem _ mem) rfl
          · exact yh (List.mem_singleton.mp isHead)
        simp [Links.insert, Links.cut, Links.connect, Links.flip, yh, yb]
      · have out : x ∉ head :: xs := fun mem => own (by
          simp only [List.mem_cons, List.mem_append] at mem ⊢
          tauto)
        refine (List.Perm.nodup_iff (List.perm_iff_count.mpr fun z => ?_)).mp
          (List.nodup_cons.mpr ⟨out, nodupX⟩)
        simp only [List.count_cons, List.count_append, List.count_reverse, List.count_nil]
        omega
    exact loop

/-- Linked in before the entry is linked in behind it, seen from the other side. -/
theorem cut_insert_flip (apart : h ≠ x) (away : m.prev x ≠ h) :
    ((m.cut x).insert h (m.prev x) x).flip = (m.flip.cut x).insert h x (m.flip.next x) := by
  simp only [Links.insert, Links.cut, Links.connect, Links.flip, Links.setNext, Links.setPrev]
  exact congrArg₂ _ (update_comm (Ne.symm apart) ..) (update_comm (Ne.symm away) ..)

theorem cut_insert_before_loops (ring : Ring m head (xs ++ x :: ys))
    (out : h ∉ head :: (xs ++ x :: ys)) :
    Loop ((m.cut x).insert h (m.prev x) x).next head (xs ++ h :: x :: ys) ∧
      Loop ((m.cut x).insert h (m.prev x) x).prev head (ys.reverse ++ xs.reverse) := by
  have flipped : h ∉ head :: (ys.reverse ++ x :: xs.reverse) := by
    simp only [List.mem_cons, List.mem_append, List.mem_reverse] at out ⊢
    tauto
  have apart : h ≠ x := fun eq => out (by simp [eq])
  have away : m.prev x ≠ h := by
    rintro rfl
    have before := (neighbours_rest ring).1
    simp only [List.mem_cons, List.mem_append] at before out
    tauto
  have loops := cut_insert_loops ring.flip_entry flipped
  rw [← cut_insert_flip apart away, List.reverse_reverse, List.reverse_reverse] at loops
  exact loops.symm

/-- The own head is linked in before the entry that was cut out. Before the first entry the
links are then all its own. -/
theorem cut_insert_before_head_loops (ring : Ring m head (xs ++ x :: ys)) :
    Loop ((m.cut x).insert head (m.prev x) x).next head (if xs = [] then [] else x :: ys) ∧
      Loop ((m.cut x).insert head (m.prev x) x).prev head xs.reverse := by
  have apart : head ≠ x := fun eq => (neighbours_rest ring).2.2 (eq ▸ List.mem_cons_self)
  by_cases none : xs = []
  · subst none
    have first : m.prev x = head := (Option.some.inj ring.around.1).symm
    rw [if_pos rfl, first]
    refine ⟨⟨?_, by simp⟩, ⟨?_, by simp⟩⟩
    · simp [Links.insert]
    · simp [Links.insert]
  · rw [if_neg none]
    have away : m.prev x ≠ head := by
      intro eq
      have last := ring.around.1
      rw [eq] at last
      obtain ⟨y, rest, rfl⟩ := List.exists_cons_of_ne_nil none
      rw [List.getLast?_cons_cons] at last
      have nodup := ring.nodup
      rw [List.nodup_cons, List.mem_append] at nodup
      exact nodup.1 (.inl (List.mem_of_getLast? last))
    have loops := cut_insert_head_loops ring.flip_entry
    rw [← cut_insert_flip apart away, List.reverse_reverse] at loops
    exact loops.symm

end Rings

/-! ### The lists after the calls -/

section Lists
variable {ν : Type} [DecidableEq ν] {κ : Type}

/-- The walk visits the entries of a list, or it has no end. -/
def Visits (walk : Nat → Option (List (Ptr ν))) : Option (List ν) → Prop
  | some xs => ∀ n, xs.length ≤ n → walk n = some (xs.map .node)
  | none => ∀ n, walk n = none

/-- What the two iterations over the list of `head` visit. -/
structure Iterates (m : ListMemory ν) (head : ν) (forth back : Option (List ν)) : Prop where
  forEach : Visits (fun n => listForEach (.node head) n m) forth
  forEachPrev : Visits (fun n => listForEachPrev (.node head) n m) back

/-- The entry `x`, between `xs` and `ys` in list `j`, was moved to list `k` by `list_move`. -/
structure Moved (m' : ListMemory ν) (head : κ → ν) (lists : κ → List ν) (j k : κ) (xs : List ν)
    (x : ν) (ys : List ν) : Prop where
  same : j = k → Iterates m' (head k) (some ys) (some (x :: xs.reverse))
  source : j ≠ k →
    Iterates m' (head j) (some (xs ++ ys)) (some (ys.reverse ++ head k :: x :: xs.reverse))
  target : j ≠ k →
    Iterates m' (head k) none (some (x :: xs.reverse ++ head j :: ys.reverse))
  others : ∀ l, l ≠ j → l ≠ k → Ring m' (.node (head l)) ((lists l).map .node)

/-- The same for `list_move_tail`. -/
structure MovedTail (m' : ListMemory ν) (head : κ → ν) (lists : κ → List ν) (j k : κ)
    (xs : List ν) (x : ν) (ys : List ν) : Prop where
  same : j = k →
    Iterates m' (head k) (some (if xs = [] then [] else x :: ys)) (some xs.reverse)
  source : j ≠ k →
    Iterates m' (head j) (some (xs ++ head k :: x :: ys)) (some (ys.reverse ++ xs.reverse))
  target : j ≠ k → Iterates m' (head k) (some (x :: ys ++ head j :: xs)) none
  others : ∀ l, l ≠ j → l ≠ k → Ring m' (.node (head l)) ((lists l).map .node)

/-- The entries of list `k`, or without entries its head, were put before those of list `j`. -/
structure Spliced (m' : ListMemory ν) (head : κ → ν) (lists : κ → List ν) (j k : κ) : Prop where
  source : Ring m' (.node (head j))
    (((if lists k = [] then [head k] else lists k) ++ lists j).map .node)
  target : lists k ≠ [] → Iterates m' (head k) none none
  others : ∀ l, l ≠ j → l ≠ k → Ring m' (.node (head l)) ((lists l).map .node)

/-- The same, and list `j` was emptied. -/
structure SplicedInit (m' : ListMemory ν) (head : κ → ν) (lists : κ → List ν) (j k : κ) :
    Prop where
  source : Ring m' (.node (head j)) []
  target : Iterates m' (head k) none none
  others : ∀ l, l ≠ j → l ≠ k → Ring m' (.node (head l)) ((lists l).map .node)

variable {m m' : ListMemory ν} {head : κ → ν} {lists : κ → List ν} {j k : κ} {x h : ν}
  {xs ys : List ν}

theorem visits_of_loop {step : Ptr ν → Ptr ν} (loop : Loop step (.node h) (xs.map .node)) :
    Visits (fun n => walk step (.node h) n (step (.node h))) (some xs) :=
  fun _ fuel => loop.walk (by rwa [List.length_map])

omit [DecidableEq ν] in
theorem Represents.ring_at (rep : Represents m head lists) (eq : lists j = xs ++ x :: ys) :
    Ring m (.node (head j)) (xs.map .node ++ .node x :: ys.map .node) := by
  have ring := rep.ring j
  rwa [eq, List.map_append, List.map_cons] at ring

omit [DecidableEq ν] in
theorem Represents.head_out (rep : Represents m head lists) (eq : lists j = xs ++ x :: ys)
    (ne : j ≠ k) :
    Ptr.node (head k) ∉ Ptr.node (head j) :: (xs.map .node ++ .node x :: ys.map .node) := by
  have out := rep.apart k j (Ne.symm ne) _ List.mem_cons_self
  rwa [eq, List.map_append, List.map_cons] at out

omit [DecidableEq ν] in
theorem Represents.entry (rep : Represents m head lists) (eq : lists j = xs ++ x :: ys) :
    ∃ a b, m.prev (.node x) = .node a ∧ m.next (.node x) = .node b ∧ a ≠ x ∧ b ≠ x := by
  have mem : x ∈ lists j := by simp [eq]
  obtain ⟨a, b, prev, next, _⟩ := rep.neighbours (List.mem_cons_of_mem (head j) mem)
  obtain ⟨before, after, own⟩ := neighbours_rest (rep.ring_at eq)
  rw [prev] at before
  rw [next] at after
  refine ⟨a, b, prev, next, ?_, ?_⟩ <;> rintro rfl
  · exact own before
  · exact own after

theorem listMove_run (rep : Represents m head lists) (eq : lists j = xs ++ x :: ys) :
    listMove (.node (head k)) (.node x) m =
      some ((m.cut (.node x)).insert (.node (head k)) (.node x) (m.next (.node x))) := by
  obtain ⟨a, b, prev, next, apart, _⟩ := rep.entry eq
  have kept : (m.connect (.node a) (.node b)).next (.node x) = .node b := by
    simp [Links.connect, next, Ne.symm apart]
  simp only [listMove, loadPrev, loadNext, prev, next, Option.bind_eq_bind, Option.bind_some,
    listDelBetween, storePrev, storeNext, listAdd, Links.cut]
  simp only [Links.connect] at kept
  rw [kept]
  rfl

theorem listMoveTail_run (rep : Represents m head lists) (eq : lists j = xs ++ x :: ys) :
    listMoveTail (.node (head k)) (.node x) m =
      some ((m.cut (.node x)).insert (.node (head k)) (m.prev (.node x)) (.node x)) := by
  obtain ⟨a, b, prev, next, _, apart⟩ := rep.entry eq
  have kept : (m.connect (.node a) (.node b)).prev (.node x) = .node a := by
    simp [Links.connect, prev, Ne.symm apart]
  simp only [listMoveTail, loadPrev, loadNext, prev, next, Option.bind_eq_bind, Option.bind_some,
    listDelBetween, storePrev, storeNext, listAddTail, Links.cut]
  simp only [Links.connect] at kept
  rw [kept]
  rfl

theorem Iterates.of_ring {forth back : Option (List ν)}
    (iterates : Iterates m h forth back) {zs : List (Ptr ν)} (ring : Ring m (.node h) zs) :
    forth.map (List.map .node) = some zs ∧ back.map (List.map .node) = some zs.reverse := by
  have visited : ∀ {step : Ptr ν → Ptr ν} {visits : Option (List ν)} {ws : List (Ptr ν)},
      Loop step (.node h) ws → Visits (fun n => walk step (.node h) n (step (.node h))) visits →
        visits.map (List.map .node) = some ws := by
    intro step visits ws loop visited
    cases visits with
    | none => exact (visited ws.length).symm.trans (loop.walk le_rfl)
    | some xs =>
        have walked := loop.walk (le_max_right xs.length ws.length)
        exact (visited (max xs.length ws.length) (le_max_left ..)).symm.trans walked
  exact ⟨visited ring.forth iterates.forEach, visited ring.back iterates.forEachPrev⟩

/-- Linking a head in beside the entry of another list leaves the other lists alone. -/
theorem Represents.cut_insert_others (rep : Represents m head lists) (eq : lists j = xs ++ x :: ys)
    {p n : Ptr ν} (before : p ∈ Ptr.node (head j) :: (lists j).map .node)
    (after : n ∈ Ptr.node (head j) :: (lists j).map .node) (l : κ) (hj : l ≠ j) (hk : l ≠ k) :
    Ring ((m.cut (.node x)).insert (.node (head k)) p n) (.node (head l))
      ((lists l).map .node) := by
  have mem : Ptr.node x ∈ Ptr.node (head j) :: (lists j).map .node := by simp [eq]
  obtain ⟨next, prev⟩ := (rep.ring j).neighbours mem
  refine (rep.ring l).congr fun y own => ?_
  have away : ∀ z, z ∈ Ptr.node (head j) :: (lists j).map .node → y ≠ z := fun z other same =>
    rep.apart l j hj y own (same ▸ other)
  have apart : y ≠ .node (head k) := by
    rintro rfl
    exact rep.apart l k hk _ own List.mem_cons_self
  have inserted := (m.cut (.node x)).insert_other apart (away p before) (away n after)
  have cut := m.cut_other (away _ prev) (away _ next)
  exact ⟨inserted.1.trans cut.1, inserted.2.trans cut.2⟩

theorem listMove_moved (rep : Represents m head lists) (eq : lists j = xs ++ x :: ys) (k : κ) :
    Moved ((m.cut (.node x)).insert (.node (head k)) (.node x) (m.next (.node x))) head lists j k
      xs x ys := by
  have ring := rep.ring_at eq
  have mem : Ptr.node x ∈ Ptr.node (head j) :: (lists j).map .node := by simp [eq]
  refine ⟨?_, fun ne => ?_, fun ne => ?_, fun l =>
    rep.cut_insert_others eq mem ((rep.ring j).neighbours mem).1 l⟩
  · rintro rfl
    obtain ⟨forth, back⟩ := cut_insert_head_loops ring
    exact ⟨visits_of_loop forth, visits_of_loop (by simpa using back)⟩
  · obtain ⟨forth, back⟩ := cut_insert_loops ring (rep.head_out eq ne)
    exact ⟨visits_of_loop (by simpa using forth), visits_of_loop (by simpa using back)⟩
  · have out := rep.head_out eq ne
    obtain ⟨forth, back⟩ := cut_insert_loops ring out
    refine ⟨fun n => forth.walk_none ?_ (fun mem => out ?_) n,
      visits_of_loop (by simpa using back.rotate)⟩
    · have apart : Ptr.node (head k) ≠ .node x := fun same => out (by simp [same])
      simpa [Links.insert, apart] using (neighbours_rest ring).2.1
    · simp only [List.mem_cons, List.mem_append] at mem ⊢
      tauto

theorem listMoveTail_moved (rep : Represents m head lists) (eq : lists j = xs ++ x :: ys) (k : κ) :
    MovedTail ((m.cut (.node x)).insert (.node (head k)) (m.prev (.node x)) (.node x)) head lists
      j k xs x ys := by
  have ring := rep.ring_at eq
  have mem : Ptr.node x ∈ Ptr.node (head j) :: (lists j).map .node := by simp [eq]
  refine ⟨?_, fun ne => ?_, fun ne => ?_, fun l =>
    rep.cut_insert_others eq ((rep.ring j).neighbours mem).2 mem l⟩
  · rintro rfl
    obtain ⟨forth, back⟩ := cut_insert_before_head_loops ring
    refine ⟨visits_of_loop ?_, visits_of_loop (by simpa using back)⟩
    cases xs <;> simpa using forth
  · obtain ⟨forth, back⟩ := cut_insert_before_loops ring (rep.head_out eq ne)
    exact ⟨visits_of_loop (by simpa using forth), visits_of_loop (by simpa using back)⟩
  · have out := rep.head_out eq ne
    obtain ⟨forth, back⟩ := cut_insert_before_loops ring out
    refine ⟨visits_of_loop (by simpa using forth.rotate),
      fun n => back.walk_none ?_ (fun mem => out ?_) n⟩
    · have apart : Ptr.node (head k) ≠ .node x := fun same => out (by simp [same])
      simpa [Links.insert, apart, or_comm] using (neighbours_rest ring).1
    · simp only [List.mem_cons, List.mem_append, List.mem_reverse] at mem ⊢
      tauto

theorem Moved.not_first (moved : Moved m' head lists j k xs x ys)
    (rep : Represents m head lists) (eq : lists j = xs ++ x :: ys) (zs : List (Ptr ν)) :
    ¬ Ring m' (.node (head k)) (.node x :: zs) := by
  intro ring
  by_cases same : j = k
  · have forth := ((moved.same same).of_ring ring).1
    have mem : Ptr.node x ∈ ys.map Ptr.node := Option.some.inj forth ▸ List.mem_cons_self
    have nodup := (ring_rotate.mp (rep.ring_at eq)).nodup
    exact (List.nodup_cons.mp nodup).1 (List.mem_append_left _ mem)
  · cases ((moved.target same).of_ring ring).1

theorem MovedTail.not_last (moved : MovedTail m' head lists j k xs x ys)
    (rep : Represents m head lists) (eq : lists j = xs ++ x :: ys) (zs : List (Ptr ν)) :
    ¬ Ring m' (.node (head k)) (zs ++ [.node x]) := by
  intro ring
  by_cases same : j = k
  · have back := Option.some.inj ((moved.same same).of_ring ring).2
    have mem : Ptr.node x ∈ xs.reverse.map Ptr.node := by
      rw [back]
      simp
    rw [List.map_reverse, List.mem_reverse] at mem
    have nodup := (ring_rotate.mp (rep.ring_at eq)).nodup
    exact (List.nodup_cons.mp nodup).1
      (List.mem_append_right _ (List.mem_cons_of_mem _ mem))
  · cases ((moved.target same).of_ring ring).2

omit [DecidableEq ν] in
/-- The nodes that `list_splice` puts into list `j`, from the first to the last. -/
theorem Represents.spliced_path (rep : Represents m head lists) (k : κ) :
    let zs := (if lists k = [] then [head k] else lists k).map Ptr.node
    zs.IsChain (Adjacent m) ∧ zs.head? = some (m.next (.node (head k))) ∧
      zs.getLast? = some (m.prev (.node (head k))) ∧ zs.Nodup ∧
        ∀ z, z ∈ zs → z ∈ Ptr.node (head k) :: (lists k).map .node := by
  have ring := rep.ring k
  intro zs
  by_cases none : lists k = []
  · rw [none, List.map_nil] at ring
    obtain ⟨next, prev⟩ := ring_nil.mp ring
    have single : zs = [.node (head k)] := by
      simp only [zs, none, if_true, List.map_cons, List.map_nil]
    rw [single, next, prev]
    exact ⟨.singleton _, rfl, rfl, List.nodup_singleton _, by simp⟩
  · have all : zs = (lists k).map .node := by simp only [zs, if_neg none]
    obtain ⟨y, ys, eq⟩ := List.exists_cons_of_ne_nil none
    have path := ring.path
    rw [List.isChain_cons] at path
    rw [all, ring.next_head, ring.prev_head]
    refine ⟨path.2.left_of_append, ?_, ?_, (List.nodup_cons.mp ring.nodup).2, fun z mem =>
      List.mem_cons_of_mem _ mem⟩
    · simp [eq]
    · rw [List.getLastD_eq_getLast?]
      cases h : ((lists k).map Ptr.node).getLast? with
      | none => simp [eq] at h
      | some z => rfl

omit [DecidableEq ν] in
theorem Represents.head_apart (rep : Represents m head lists) (ne : j ≠ k) :
    Ptr.node (head k) ∉ Ptr.node (head j) :: (lists j).map .node :=
  rep.apart k j (Ne.symm ne) _ List.mem_cons_self

omit [DecidableEq ν] in
theorem Represents.head_not_mem (rep : Represents m head lists) (k : κ) :
    Ptr.node (head k) ∉ (lists k).map Ptr.node := (List.nodup_cons.mp (rep.ring k).nodup).1

theorem Represents.splice_others (rep : Represents m head lists) (j k l : κ) (hj : l ≠ j)
    (hk : l ≠ k) : Ring (m.splice (.node (head j)) (m.next (.node (head k)))
      (m.prev (.node (head k)))) (.node (head l)) ((lists l).map .node) := by
  refine (rep.ring l).congr fun y own => ?_
  have away : ∀ i, l ≠ i → ∀ z, z ∈ Ptr.node (head i) :: (lists i).map .node → y ≠ z :=
    fun i hi z other same => rep.apart l i hi y own (same ▸ other)
  have near := (rep.ring k).neighbours List.mem_cons_self
  exact m.splice_other (away j hj _ List.mem_cons_self) (away k hk _ near.1) (away k hk _ near.2)
    (away j hj _ ((rep.ring j).neighbours List.mem_cons_self).1)

/-- The head whose entries were put into another list is left out of it, and still has its
links into it. -/
theorem Represents.splice_head (rep : Represents m head lists) (ne : j ≠ k)
    (entries : lists k ≠ []) : ∀ s, s = m.splice (.node (head j)) (m.next (.node (head k)))
      (m.prev (.node (head k))) →
        Ptr.node (head k) ∉ Ptr.node (head j) :: (lists k ++ lists j).map .node ∧
        s.next (.node (head k)) ∈ Ptr.node (head j) :: (lists k ++ lists j).map .node ∧
        s.prev (.node (head k)) ∈ Ptr.node (head j) :: (lists k ++ lists j).map .node := by
  rintro s rfl
  have ring := rep.ring k
  have out := rep.head_apart ne
  obtain ⟨_, first, last, _⟩ := rep.spliced_path k
  rw [if_neg entries] at first last
  have inner : (lists k).map Ptr.node ≠ [] := fun none => entries (List.map_eq_nil_iff.mp none)
  have self : Ptr.node (head k) ≠ .node (head j) := fun same => out (same ▸ List.mem_cons_self)
  have after : Ptr.node (head k) ≠ m.next (.node (head j)) := fun same =>
    out (same ▸ ((rep.ring j).neighbours List.mem_cons_self).1)
  have front : Ptr.node (head k) ≠ m.next (.node (head k)) := fun same =>
    inner (ring.next_self_iff.mp same.symm)
  have back : Ptr.node (head k) ≠ m.prev (.node (head k)) := fun same =>
    inner (ring.prev_self_iff.mp same.symm)
  obtain ⟨next, prev⟩ := m.splice_other self front back after
  have mem : ∀ z, z ∈ (lists k).map Ptr.node →
      z ∈ Ptr.node (head j) :: (lists k ++ lists j).map .node := fun z mem => by
    rw [List.map_append]
    simp [mem]
  rw [next, prev]
  refine ⟨?_, mem _ (List.mem_of_mem_head? first), mem _ (List.mem_of_getLast? last)⟩
  have own := rep.head_not_mem k
  rw [List.map_append]
  simp only [List.mem_cons, List.mem_append] at out ⊢
  tauto

theorem splice_spliced (rep : Represents m head lists) (ne : j ≠ k) :
    Spliced (m.splice (.node (head j)) (m.next (.node (head k))) (m.prev (.node (head k)))) head
      lists j k := by
  obtain ⟨path, first, last, nodup, own⟩ := rep.spliced_path k
  have apart : ∀ z, z ∈ (if lists k = [] then [head k] else lists k).map Ptr.node →
      z ∉ Ptr.node (head j) :: (lists j).map .node := fun z mem =>
    rep.apart k j (Ne.symm ne) z (own z mem)
  have source := (rep.ring j).splice path first last nodup apart
  rw [← List.map_append] at source
  refine ⟨source, fun entries => ?_, rep.splice_others j k⟩
  obtain ⟨out, next, prev⟩ := rep.splice_head ne entries _ rfl
  rw [if_neg entries] at source
  rw [List.mem_cons, ← List.mem_reverse, ← List.mem_cons] at prev
  refine ⟨fun n => source.forth.walk_none next out n, fun n => source.back.walk_none prev ?_ n⟩
  rwa [List.mem_cons, List.mem_reverse, ← List.mem_cons]

/-- A node that is linked to itself changes no other one. -/
theorem self_link_other (s : ListMemory ν) {h y : Ptr ν} (hy : y ≠ h) :
    ((s.setNext h h).setPrev h h).next y = s.next y ∧
      ((s.setNext h h).setPrev h h).prev y = s.prev y := by
  simp [hy]

section Emptied
variable {s : ListMemory ν}

/-- A head that was put into a list itself is still linked to it when the list is emptied, and
neither way leads back to it. -/
theorem emptied_lone_loops (rep : Represents m head lists) (ne : j ≠ k) (lone : lists k = [])
    (hs : m.splice (.node (head j)) (m.next (.node (head k))) (m.prev (.node (head k))) = s) :
    Iterates ((s.setNext (.node (head j)) (.node (head j))).setPrev (.node (head j))
      (.node (head j))) (head k) none none := by
  have out := rep.head_apart ne
  have heads : Ptr.node (head k) ≠ .node (head j) := fun same => out (same ▸ List.mem_cons_self)
  have ring := rep.ring k
  rw [lone, List.map_nil] at ring
  obtain ⟨nextK, prevK⟩ := ring_nil.mp ring
  rw [nextK, prevK] at hs
  have first := ((rep.ring j).neighbours List.mem_cons_self).1
  refine ⟨fun n => (rep.ring j).forth.emptied_walk_none (by simp) (fun y own => ?_) ?_ out n,
    fun n => walk_none (p := (· = Ptr.node (head j))) ?_ heads ?_ n⟩
  · have hy : y ≠ Ptr.node (head j) := fun same => rep.head_not_mem j (same ▸ own)
    have hk : y ≠ Ptr.node (head k) := fun same => out (same ▸ List.mem_cons_of_mem _ own)
    rw [(self_link_other s hy).1, ← hs]
    simp [Links.splice, hy, hk]
  · rw [(self_link_other s heads).1, ← hs]
    simpa [Links.splice] using first
  · rintro _ rfl
    simp
  · have after : Ptr.node (head k) ≠ m.next (.node (head j)) := fun same => out (same ▸ first)
    rw [(self_link_other s heads).2, ← hs]
    simp [Links.splice, after]

/-- A head whose entries were put into a list still has links to them when the list is
emptied. -/
theorem emptied_loops (rep : Represents m head lists) (ne : j ≠ k) (entries : lists k ≠ [])
    (hs : m.splice (.node (head j)) (m.next (.node (head k))) (m.prev (.node (head k))) = s) :
    Iterates ((s.setNext (.node (head j)) (.node (head j))).setPrev (.node (head j))
      (.node (head j))) (head k) none none := by
  have out := rep.head_apart ne
  have heads : Ptr.node (head k) ≠ .node (head j) := fun same => out (same ▸ List.mem_cons_self)
  obtain ⟨outAll, nextK, prevK⟩ := rep.splice_head ne entries s hs.symm
  have source := (splice_spliced rep ne).source
  rw [if_neg entries, hs] at source
  have own : Ptr.node (head j) ∉ (lists k ++ lists j).map Ptr.node :=
    (List.nodup_cons.mp source.nodup).1
  rw [← (self_link_other s heads).1] at nextK
  rw [← (self_link_other s heads).2, List.mem_cons, ← List.mem_reverse, ← List.mem_cons] at prevK
  refine ⟨fun n => source.forth.emptied_walk_none (by simp)
      (fun y mem => (self_link_other s ?_).1) nextK outAll n,
    fun n => source.back.emptied_walk_none (by simp)
      (fun y mem => (self_link_other s ?_).2) prevK ?_ n⟩
  · exact fun same => own (same ▸ mem)
  · exact fun same => own (List.mem_reverse.mp (same ▸ mem))
  · rwa [List.mem_cons, List.mem_reverse, ← List.mem_cons]

end Emptied

theorem splice_init (rep : Represents m head lists) (ne : j ≠ k) :
    SplicedInit (((m.splice (.node (head j)) (m.next (.node (head k)))
      (m.prev (.node (head k)))).setNext (.node (head j)) (.node (head j))).setPrev
        (.node (head j)) (.node (head j))) head lists j k := by
  refine ⟨ring_nil.mpr (by simp), ?_, fun l hj hk => ?_⟩
  · by_cases entries : lists k = []
    · exact emptied_lone_loops rep ne entries rfl
    · exact emptied_loops rep ne entries rfl
  · refine ((splice_spliced rep ne).others l hj hk).congr fun y own => self_link_other _ ?_
    rintro rfl
    exact rep.apart j l (Ne.symm hj) _ List.mem_cons_self own

theorem Spliced.not_ring (spliced : Spliced m' head lists j k) :
    ¬ Ring m' (.node (head k)) ((lists j ++ lists k).map .node) := by
  intro ring
  by_cases entries : lists k = []
  · have source := spliced.source
    rw [if_pos entries, List.singleton_append, List.map_cons] at source
    have all := (ring_rotate.mp (show Ring m' _ ([] ++ _) from source)).unique ring
    rw [entries, List.append_nil] at all
    have length := congrArg List.length all
    simp at length
  · cases ((spliced.target entries).of_ring ring).1

theorem SplicedInit.not_ring (spliced : SplicedInit m' head lists j k) :
    ¬ Ring m' (.node (head k)) ((lists j ++ lists k).map .node) := by
  intro ring
  cases (spliced.target.of_ring ring).1

/-- `__list_splice`, called with the second list first. -/
theorem listSpliceAt_run (rep : Represents m head lists) (j k : κ) :
    listSpliceAt (.node (head j)) (.node (head k)) m =
      some (m.splice (.node (head j)) (m.next (.node (head k))) (m.prev (.node (head k)))) := by
  obtain ⟨_, _, prev, next, _⟩ := rep.neighbours (k := k) List.mem_cons_self
  obtain ⟨_, _, _, first, _⟩ := rep.neighbours (k := j) List.mem_cons_self
  simp only [listSpliceAt, loadNext, loadPrev, next, prev, first, Links.splice]
  rfl

/-- The calls of `list.h` that hand their arguments on in the wrong order. A moved entry is never
the first (with `list_move_tail`, the last) of its new list, and one list is spliced into another
only if it is empty. -/
theorem swapped_calls (rep : Represents m head lists) (j k : κ) :
    (∀ xs x ys, lists j = xs ++ x :: ys →
      (∃ m', listMove (.node (head k)) (.node x) m = some m' ∧
        Moved m' head lists j k xs x ys ∧ ∀ zs, ¬ Ring m' (.node (head k)) (.node x :: zs)) ∧
      ∃ m', listMoveTail (.node (head k)) (.node x) m = some m' ∧
        MovedTail m' head lists j k xs x ys ∧
          ∀ zs, ¬ Ring m' (.node (head k)) (zs ++ [.node x])) ∧
    (j ≠ k →
      (∃ m', listSplice (.node (head k)) (.node (head j)) m = some m' ∧
        (lists j = [] → m' = m) ∧ (lists j ≠ [] → Spliced m' head lists j k) ∧
        (Ring m' (.node (head k)) ((lists j ++ lists k).map .node) ↔ lists j = [])) ∧
      ∃ m', listSpliceInit (.node (head k)) (.node (head j)) m = some m' ∧
        (lists j = [] → m' = m) ∧ (lists j ≠ [] → SplicedInit m' head lists j k) ∧
        (Ring m' (.node (head k)) ((lists j ++ lists k).map .node) ↔ lists j = [])) := by
  refine ⟨fun xs x ys eq => ⟨?_, ?_⟩, fun ne => ?_⟩
  · have moved := listMove_moved rep eq k
    exact ⟨_, listMove_run rep eq, moved, moved.not_first rep eq⟩
  · have moved := listMoveTail_moved rep eq k
    exact ⟨_, listMoveTail_run rep eq, moved, moved.not_last rep eq⟩
  · have empty := listEmpty_spec rep j
    by_cases none : lists j = []
    · rw [none] at empty
      have kept : Ring m (.node (head k)) ((lists j ++ lists k).map .node) := by
        rw [none]
        exact rep.ring k
      exact ⟨⟨m, by simp [listSplice, empty], fun _ => rfl, absurd none, iff_of_true kept none⟩,
        m, by simp [listSpliceInit, empty], fun _ => rfl, absurd none, iff_of_true kept none⟩
    · rw [decide_eq_false none] at empty
      have run := listSpliceAt_run rep j k
      have spliced := splice_spliced rep ne
      have emptied := splice_init rep ne
      refine ⟨⟨_, by simp [listSplice, empty, run], fun eq => absurd eq none, fun _ => spliced,
        iff_of_false spliced.not_ring none⟩, _, ?_, fun eq => absurd eq none, fun _ => emptied,
        iff_of_false emptied.not_ring none⟩
      simp only [listSpliceInit, empty, run]
      rfl

/-- Of the lists `[5, 6]` and `[7, 8]`, 5 is moved to the second: both iterations over the first
list still end, the backward one by way of the second head, and over the second list only the
backward one does. -/
theorem swapped_calls_move : ∃ m m' : ListMemory Nat,
    Represents m (fun k : Bool => if k then 1 else 0) (fun k => if k then [7, 8] else [5, 6]) ∧
    listMove (.node 1) (.node 5) m = some m' ∧ Iterates m' 0 (some [6]) (some [6, 1, 5]) ∧
    Iterates m' 1 none (some [5, 0, 6]) := by
  obtain ⟨m, rep⟩ := listCalls_four
  obtain ⟨m', run, moved, _⟩ := ((swapped_calls rep false true).1 [] 5 [6] rfl).1
  exact ⟨m, m', rep, run, moved.source (by decide), moved.target (by decide)⟩

end Lists
end ListHead
end CompactFit
