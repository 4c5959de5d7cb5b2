import CompactFit.Library.LinkedRing

/-!
The intrusive lists of `list.h`. A pointer is the address of a `list_head` or one of
the poison values that `list_del` leaves behind; `none` is an access through a poison
value, which faults. Heads and entries are nodes of one memory, and `Represents` says
that the heads `head k` have the lists `lists k` in it.
-/

namespace CompactFit
open Function LinkedRing

inductive Ptr (ν : Type) where
  | node (x : ν)
  | poison1
  | poison2
deriving DecidableEq

theorem Ptr.node_injective {ν : Type} : Injective (Ptr.node (ν := ν)) := fun _ _ eq => by
  cases eq
  rfl

/-- The `next` and `prev` fields of all nodes. -/
abbrev ListMemory (ν : Type) := Links (Ptr ν)

namespace ListHead
variable {ν : Type} [DecidableEq ν]

def loadNext (m : ListMemory ν) : Ptr ν → Option (Ptr ν)
  | .node x => some (m.next (.node x))
  | _ => none

def loadPrev (m : ListMemory ν) : Ptr ν → Option (Ptr ν)
  | .node x => some (m.prev (.node x))
  | _ => none

def storeNext (p q : Ptr ν) (m : ListMemory ν) : Option (ListMemory ν) :=
  match p with
  | .node x => some (m.setNext (.node x) q)
  | _ => none

def storePrev (p q : Ptr ν) (m : ListMemory ν) : Option (ListMemory ν) :=
  match p with
  | .node x => some (m.setPrev (.node x) q)
  | _ => none

def initListHead (p : Ptr ν) (m : ListMemory ν) : Option (ListMemory ν) := do
  let m ← storeNext p p m
  storePrev p p m

/-- `__list_add`. -/
def listAddBetween (new prev next : Ptr ν) (m : ListMemory ν) : Option (ListMemory ν) := do
  let m ← storePrev next new m
  let m ← storeNext new next m
  let m ← storePrev new prev m
  storeNext prev new m

def listAdd (head new : Ptr ν) (m : ListMemory ν) : Option (ListMemory ν) := do
  listAddBetween new head (← loadNext m head) m

def listAddTail (head new : Ptr ν) (m : ListMemory ν) : Option (ListMemory ν) := do
  listAddBetween new (← loadPrev m head) head m

/-- `__list_del`. -/
def listDelBetween (prev next : Ptr ν) (m : ListMemory ν) : Option (ListMemory ν) := do
  let m ← storePrev next prev m
  storeNext prev next m

def listDel (entry : Ptr ν) (m : ListMemory ν) : Option (ListMemory ν) := do
  let m ← listDelBetween (← loadPrev m entry) (← loadNext m entry) m
  let m ← storeNext entry .poison1 m
  storePrev entry .poison2 m

def listDelInit (entry : Ptr ν) (m : ListMemory ν) : Option (ListMemory ν) := do
  let m ← listDelBetween (← loadPrev m entry) (← loadNext m entry) m
  initListHead entry m

/-- `list_move`; it hands its arguments to `list_add` in the other order. -/
def listMove (head list : Ptr ν) (m : ListMemory ν) : Option (ListMemory ν) := do
  let m ← listDelBetween (← loadPrev m list) (← loadNext m list) m
  listAdd list head m

def listMoveTail (head list : Ptr ν) (m : ListMemory ν) : Option (ListMemory ν) := do
  let m ← listDelBetween (← loadPrev m list) (← loadNext m list) m
  listAddTail list head m

def listEmpty (head : Ptr ν) (m : ListMemory ν) : Option Bool := do
  return decide ((← loadNext m head) = head)

/-- `__list_splice`. -/
def listSpliceAt (head list : Ptr ν) (m : ListMemory ν) : Option (ListMemory ν) := do
  let first ← loadNext m list
  let last ← loadPrev m list
  let at' ← loadNext m head
  let m ← storePrev first head m
  let m ← storeNext head first m
  let m ← storeNext last at' m
  storePrev at' last m

/-- `list_splice`; it hands its arguments to `__list_splice` in the other order. -/
def listSplice (head list : Ptr ν) (m : ListMemory ν) : Option (ListMemory ν) := do
  if ← listEmpty list m then return m
  else listSpliceAt list head m

def listSpliceInit (head list : Ptr ν) (m : ListMemory ν) : Option (ListMemory ν) := do
  if ← listEmpty list m then return m
  else
    let m ← listSpliceAt list head m
    initListHead list m

/-- The nodes `list_for_each` visits; `none` if there are more than the fuel. -/
def listForEach (head : Ptr ν) (fuel : Nat) (m : ListMemory ν) : Option (List (Ptr ν)) :=
  walk m.next head fuel (m.next head)

/-- The nodes `list_for_each_prev` visits. -/
def listForEachPrev (head : Ptr ν) (fuel : Nat) (m : ListMemory ν) : Option (List (Ptr ν)) :=
  walk m.prev head fuel (m.prev head)

section Represents
variable {κ : Type}

omit [DecidableEq ν] in
/-- In the memory `m` the heads `head k` have the lists `lists k`. -/
def Represents (m : ListMemory ν) (head : κ → ν) (lists : κ → List ν) : Prop :=
  Rings m (fun k => .node (head k)) fun k => (lists k).map .node

variable {m : ListMemory ν} {head : κ → ν} {lists : κ → List ν} {k : κ} {x : ν}

omit [DecidableEq ν] in
theorem mem_nodes {xs : List ν} {h : ν} :
    Ptr.node x ∈ Ptr.node h :: xs.map Ptr.node ↔ x ∈ h :: xs := by
  rw [← List.map_cons, List.mem_map_of_injective Ptr.node_injective]

omit [DecidableEq ν] in
theorem poison_not_mem {xs : List ν} {h : ν} {p : Ptr ν} (poison : p = .poison1 ∨ p = .poison2) :
    p ∉ Ptr.node h :: xs.map Ptr.node := by
  rcases poison with rfl | rfl <;> simp

omit [DecidableEq ν] in
/-- The neighbours of a node in a list are nodes. -/
theorem Represents.neighbours (rep : Represents m head lists) (mem : x ∈ head k :: lists k) :
    ∃ a b, m.prev (.node x) = .node a ∧ m.next (.node x) = .node b ∧
      a ∈ head k :: lists k ∧ b ∈ head k :: lists k := by
  obtain ⟨next, prev⟩ := (rep.ring k).neighbours (mem_nodes.mpr mem)
  cases hp : m.prev (.node x) with
  | node a =>
      cases hn : m.next (.node x) with
      | node b =>
          rw [hp] at prev
          rw [hn] at next
          exact ⟨a, b, rfl, rfl, mem_nodes.mp prev, mem_nodes.mp next⟩
      | poison1 | poison2 =>
          rw [hn] at next
          exact absurd next (poison_not_mem (by simp))
  | poison1 | poison2 =>
      rw [hp] at prev
      exact absurd prev (poison_not_mem (by simp))

omit [DecidableEq ν] in
theorem map_update [DecidableEq κ] (ys : List ν) :
    (fun l => (update lists k ys l).map Ptr.node) =
      update (fun l => (lists l).map Ptr.node) k (ys.map Ptr.node) := by
  funext l
  by_cases hl : l = k
  · subst hl
    simp only [update_self]
  · simp only [update_of_ne hl]

omit [DecidableEq ν] in
theorem Represents.fresh (fresh : ∀ l, x ∉ head l :: lists l) (l : κ) :
    Ptr.node x ∉ Ptr.node (head l) :: (lists l).map Ptr.node :=
  fun mem => fresh l (mem_nodes.mp mem)

/-- `list_add` puts an entry of no list first. -/
theorem listAdd_spec [DecidableEq κ] (rep : Represents m head lists)
    (fresh : ∀ l, x ∉ head l :: lists l) : ∃ m', listAdd (.node (head k)) (.node x) m = some m' ∧
      Represents m' head (update lists k (x :: lists k)) := by
  obtain ⟨_, n, _, next, _⟩ := rep.neighbours (k := k) List.mem_cons_self
  refine ⟨m.insert (.node x) (.node (head k)) (.node n), ?_, ?_⟩
  · simp only [listAdd, loadNext, next]
    rfl
  · have added := rep.insert_front (k := k) (Represents.fresh fresh)
    rw [next] at added
    rw [Represents, map_update]
    exact added

/-- `list_add_tail` puts an entry of no list last. -/
theorem listAddTail_spec [DecidableEq κ] (rep : Represents m head lists)
    (fresh : ∀ l, x ∉ head l :: lists l) :
    ∃ m', listAddTail (.node (head k)) (.node x) m = some m' ∧
      Represents m' head (update lists k (lists k ++ [x])) := by
  obtain ⟨p, _, prev, _⟩ := rep.neighbours (k := k) List.mem_cons_self
  refine ⟨m.insert (.node x) (.node p) (.node (head k)), ?_, ?_⟩
  · simp only [listAddTail, loadPrev, prev]
    rfl
  · have added := rep.insert_back (k := k) (Represents.fresh fresh)
    rw [prev] at added
    rw [Represents, map_update, List.map_append]
    exact added

/-- Unlinking an entry takes it out of its list; then the entry is in no list. -/
theorem unlink_spec [DecidableEq κ] (rep : Represents m head lists) (mem : x ∈ lists k) :
    ∃ a b m', loadPrev m (.node x) = some a ∧ loadNext m (.node x) = some b ∧
      listDelBetween a b m = some m' ∧ Represents m' head (update lists k ((lists k).erase x)) ∧
      ∀ l, x ∉ head l :: update lists k ((lists k).erase x) l := by
  obtain ⟨a, b, prev, next, _⟩ := rep.neighbours (List.mem_cons_of_mem (head k) mem)
  obtain ⟨xs, ys, out, eq, erased⟩ := List.exists_erase_eq mem
  have cutAt : (lists k).map Ptr.node = xs.map Ptr.node ++ Ptr.node x :: ys.map Ptr.node := by
    rw [eq, List.map_append, List.map_cons]
  have cut := rep.cut cutAt
  have gone := rep.cut_fresh cutAt
  rw [← List.map_append, ← erased, ← map_update] at cut gone
  refine ⟨.node a, .node b, m.connect (.node a) (.node b), congrArg some prev,
    congrArg some next, rfl, ?_, fun l mem => gone l (mem_nodes.mpr mem)⟩
  rwa [Links.cut, prev, next] at cut

omit [DecidableEq ν] in
/-- The links of a node in no list do not matter. -/
theorem Represents.congr {m' : ListMemory ν} (rep : Represents m head lists)
    (out : ∀ l, x ∉ head l :: lists l)
    (agree : ∀ p, p ≠ Ptr.node x → m'.next p = m.next p ∧ m'.prev p = m.prev p) :
    Represents m' head lists :=
  Rings.congr rep fun l p mem => agree p fun eq => Represents.fresh out l (eq ▸ mem)

/-- `list_del` takes an entry out of its list and leaves poison in it. -/
theorem listDel_spec [DecidableEq κ] (rep : Represents m head lists) (mem : x ∈ lists k) :
    ∃ m', listDel (.node x) m = some m' ∧
      Represents m' head (update lists k ((lists k).erase x)) ∧
      (∀ l, x ∉ head l :: update lists k ((lists k).erase x) l) ∧
      m'.next (.node x) = .poison1 ∧ m'.prev (.node x) = .poison2 := by
  obtain ⟨a, b, m1, prev, next, unlinked, rep1, out⟩ := unlink_spec rep mem
  refine ⟨(m1.setNext (.node x) .poison1).setPrev (.node x) .poison2, ?_,
    rep1.congr out fun p ne => ?_, out, ?_, ?_⟩
  · simp only [listDel, prev, next, Option.bind_eq_bind, Option.bind_some, unlinked]
    rfl
  · simp [ne]
  · simp
  · simp

/-- `list_del_init` takes an entry out of its list and makes it an empty list. -/
theorem listDelInit_spec [DecidableEq κ] (rep : Represents m head lists) (mem : x ∈ lists k) :
    ∃ m', listDelInit (.node x) m = some m' ∧
      Represents m' head (update lists k ((lists k).erase x)) ∧
      Ring m' (.node x) [] := by
  obtain ⟨a, b, m1, prev, next, unlinked, rep1, out⟩ := unlink_spec rep mem
  refine ⟨(m1.setNext (.node x) (.node x)).setPrev (.node x) (.node x), ?_,
    rep1.congr out fun p ne => ?_, ring_nil.mpr ?_⟩
  · simp only [listDelInit, prev, next, Option.bind_eq_bind, Option.bind_some, unlinked]
    rfl
  · simp [ne]
  · simp

theorem listEmpty_spec (rep : Represents m head lists) (k : κ) :
    listEmpty (.node (head k)) m = some (decide (lists k = [])) := by
  have self := (rep.ring k).next_self_iff
  rw [List.map_eq_nil_iff] at self
  exact congrArg some (decide_eq_decide.mpr self)

/-! ### Runs -/

inductive ListCall (κ ν : Type) where
  | add (k : κ) (x : ν)
  | addTail (k : κ) (x : ν)
  | del (x : ν)
  | delInit (x : ν)

def ListCall.run (head : κ → ν) : ListCall κ ν → ListMemory ν → Option (ListMemory ν)
  | .add k x => listAdd (.node (head k)) (.node x)
  | .addTail k x => listAddTail (.node (head k)) (.node x)
  | .del x => listDel (.node x)
  | .delInit x => listDelInit (.node x)

/-- The lists before and after a call that keeps to the rules: an entry is added only
while it is in no list, and deleted only while it is in one. -/
inductive ListCall.Step [DecidableEq κ] (head : κ → ν) :
    (κ → List ν) → ListCall κ ν → (κ → List ν) → Prop where
  | add {lists : κ → List ν} {k : κ} {x : ν} (fresh : ∀ l, x ∉ head l :: lists l) :
      Step head lists (.add k x) (update lists k (x :: lists k))
  | addTail {lists : κ → List ν} {k : κ} {x : ν} (fresh : ∀ l, x ∉ head l :: lists l) :
      Step head lists (.addTail k x) (update lists k (lists k ++ [x]))
  | del {lists : κ → List ν} {k : κ} {x : ν} (mem : x ∈ lists k) :
      Step head lists (.del x) (update lists k ((lists k).erase x))
  | delInit {lists : κ → List ν} {k : κ} {x : ν} (mem : x ∈ lists k) :
      Step head lists (.delInit x) (update lists k ((lists k).erase x))

theorem ListCall.Step.simulated [DecidableEq κ] {lists' : κ → List ν} {call : ListCall κ ν}
    (step : ListCall.Step head lists call lists') (rep : Represents m head lists) :
    ∃ m', call.run head m = some m' ∧ Represents m' head lists' := by
  cases step with
  | add fresh => exact listAdd_spec rep fresh
  | addTail fresh => exact listAddTail_spec rep fresh
  | del mem =>
      obtain ⟨m', run, rep', _⟩ := listDel_spec rep mem
      exact ⟨m', run, rep'⟩
  | delInit mem =>
      obtain ⟨m', run, rep', _⟩ := listDelInit_spec rep mem
      exact ⟨m', run, rep'⟩

/-- The lists that a sequence of calls makes of `start`. -/
inductive ListCall.Run [DecidableEq κ] (head : κ → ν) (start : κ → List ν) :
    List (ListCall κ ν) → (κ → List ν) → Prop where
  | init : Run head start [] start
  | step {calls : List (ListCall κ ν)} {call : ListCall κ ν} {lists lists' : κ → List ν} :
      Run head start calls lists → Step head lists call lists' →
        Run head start (calls ++ [call]) lists'

omit [DecidableEq ν] in
/-- Heads after `INIT_LIST_HEAD` are empty lists. -/
theorem represents_init (apart : Injective head)
    (self : ∀ k, m.next (.node (head k)) = .node (head k) ∧
      m.prev (.node (head k)) = .node (head k)) : Represents m head fun _ => [] := by
  refine ⟨fun k => ring_nil.mpr (self k), fun k l ne p mem mem' => ne (apart ?_)⟩
  simp only [List.map_nil, List.mem_singleton] at mem mem'
  exact Ptr.node_injective (mem.symm.trans mem')

theorem ListCall.Run.represents [DecidableEq κ] {start : κ → List ν} {calls : List (ListCall κ ν)}
    (run : ListCall.Run head start calls lists) (rep : Represents m head start) :
    ∃ m', calls.foldlM (fun m call => call.run head m) m = some m' ∧
      Represents m' head lists := by
  induction run with
  | init => exact ⟨m, rfl, rep⟩
  | step _ step ih =>
      obtain ⟨m1, run, rep1⟩ := ih
      obtain ⟨m2, call, rep2⟩ := step.simulated rep1
      refine ⟨m2, ?_, rep2⟩
      rw [List.foldlM_append, run]
      simp [call]

/-- What the readers of a list find in the memory. -/
structure Reads (m : ListMemory ν) (head : ν) (xs : List ν) : Prop where
  empty : listEmpty (.node head) m = some (decide (xs = []))
  first : loadNext m (.node head) = some (.node (xs.headD head))
  last : loadPrev m (.node head) = some (.node (xs.getLastD head))
  forEach : ∀ n, xs.length ≤ n → listForEach (.node head) n m = some (xs.map .node)
  forEachPrev : ∀ n, xs.length ≤ n →
    listForEachPrev (.node head) n m = some (xs.reverse.map .node)

theorem Represents.reads (rep : Represents m head lists) (k : κ) : Reads m (head k) (lists k) := by
  have ring := rep.ring k
  refine ⟨listEmpty_spec rep k, congrArg some ?_, congrArg some ?_, fun n fuel => ?_,
    fun n fuel => ?_⟩
  · rw [ring.next_head]
    cases lists k <;> rfl
  · rw [ring.prev_head, List.getLastD_eq_getLast?, List.getLast?_map, List.getLastD_eq_getLast?]
    cases (lists k).getLast? <;> rfl
  · exact ring.forth.walk (by rwa [List.length_map])
  · rw [List.map_reverse]
    exact ring.back.walk (by rwa [List.length_reverse, List.length_map])

/-- On any family of lists every sequence of `list_add`, `list_add_tail`, `list_del` and
`list_del_init` that keeps to the rules runs without touching poison and leaves the lists it
should, and then emptiness, first and last entry and both iterations are those of the lists. -/
theorem list_calls_faithful [DecidableEq κ] (head : κ → ν) (m : ListMemory ν)
    (start : κ → List ν) (rep : Represents m head start) (calls : List (ListCall κ ν))
    (lists : κ → List ν) (run : ListCall.Run head start calls lists) :
    ∃ m', calls.foldlM (fun m call => call.run head m) m = some m' ∧
      Represents m' head lists ∧ ∀ k, Reads m' (head k) (lists k) := by
  obtain ⟨m', calls, rep⟩ := run.represents rep
  exact ⟨m', calls, rep, rep.reads⟩

/-- Two lists with two entries each, made by four calls. -/
theorem listCalls_four : ∃ m : ListMemory Nat, Represents m (fun k : Bool => if k then 1 else 0)
    fun k => if k then [7, 8] else [5, 6] := by
  have heads : Injective fun k : Bool => if k then 1 else 0 := by decide
  have init : Represents ({ next := id, prev := id } : ListMemory Nat)
      (fun k : Bool => if k then 1 else 0) fun _ => [] := represents_init heads fun _ => ⟨rfl, rfl⟩
  have none : ListCall.Run (fun k : Bool => if k then 1 else 0) (fun _ => ([] : List Nat)) []
      fun _ => [] := .init
  have run := (((none.step (.addTail (k := false) (x := 5) (by decide))).step
    (.addTail (k := false) (x := 6) (by decide))).step
    (.addTail (k := true) (x := 7) (by decide))).step (.addTail (k := true) (x := 8) (by decide))
  obtain ⟨m, _, rep⟩ := run.represents init
  refine ⟨m, ?_⟩
  convert rep using 1
  funext k
  cases k <;> rfl

/-- An entry of the first of two lists is deleted and put first in the second. -/
theorem list_calls_faithful_two : ∃ m m' : ListMemory Nat,
    Represents m (fun k : Bool => if k then 1 else 0) (fun k => if k then [7, 8] else [5, 6]) ∧
    [ListCall.del 5, .add true 5].foldlM
      (fun m call => call.run (fun k : Bool => if k then 1 else 0) m) m = some m' ∧
    ∀ k : Bool, Reads m' (if k then 1 else 0) (if k then [5, 7, 8] else [6]) := by
  obtain ⟨m, rep⟩ := listCalls_four
  obtain ⟨m', run, _, reads⟩ := list_calls_faithful (fun k : Bool => if k then 1 else 0) m _ rep
    _ _ ((ListCall.Run.init.step (.del (k := false) (x := 5) (by decide))).step
      (.add (k := true) (x := 5) (by decide)))
  refine ⟨m, m', rep, run, fun k => ?_⟩
  have read := reads k
  cases k <;> exact read

end Represents
end ListHead
end CompactFit
