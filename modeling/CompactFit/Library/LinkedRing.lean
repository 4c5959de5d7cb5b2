import Mathlib.Data.List.Cycle
import Mathlib.Logic.Function.Basic

/-!
Circular doubly linked lists threaded through the nodes themselves. A list has a
head node, and its entries and the head form one ring in which `next` and `prev`
agree. The lemmas say how linking a node in and cutting one out change a ring, and
that rings without a common node do not disturb each other.
-/

namespace LinkedRing
open Function

/-- The two links of every node. -/
structure Links (ν : Type) where
  next : ν → ν
  prev : ν → ν

variable {ν : Type}

/-- `y` comes after `x`, in both directions. -/
def Adjacent (m : Links ν) (x y : ν) : Prop := m.next x = y ∧ m.prev y = x

/-- The list of `head` has the entries `xs`. -/
structure Ring (m : Links ν) (head : ν) (xs : List ν) : Prop where
  chain : ((head :: xs : List ν) : Cycle ν).Chain (Adjacent m)
  nodup : (head :: xs).Nodup

namespace Links
variable [DecidableEq ν]

def setNext (m : Links ν) (x y : ν) : Links ν := { m with next := update m.next x y }

def setPrev (m : Links ν) (x y : ν) : Links ν := { m with prev := update m.prev x y }

@[simp] theorem setNext_next (m : Links ν) (x y : ν) : (m.setNext x y).next = update m.next x y :=
  rfl

@[simp] theorem setNext_prev (m : Links ν) (x y : ν) : (m.setNext x y).prev = m.prev := rfl

@[simp] theorem setPrev_prev (m : Links ν) (x y : ν) : (m.setPrev x y).prev = update m.prev x y :=
  rfl

@[simp] theorem setPrev_next (m : Links ν) (x y : ν) : (m.setPrev x y).next = m.next := rfl

def connect (m : Links ν) (x y : ν) : Links ν := (m.setPrev y x).setNext x y

def insert (m : Links ν) (x prev next : ν) : Links ν :=
  (((m.setPrev next x).setNext x next).setPrev x prev).setNext prev x

/-- Put the nodes from `first` to `last` in after `head`. -/
def splice (m : Links ν) (head first last : ν) : Links ν :=
  (((m.setPrev first head).setNext head first).setNext last (m.next head)).setPrev
    (m.next head) last

/-- Cut `x` out from between its neighbours. -/
def cut (m : Links ν) (x : ν) : Links ν := m.connect (m.prev x) (m.next x)

theorem connect_next_other (m : Links ν) {x y z : ν} (ne : z ≠ x) :
    (m.connect x y).next z = m.next z := update_of_ne ne _ _

theorem connect_prev_other (m : Links ν) {x y z : ν} (ne : z ≠ y) :
    (m.connect x y).prev z = m.prev z := update_of_ne ne _ _

end Links

/-! ### Paths -/

/-- A path reads `next` of its nodes but the last and `prev` of its nodes but the first. -/
theorem path_congr {m m' : Links ν} {l : List ν} (path : l.IsChain (Adjacent m))
    (next : ∀ x, x ∈ l.dropLast → m'.next x = m.next x)
    (prev : ∀ x, x ∈ l.tail → m'.prev x = m.prev x) : l.IsChain (Adjacent m') := by
  induction l with
  | nil => exact .nil
  | cons x l ih =>
      cases l with
      | nil => exact .singleton _
      | cons y l =>
          rw [List.isChain_cons_cons] at path ⊢
          obtain ⟨⟨forth, back⟩, path⟩ := path
          refine ⟨⟨?_, ?_⟩, ih path (fun z hz => next z ?_) fun z hz => prev z ?_⟩
          · rw [next x List.mem_cons_self, forth]
          · rw [prev y List.mem_cons_self, back]
          · exact List.mem_cons_of_mem _ hz
          · exact List.mem_cons_of_mem _ hz

section Ring
variable {m m' : Links ν} {head x : ν} {xs ys : List ν}

theorem Ring.path (ring : Ring m head xs) : (head :: (xs ++ [head])).IsChain (Adjacent m) :=
  (Cycle.chain_coe_cons ..).mp ring.chain

/-- A ring depends on the links of its own nodes only. -/
theorem Ring.congr (ring : Ring m head xs)
    (agree : ∀ x, x ∈ head :: xs → m'.next x = m.next x ∧ m'.prev x = m.prev x) :
    Ring m' head xs := by
  refine ⟨(Cycle.chain_coe_cons ..).mpr (path_congr ring.path (fun x hx => ?_) fun x hx => ?_),
    ring.nodup⟩
  · rw [← List.cons_append, List.dropLast_concat] at hx
    exact (agree x hx).1
  · exact (agree x ((List.perm_append_singleton head xs).mem_iff.mp hx)).2

/-- Any node of a ring can be taken for its head. -/
theorem ring_rotate : Ring m head (xs ++ x :: ys) ↔ Ring m x (ys ++ head :: xs) := by
  have rotated : head :: (xs ++ x :: ys) ~r x :: (ys ++ head :: xs) := by
    rw [← List.cons_append, ← List.cons_append]
    exact List.isRotated_append
  exact ⟨fun ring => ⟨Cycle.coe_eq_coe.mpr rotated ▸ ring.chain, rotated.nodup_iff.mp ring.nodup⟩,
    fun ring => ⟨Cycle.coe_eq_coe.mpr rotated ▸ ring.chain, rotated.nodup_iff.mpr ring.nodup⟩⟩

/-- The neighbours of an entry end the part before it and start the part after it. -/
theorem Ring.around (ring : Ring m head (xs ++ x :: ys)) :
    (head :: xs).getLast? = some (m.prev x) ∧ (ys ++ [head]).head? = some (m.next x) := by
  have path := ring.path
  rw [List.append_assoc, ← List.cons_append, List.isChain_append] at path
  obtain ⟨_, rest, link⟩ := path
  rw [List.cons_append, List.isChain_cons] at rest
  obtain ⟨u, last⟩ := Option.ne_none_iff_exists'.mp (show (head :: xs).getLast? ≠ none by simp)
  obtain ⟨v, first⟩ := Option.ne_none_iff_exists'.mp (show (ys ++ [head]).head? ≠ none by simp)
  rw [last, first, (link u last x rfl).2, (rest.1 v first).1]
  exact ⟨rfl, rfl⟩

theorem ring_nil : Ring m head [] ↔ m.next head = head ∧ m.prev head = head := by
  refine ⟨fun ring => (Cycle.chain_singleton ..).mp ring.chain, fun self => ⟨?_, by simp⟩⟩
  exact (Cycle.chain_singleton ..).mpr self

theorem Ring.next_head (ring : Ring m head xs) : m.next head = xs.headD head := by
  have path := ring.path
  cases xs with
  | nil => exact (List.isChain_cons_cons.mp path).1.1
  | cons x xs => exact (List.isChain_cons_cons.mp path).1.1

theorem Ring.prev_head (ring : Ring m head xs) : m.prev head = xs.getLastD head := by
  rcases List.eq_nil_or_concat xs with rfl | ⟨ys, x, rfl⟩
  · exact (ring_nil.mp ring).2
  · rw [List.concat_eq_append] at ring ⊢
    rw [List.getLastD_concat]
    exact (List.isChain_cons_cons.mp (ring_rotate.mp ring).path).1.2

/-- A list is empty iff its head follows itself. -/
theorem Ring.next_self_iff (ring : Ring m head xs) : m.next head = head ↔ xs = [] := by
  rw [ring.next_head]
  cases xs with
  | nil => simp
  | cons x xs =>
      have ne : x ≠ head := fun eq => (List.nodup_cons.mp ring.nodup).1 (eq ▸ List.mem_cons_self)
      simp [ne]

/-- Two readings of one ring agree. -/
theorem Ring.unique (ring : Ring m head xs) (ring' : Ring m head ys) : xs = ys := by
  have aux : ∀ (zs ws : List ν) (x : ν), (x :: (zs ++ [head])).IsChain (Adjacent m) →
      (x :: (ws ++ [head])).IsChain (Adjacent m) → head ∉ zs → head ∉ ws → zs = ws := by
    intro zs
    induction zs with
    | nil =>
        intro ws x path path' _ out
        cases ws with
        | nil => rfl
        | cons w ws =>
            have eq : w = head := (List.isChain_cons_cons.mp path').1.1.symm.trans
              (List.isChain_cons_cons.mp path).1.1
            exact absurd (eq ▸ List.mem_cons_self) out
    | cons z zs ih =>
        intro ws x path path' out out'
        cases ws with
        | nil =>
            have eq : z = head := (List.isChain_cons_cons.mp path).1.1.symm.trans
              (List.isChain_cons_cons.mp path').1.1
            exact absurd (eq ▸ List.mem_cons_self) out
        | cons w ws =>
            obtain ⟨step, path⟩ := List.isChain_cons_cons.mp path
            obtain ⟨step', path'⟩ := List.isChain_cons_cons.mp path'
            have eq : z = w := step.1.symm.trans step'.1
            subst eq
            rw [ih ws z path path' (fun mem => out (List.mem_cons_of_mem _ mem))
              fun mem => out' (List.mem_cons_of_mem _ mem)]
  exact aux xs ys head ring.path ring'.path (List.nodup_cons.mp ring.nodup).1
    (List.nodup_cons.mp ring'.nodup).1

end Ring

/-! ### Linking in and cutting out -/

section Change
variable [DecidableEq ν] {m : Links ν} {head x : ν} {xs ys : List ν}

/-- A node linked in after the head becomes the first entry. -/
theorem Ring.insert_front (ring : Ring m head xs) (fresh : x ∉ head :: xs) :
    Ring (m.insert x head (m.next head)) head (x :: xs) := by
  have nodup : (head :: x :: xs).Nodup := by
    refine List.nodup_cons.mpr ⟨?_, List.nodup_cons.mpr ⟨?_, (List.nodup_cons.mp ring.nodup).2⟩⟩
    · rw [List.mem_cons, not_or]
      exact ⟨fun eq => fresh (eq ▸ List.mem_cons_self), (List.nodup_cons.mp ring.nodup).1⟩
    · exact fun mem => fresh (List.mem_cons_of_mem _ mem)
  have apart : x ≠ head := fun eq => fresh (eq ▸ List.mem_cons_self)
  -- the rest of the ring starts at the node after the head
  obtain ⟨y, rest, split⟩ := List.exists_cons_of_ne_nil (l := xs ++ [head]) (by simp)
  have path := ring.path
  rw [split, List.isChain_cons_cons] at path
  obtain ⟨step, path⟩ := path
  have rotated : (y :: rest).Nodup := split ▸ (List.perm_append_singleton head xs).nodup_iff.mpr
    ring.nodup
  have front : (y :: rest).dropLast = xs := by rw [← split, List.dropLast_concat]
  have members : ∀ z, z ∈ y :: rest ↔ z ∈ head :: xs := by
    intro z
    rw [← split]
    exact (List.perm_append_singleton head xs).mem_iff
  refine ⟨(Cycle.chain_coe_cons ..).mpr ?_, nodup⟩
  rw [step.1, List.cons_append, split, List.isChain_cons_cons, List.isChain_cons_cons]
  have yx : y ≠ x := fun eq => fresh ((members x).mp (eq ▸ List.mem_cons_self))
  refine ⟨⟨?_, ?_⟩, ⟨?_, ?_⟩, path_congr path (fun z hz => ?_) fun z hz => ?_⟩
  · simp [Links.insert]
  · simp [Links.insert]
  · simp [Links.insert, apart]
  · simp [Links.insert, yx]
  · rw [front] at hz
    have zh : z ≠ head := fun eq => (List.nodup_cons.mp ring.nodup).1 (eq ▸ hz)
    have zx : z ≠ x := fun eq => fresh (List.mem_cons_of_mem _ (eq ▸ hz))
    simp [Links.insert, zh, zx]
  · have zy : z ≠ y := fun eq => (List.nodup_cons.mp rotated).1 (eq ▸ hz)
    have zx : z ≠ x := fun eq => fresh ((members x).mp (eq ▸ List.mem_cons_of_mem _ hz))
    simp [Links.insert, zy, zx]

/-- A node linked in before the head becomes the last entry. -/
theorem Ring.insert_back (ring : Ring m head xs) (fresh : x ∉ head :: xs) :
    Ring (m.insert x (m.prev head) head) head (xs ++ [x]) := by
  rcases List.eq_nil_or_concat xs with rfl | ⟨ys, z, rfl⟩
  · have self := ring_nil.mp ring
    have front := ring.insert_front fresh
    rw [self.1] at front
    rwa [self.2]
  · rw [List.concat_eq_append] at ring fresh ⊢
    -- the last entry is the head of the ring that starts with the old head
    have rotated := ring_rotate.mp ring
    have out : x ∉ z :: ([] ++ head :: ys) := fun mem => fresh (by
      simp only [List.nil_append, List.mem_cons, List.mem_append] at mem ⊢
      tauto)
    have front := rotated.insert_front out
    rw [rotated.next_head] at front
    rw [ring.prev_head, List.getLastD_concat, List.append_assoc]
    exact ring_rotate.mpr front

/-- Cutting the head itself out leaves a ring of its entries. -/
theorem Ring.cut_head {y : ν} (ring : Ring m x (y :: xs)) : Ring (m.cut x) y xs := by
  have nodup : (y :: xs).Nodup := (List.nodup_cons.mp ring.nodup).2
  have path := ring.path
  rw [List.cons_append, List.isChain_cons_cons, ← List.cons_append] at path
  have inner := path.2.left_of_append
  -- the last entry, which the head of the new ring follows
  obtain ⟨front, z, split⟩ : ∃ front z, y :: xs = front ++ [z] :=
    ⟨_, _, (List.dropLast_append_getLast (List.cons_ne_nil y xs)).symm⟩
  have cut : m.cut x = m.connect z y := by
    rw [Links.cut, ring.next_head, ring.prev_head, split, List.getLastD_concat, ← split]
    rfl
  refine ⟨(Cycle.chain_coe_cons ..).mpr ?_, nodup⟩
  rw [cut, ← List.cons_append, List.isChain_append]
  refine ⟨path_congr inner (fun w hw => m.connect_next_other ?_)
    fun w hw => m.connect_prev_other ?_, .singleton _, ?_⟩
  · rintro rfl
    rw [split, List.dropLast_concat] at hw
    rw [split] at nodup
    exact (List.nodup_append.mp nodup).2.2 w hw w List.mem_cons_self rfl
  · rintro rfl
    exact (List.nodup_cons.mp nodup).1 hw
  · intro a ha b hb
    rw [split, List.getLast?_concat, Option.mem_some_iff] at ha
    rw [List.head?_cons, Option.mem_some_iff] at hb
    subst ha hb
    exact ⟨by simp [Links.connect], by simp [Links.connect]⟩

/-- An entry cut out is no longer in the list. -/
theorem Ring.cut_entry (ring : Ring m head (xs ++ x :: ys)) :
    Ring (m.cut x) head (xs ++ ys) := by
  have rotated := ring_rotate.mp ring
  cases ys with
  | nil => simpa using rotated.cut_head
  | cons y ys => exact ring_rotate.mpr rotated.cut_head

/-- A path of other nodes put in after the head comes before the entries. -/
theorem Ring.splice (ring : Ring m head xs) {zs : List ν} {first last : ν}
    (path : zs.IsChain (Adjacent m)) (hfirst : zs.head? = some first)
    (hlast : zs.getLast? = some last) (nodup : zs.Nodup) (apart : ∀ z, z ∈ zs → z ∉ head :: xs) :
    Ring (m.splice head first last) head (zs ++ xs) := by
  obtain ⟨front, back⟩ := List.getLast?_eq_some_iff.mp hlast
  obtain ⟨tail, front'⟩ := List.head?_eq_some_iff.mp hfirst
  obtain ⟨at', others, start⟩ := List.exists_cons_of_ne_nil (l := xs ++ [head]) (by simp)
  obtain ⟨step, rest⟩ := List.isChain_cons.mp ring.path
  have next : m.next head = at' := (step at' (by rw [start]; rfl)).1
  have rotated : (at' :: others).Nodup := start ▸ (List.perm_append_singleton head xs).nodup_iff.mpr
    ring.nodup
  have members : ∀ z, z ∈ at' :: others → z ∈ head :: xs := fun z mem =>
    (List.perm_append_singleton head xs).mem_iff.mp (start ▸ mem)
  have new : ∀ z, z ∈ zs → z ≠ head ∧ z ≠ at' := fun z mem =>
    ⟨fun eq => apart z mem (eq ▸ List.mem_cons_self),
      fun eq => apart z mem (eq ▸ members at' List.mem_cons_self)⟩
  have old : ∀ z, z ∈ head :: xs → z ≠ first ∧ z ≠ last := fun z mem =>
    ⟨fun eq => apart z (by rw [front', eq]; simp) mem,
      fun eq => apart z (by rw [back, eq]; simp) mem⟩
  have apartF := new first (by rw [front']; simp)
  have apartL := new last (by rw [back]; simp)
  refine ⟨(Cycle.chain_coe_cons ..).mpr ?_, ?_⟩
  · rw [List.append_assoc, List.isChain_cons, List.isChain_append]
    refine ⟨fun v hv => ?_, path_congr path (fun z hz => ?_) fun z hz => ?_,
      path_congr rest (fun z hz => ?_) fun z hz => ?_, fun u hu v hv => ?_⟩
    · have same : v = first := by
        rw [front'] at hv
        exact (Option.some.inj hv).symm
      rw [same]
      simp [Adjacent, Links.splice, next, Ne.symm apartL.1, apartF.2]
    · have mem : z ∈ zs := List.mem_of_mem_dropLast hz
      have ne : z ≠ last := by
        rintro rfl
        rw [back, List.dropLast_concat] at hz
        exact List.disjoint_of_nodup_append (back ▸ nodup) hz (by simp)
      simp [Links.splice, next, (new z mem).1, ne]
    · have mem : z ∈ zs := List.mem_of_mem_tail hz
      have ne : z ≠ first := by
        rintro rfl
        rw [front', List.tail_cons] at hz
        exact (List.nodup_cons.mp (front' ▸ nodup)).1 hz
      simp [Links.splice, next, (new z mem).2, ne]
    · rw [List.dropLast_concat] at hz
      have ne : z ≠ head := fun eq => (List.nodup_cons.mp ring.nodup).1 (eq ▸ hz)
      simp [Links.splice, next, (old z (List.mem_cons_of_mem _ hz)).2, ne]
    · rw [start, List.tail_cons] at hz
      have ne : z ≠ at' := fun eq => (List.nodup_cons.mp rotated).1 (eq ▸ hz)
      simp [Links.splice, next, (old z (members z (List.mem_cons_of_mem _ hz))).1, ne]
    · rw [hlast] at hu
      rw [start] at hv
      cases hu
      cases hv
      simp [Adjacent, Links.splice, next]
  · have inner := List.nodup_cons.mp ring.nodup
    refine List.nodup_cons.mpr ⟨fun mem => ?_, nodup.append inner.2 fun z mem old =>
      apart z mem (List.mem_cons_of_mem _ old)⟩
    rcases List.mem_append.mp mem with mem | mem
    · exact apart head mem List.mem_cons_self
    · exact inner.1 mem

theorem Links.insert_other (m : Links ν) {prev next z : ν} (self : z ≠ x) (before : z ≠ prev)
    (after : z ≠ next) :
    (m.insert x prev next).next z = m.next z ∧ (m.insert x prev next).prev z = m.prev z := by
  simp [Links.insert, self, before, after]

theorem Links.splice_other (m : Links ν) {first last z : ν} (self : z ≠ head) (front : z ≠ first)
    (back : z ≠ last) (after : z ≠ m.next head) :
    (m.splice head first last).next z = m.next z ∧
      (m.splice head first last).prev z = m.prev z := by
  simp [Links.splice, self, front, back, after]

theorem Links.cut_other (m : Links ν) {z : ν} (before : z ≠ m.prev x) (after : z ≠ m.next x) :
    (m.cut x).next z = m.next z ∧ (m.cut x).prev z = m.prev z :=
  ⟨m.connect_next_other before, m.connect_prev_other after⟩

end Change

/-! ### Walking along a list -/

section Walk
variable {m : Links ν} {head : ν} {xs ys ws : List ν}

/-- The nodes from `x` on up to `stop`; `none` if there are more than the fuel. -/
def walk [DecidableEq ν] (step : ν → ν) (stop : ν) : Nat → ν → Option (List ν)
  | 0, x => if x = stop then some [] else none
  | n + 1, x => if x = stop then some [] else (walk step stop n (step x)).map (x :: ·)

def Links.flip (m : Links ν) : Links ν := { next := m.prev, prev := m.next }

theorem Ring.flip (ring : Ring m head xs) : Ring m.flip head xs.reverse := by
  have nodup : (head :: xs.reverse).Nodup := by
    rw [List.nodup_cons, List.mem_reverse, List.nodup_reverse]
    exact List.nodup_cons.mp ring.nodup
  refine ⟨(Cycle.chain_coe_cons ..).mpr ?_, nodup⟩
  have back : (head :: (xs ++ [head])).reverse.IsChain (Adjacent m.flip) :=
    List.isChain_reverse.mpr (ring.path.imp fun x y step => ⟨step.2, step.1⟩)
  simpa using back

theorem walk_path [DecidableEq ν] {step : ν → ν} {stop x : ν} {n : Nat}
    (path : (x :: (xs ++ [stop])).IsChain fun u v => step u = v) (out : stop ∉ xs)
    (fuel : xs.length ≤ n) : walk step stop n (step x) = some xs := by
  induction xs generalizing x n with
  | nil =>
      rw [(List.isChain_cons_cons.mp path).1]
      cases n <;> simp [walk]
  | cons y xs ih =>
      obtain ⟨step, path⟩ := List.isChain_cons_cons.mp path
      have ne : y ≠ stop := fun eq => out (eq ▸ List.mem_cons_self)
      cases n with
      | zero => simp at fuel
      | succ n =>
          rw [step, walk, if_neg ne, ih path (fun mem => out (List.mem_cons_of_mem _ mem))
            (Nat.le_of_succ_le_succ fuel)]
          rfl

/-- A step function that agrees with `next` on a path but at its end. -/
theorem stepped_path {step : ν → ν} (path : xs.IsChain (Adjacent m))
    (agree : ∀ x, x ∈ xs.dropLast → step x = m.next x) : xs.IsChain fun x y => step x = y :=
  have steps : xs.IsChain (Adjacent { next := step, prev := m.prev }) :=
    path_congr path agree fun _ _ => rfl
  steps.imp fun _ _ step => step.1

/-- A walk that cannot get to its end has no end. -/
theorem walk_none [DecidableEq ν] {step : ν → ν} {stop x : ν} {p : ν → Prop}
    (closed : ∀ y, p y → p (step y)) (away : ¬ p stop) (start : p x) (n : Nat) :
    walk step stop n x = none := by
  have ne : x ≠ stop := by
    rintro rfl
    exact away start
  induction n generalizing x with
  | zero => exact if_neg ne
  | succ n ih =>
      rw [walk, if_neg ne, ih (closed x start), Option.map_none]
      rintro rfl
      exact away (closed x start)

/-- From `head` on `step` leads through `xs` and back. -/
structure Loop (step : ν → ν) (head : ν) (xs : List ν) : Prop where
  path : (head :: (xs ++ [head])).IsChain fun x y => step x = y
  nodup : (head :: xs).Nodup

theorem Ring.forth (ring : Ring m head xs) : Loop m.next head xs :=
  ⟨ring.path.imp fun _ _ step => step.1, ring.nodup⟩

theorem Ring.flip_entry {x : ν} (ring : Ring m head (xs ++ x :: ys)) :
    Ring m.flip head (ys.reverse ++ x :: xs.reverse) := by
  have flipped := ring.flip
  rwa [List.reverse_append, List.reverse_cons, List.append_assoc, List.singleton_append] at flipped

theorem Ring.back (ring : Ring m head xs) : Loop m.prev head xs.reverse := ring.flip.forth

/-- A loop can be entered anywhere. -/
theorem Loop.rotate {step : ν → ν} {x : ν} (loop : Loop step head (xs ++ x :: ys)) :
    Loop step x (ys ++ head :: xs) := by
  have path := loop.path
  rw [List.append_assoc, List.cons_append, ← List.cons_append, List.isChain_split] at path
  have last : ((x :: ys) ++ [head]).IsChain fun x y => step x = y := path.2
  have rotated : head :: (xs ++ x :: ys) ~r x :: (ys ++ head :: xs) := by
    rw [← List.cons_append, ← List.cons_append]
    exact List.isRotated_append
  refine ⟨?_, rotated.nodup_iff.mp loop.nodup⟩
  simpa using last.append_overlap path.1 (by simp)

theorem Loop.closed {step : ν → ν} (loop : Loop step head xs) {y : ν} (mem : y ∈ head :: xs) :
    step y ∈ head :: xs := by
  have own : ∀ {x zs}, Loop step x zs → step x ∈ x :: zs := by
    intro x zs loop
    have path := loop.path
    cases zs with
    | nil => exact List.mem_singleton.mpr (List.isChain_cons_cons.mp path).1
    | cons z zs =>
        rw [(List.isChain_cons_cons.mp path).1]
        simp
  rcases List.mem_cons.mp mem with rfl | mem
  · exact own loop
  · obtain ⟨ys, zs, rfl⟩ := List.append_of_mem mem
    have rotated := own loop.rotate
    simp only [List.mem_cons, List.mem_append] at rotated ⊢
    tauto

/-- A walk to a node that is not on the loop goes on for ever. -/
theorem Loop.walk_none [DecidableEq ν] {step : ν → ν} {stop x : ν} (loop : Loop step head xs)
    (start : x ∈ head :: xs) (out : stop ∉ head :: xs) (n : Nat) :
    LinkedRing.walk step stop n x = none :=
  LinkedRing.walk_none (fun _ mem => loop.closed mem) out start n

/-- Neither does it come to an end when the head of the loop was linked to itself. -/
theorem Loop.emptied_walk_none [DecidableEq ν] {step step' : ν → ν} {stop x : ν}
    (loop : Loop step head xs) (self : step' head = head)
    (agree : ∀ y, y ∈ xs → step' y = step y) (start : x ∈ head :: xs) (out : stop ∉ head :: xs)
    (n : Nat) : LinkedRing.walk step' stop n x = none := by
  refine LinkedRing.walk_none (fun y mem => ?_) out start n
  rcases List.mem_cons.mp mem with rfl | own
  · rw [self]
    exact List.mem_cons_self
  · rw [agree y own]
    exact loop.closed mem

theorem Loop.walk [DecidableEq ν] {step : ν → ν} {n : Nat} (loop : Loop step head xs)
    (fuel : xs.length ≤ n) : walk step head n (step head) = some xs :=
  walk_path loop.path (List.nodup_cons.mp loop.nodup).1 fuel

/-- A loop that leaves a ring after `xs`, goes through `zs` and comes back at `ys`. -/
theorem Ring.reroute (ring : Ring m head (xs ++ ws ++ ys)) {step : ν → ν} {zs : List ν}
    (before : ∀ y, y ∈ (head :: xs).dropLast → step y = m.next y)
    (via : ∀ u, u ∈ (head :: xs).getLast? → ∀ v, v ∈ (ys ++ [head]).head? →
      (u :: (zs ++ [v])).IsChain fun x y => step x = y)
    (after : ∀ y, y ∈ ys → step y = m.next y) (nodup : (head :: (xs ++ zs ++ ys)).Nodup) :
    Loop step head (xs ++ zs ++ ys) := by
  have path := ring.path
  rw [List.append_assoc, List.append_assoc, ← List.cons_append] at path
  have front := stepped_path path.left_of_append before
  have rest := stepped_path path.right_of_append.right_of_append
    (by rwa [List.dropLast_concat])
  obtain ⟨p, u, first⟩ : ∃ p u, head :: xs = p ++ [u] :=
    ⟨_, _, (List.dropLast_append_getLast (List.cons_ne_nil head xs)).symm⟩
  obtain ⟨v, q, last⟩ := List.exists_cons_of_ne_nil (l := ys ++ [head]) (by simp)
  have middle : ((u :: zs) ++ [v]).IsChain fun x y => step x = y :=
    via u (by rw [first]; simp) v (by rw [last]; rfl)
  rw [last] at rest
  have tail : ([u] ++ (zs ++ (ys ++ [head]))).IsChain fun x y => step x = y := by
    rw [last]
    simpa using middle.append_overlap rest (by simp)
  rw [first] at front
  refine ⟨?_, nodup⟩
  have all := front.append_overlap tail (by simp)
  rw [← first] at all
  simpa using all

theorem not_mem_dropLast {l : List ν} {a : ν} (nodup : l.Nodup) (last : l.getLast? = some a) :
    a ∉ l.dropLast := by
  obtain ⟨p, rfl⟩ := List.getLast?_eq_some_iff.mp last
  rw [List.dropLast_concat]
  exact fun mem => List.disjoint_of_nodup_append nodup mem (List.mem_singleton_self a)

/-- A loop that goes from one neighbour of `x` to the other through `zs`. -/
theorem Ring.detour {x : ν} (ring : Ring m head (xs ++ x :: ys)) {step : ν → ν} {zs : List ν}
    (via : (m.prev x :: (zs ++ [m.next x])).IsChain fun u v => step u = v)
    (agree : ∀ y, y ∈ head :: (xs ++ ys) → y ≠ m.prev x → step y = m.next y)
    (nodup : (head :: (xs ++ zs ++ ys)).Nodup) : Loop step head (xs ++ zs ++ ys) := by
  obtain ⟨last, first⟩ := ring.around
  have inner := List.nodup_cons.mp (ring_rotate.mp ring).nodup
  obtain ⟨_, front, apart⟩ := List.nodup_append.mp inner.2
  have parts : Ring m head (xs ++ [x] ++ ys) := by simpa using ring
  refine parts.reroute (fun y mem => agree y ?_ ?_) (fun u hu v hv => ?_)
    (fun y mem => agree y (by simp [mem]) ?_) nodup
  · have mem := List.mem_of_mem_dropLast mem
    simp only [List.mem_cons, List.mem_append] at mem ⊢
    tauto
  · rintro rfl
    exact not_mem_dropLast front last mem
  · rw [last] at hu
    rw [first] at hv
    cases hu
    cases hv
    exact via
  · exact apart y mem _ (List.mem_of_getLast? last)

/-- A loop that goes from the head past `x` through `zs`. -/
theorem Ring.shortcut {x : ν} (ring : Ring m head (xs ++ x :: ys)) {step : ν → ν} {zs : List ν}
    (via : (head :: (zs ++ [m.next x])).IsChain fun u v => step u = v)
    (agree : ∀ y, y ∈ ys → step y = m.next y) (nodup : (head :: (zs ++ ys)).Nodup) :
    Loop step head (zs ++ ys) := by
  have parts : Ring m head ([] ++ (xs ++ [x]) ++ ys) := by simpa using ring
  refine parts.reroute (fun y mem => ?_) (fun u hu v hv => ?_) agree nodup
  · cases mem
  · rw [ring.around.2] at hv
    cases hu
    cases hv
    exact via

theorem Ring.prev_self_iff (ring : Ring m head xs) : m.prev head = head ↔ xs = [] :=
  ring.flip.next_self_iff.trans List.reverse_eq_nil_iff

end Walk

/-! ### Many lists -/

/-- The lists `lists k` of the heads `head k`, without a common node. -/
structure Rings {κ : Type} (m : Links ν) (head : κ → ν) (lists : κ → List ν) : Prop where
  ring : ∀ k, Ring m (head k) (lists k)
  apart : ∀ k l, k ≠ l → ∀ x, x ∈ head k :: lists k → x ∉ head l :: lists l

section Rings
variable {κ : Type} {m m' : Links ν} {head : κ → ν} {lists : κ → List ν} {x : ν} {k : κ}

theorem Rings.congr (rings : Rings m head lists)
    (agree : ∀ k x, x ∈ head k :: lists k → m'.next x = m.next x ∧ m'.prev x = m.prev x) :
    Rings m' head lists :=
  ⟨fun k => (rings.ring k).congr (agree k), rings.apart⟩

/-- The neighbours of an entry are nodes of its list. -/
theorem Ring.neighbours {h : ν} {xs : List ν} (ring : Ring m h xs) (mem : x ∈ h :: xs) :
    m.next x ∈ h :: xs ∧ m.prev x ∈ h :: xs := by
  have own : ∀ {y zs}, Ring m y zs → m.next y ∈ y :: zs ∧ m.prev y ∈ y :: zs := by
    intro y zs ring
    rw [ring.next_head, ring.prev_head]
    cases zs with
    | nil => simp
    | cons z zs =>
        rw [List.getLastD_cons]
        exact ⟨by simp, List.mem_cons_of_mem _ (List.getLastD_mem_cons ..)⟩
  rcases List.mem_cons.mp mem with rfl | mem
  · exact own ring
  · obtain ⟨ys, zs, rfl⟩ := List.append_of_mem mem
    have rotated := own (ring_rotate.mp ring)
    simp only [List.mem_cons, List.mem_append] at rotated ⊢
    tauto

variable [DecidableEq κ]

/-- A change of one list that the nodes of the others do not notice. -/
theorem Rings.change (rings : Rings m head lists) {ys : List ν} (ring : Ring m' (head k) ys)
    (others : ∀ l, l ≠ k → ∀ y, y ∈ head l :: lists l →
      m'.next y = m.next y ∧ m'.prev y = m.prev y)
    (fresh : ∀ l, l ≠ k → ∀ y, y ∈ head l :: lists l → y ∉ ys) :
    Rings m' head (update lists k ys) := by
  have apart : ∀ l, l ≠ k → ∀ y, y ∈ head l :: lists l → y ∉ head k :: ys := by
    intro l hl y mem own
    rcases List.mem_cons.mp own with rfl | own
    · exact rings.apart l k hl _ mem List.mem_cons_self
    · exact fresh l hl y mem own
  refine ⟨fun l => ?_, fun l l' ne y mem mem' => ?_⟩
  · by_cases hl : l = k
    · subst hl
      rwa [update_self]
    · rw [update_of_ne hl]
      exact (rings.ring l).congr (others l hl)
  · by_cases hl : l = k
    · subst hl
      rw [update_self] at mem
      rw [update_of_ne (Ne.symm ne)] at mem'
      exact apart l' (Ne.symm ne) y mem' mem
    · rw [update_of_ne hl] at mem
      by_cases hl' : l' = k
      · subst hl'
        rw [update_self] at mem'
        exact apart l hl y mem mem'
      · rw [update_of_ne hl'] at mem'
        exact rings.apart l l' ne y mem mem'

variable [DecidableEq ν]

omit [DecidableEq κ] in
/-- Linking a node of no list in between two neighbours of one list leaves the others alone. -/
theorem Rings.insert_others (rings : Rings m head lists) {prev next : ν}
    (fresh : ∀ l, x ∉ head l :: lists l) (before : prev ∈ head k :: lists k)
    (after : next ∈ head k :: lists k) (l : κ) (hl : l ≠ k) (y : ν)
    (mem : y ∈ head l :: lists l) :
    (m.insert x prev next).next y = m.next y ∧ (m.insert x prev next).prev y = m.prev y :=
  m.insert_other (fun eq => fresh l (eq ▸ mem)) (fun eq => rings.apart l k hl y mem (eq ▸ before))
    fun eq => rings.apart l k hl y mem (eq ▸ after)

theorem Rings.insert_front (rings : Rings m head lists) (fresh : ∀ l, x ∉ head l :: lists l) :
    Rings (m.insert x (head k) (m.next (head k))) head (update lists k (x :: lists k)) := by
  have ring := rings.ring k
  refine rings.change (ring.insert_front (fresh k)) (rings.insert_others fresh List.mem_cons_self
    (ring.neighbours List.mem_cons_self).1) fun l hl y mem new => ?_
  rcases List.mem_cons.mp new with rfl | old
  · exact fresh l mem
  · exact rings.apart l k hl y mem (List.mem_cons_of_mem _ old)

theorem Rings.insert_back (rings : Rings m head lists) (fresh : ∀ l, x ∉ head l :: lists l) :
    Rings (m.insert x (m.prev (head k)) (head k)) head (update lists k (lists k ++ [x])) := by
  have ring := rings.ring k
  refine rings.change (ring.insert_back (fresh k)) (rings.insert_others fresh
    (ring.neighbours List.mem_cons_self).2 List.mem_cons_self) fun l hl y mem new => ?_
  rcases List.mem_append.mp new with old | self
  · exact rings.apart l k hl y mem (List.mem_cons_of_mem _ old)
  · exact fresh l (List.mem_singleton.mp self ▸ mem)

theorem Rings.cut (rings : Rings m head lists) {xs ys : List ν} (eq : lists k = xs ++ x :: ys) :
    Rings (m.cut x) head (update lists k (xs ++ ys)) := by
  have ring := rings.ring k
  have own : x ∈ head k :: lists k := by rw [eq]; simp
  have near := ring.neighbours own
  rw [eq] at ring
  refine rings.change ring.cut_entry (fun l hl y mem => m.cut_other ?_ ?_) fun l hl y mem old => ?_
  · exact fun same => rings.apart l k hl y mem (same ▸ near.2)
  · exact fun same => rings.apart l k hl y mem (same ▸ near.1)
  · refine rings.apart l k hl y mem (List.mem_cons_of_mem _ ?_)
    rw [eq]
    simp only [List.mem_append, List.mem_cons] at old ⊢
    tauto

omit [DecidableEq ν] in
/-- After it was cut out, a node is in no list. -/
theorem Rings.cut_fresh (rings : Rings m head lists) {xs ys : List ν} (eq : lists k = xs ++ x :: ys)
    (l : κ) : x ∉ head l :: update lists k (xs ++ ys) l := by
  have nodup := (rings.ring k).nodup
  have own : x ∈ head k :: lists k := by rw [eq]; simp
  by_cases hl : l = k
  · subst hl
    rw [eq] at nodup
    rw [update_self, List.mem_cons, not_or]
    refine ⟨fun same => (List.nodup_cons.mp nodup).1 (same ▸ by simp), ?_⟩
    exact (List.nodup_middle.mp (List.nodup_cons.mp nodup).2).notMem
  · rw [update_of_ne hl]
    exact rings.apart k l (Ne.symm hl) x own

end Rings
end LinkedRing
