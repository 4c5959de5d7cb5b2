import Mathlib.Logic.Function.Basic
import Mathlib.Algebra.Ring.Nat
import Mathlib.Data.List.Nodup
import Mathlib.Data.List.Pairwise
import Mathlib.Tactic.Common

/-!
Bucketed pools: every client keeps a short list of items and a list of full
buckets of its own, and exchanges whole buckets with a shared stack. The module
says what such a pool is for: it holds a set of distinct items, taking an item
removes exactly that item, and returning one adds exactly that item.
-/

namespace BucketPool
open Function

structure Local (α : Type) where
  items : List α
  buckets : List (List α)

structure Pool (ι α : Type) where
  locals : ι → Local α
  shared : List (List α)

variable {ι α : Type} [DecidableEq ι]

def Pool.setLocal (P : Pool ι α) (t : ι) (l : Local α) : Pool ι α :=
  { P with locals := update P.locals t l }

/-- Take an item: from the local items, else from a local bucket, else from a
shared bucket. -/
def get (t : ι) (P : Pool ι α) : Option (α × Pool ι α) :=
  match (P.locals t).items with
  | x :: items => some (x, P.setLocal t { P.locals t with items := items })
  | [] =>
    match (P.locals t).buckets with
    | (x :: items) :: buckets => some (x, P.setLocal t { items := items, buckets := buckets })
    | [] :: _ => none
    | [] =>
      match P.shared with
      | (x :: items) :: shared =>
          some (x, { P.setLocal t { items := items, buckets := [] } with shared := shared })
      | _ => none

/-- A client's items become one of its buckets. -/
def closeBucket (t : ι) (P : Pool ι α) : Pool ι α :=
  P.setLocal t { items := [], buckets := (P.locals t).items :: (P.locals t).buckets }

/-- A client's buckets move to the shared stack together. -/
def share (t : ι) (P : Pool ι α) : Pool ι α :=
  { P.setLocal t { P.locals t with buckets := [] } with
    shared := (P.locals t).buckets ++ P.shared }

def push (t : ι) (x : α) (P : Pool ι α) : Pool ι α :=
  P.setLocal t { P.locals t with items := x :: (P.locals t).items }

/-- Make room for another local item: `size` items become a bucket, and `bound`
buckets are shared. -/
def spill (size bound : Nat) (t : ι) (P : Pool ι α) : Pool ι α :=
  if (P.locals t).items.length = size then
    if bound ≤ (P.locals t).buckets.length + 1 then share t (closeBucket t P)
    else closeBucket t P
  else P

def put (size bound : Nat) (t : ι) (x : α) (P : Pool ι α) : Pool ι α :=
  push t x (spill size bound t P)

def Local.elems (l : Local α) : List α := l.items ++ l.buckets.flatten

def Pool.Holds (P : Pool ι α) (x : α) : Prop :=
  (∃ t, x ∈ (P.locals t).elems) ∨ x ∈ P.shared.flatten

/-- The buckets are full, no client keeps more than a bucketful of items, and no
item is in two places. -/
structure WellFormed (size : Nat) (P : Pool ι α) : Prop where
  items_le : ∀ t, (P.locals t).items.length ≤ size
  bucket_length : ∀ t b, b ∈ (P.locals t).buckets → b.length = size
  shared_length : ∀ b, b ∈ P.shared → b.length = size
  nodup_local : ∀ t, (P.locals t).elems.Nodup
  nodup_shared : P.shared.flatten.Nodup
  apart_local : ∀ t t', t ≠ t' → ∀ x, x ∈ (P.locals t).elems → x ∉ (P.locals t').elems
  apart_shared : ∀ t x, x ∈ (P.locals t).elems → x ∉ P.shared.flatten

omit [DecidableEq ι] in
/-- A pool whose clients hold nothing. -/
theorem wellFormed_of_shared {size : Nat} {P : Pool ι α}
    (none : ∀ t, (P.locals t).items = [] ∧ (P.locals t).buckets = [])
    (len : ∀ b, b ∈ P.shared → b.length = size) (nodup : P.shared.flatten.Nodup) :
    WellFormed size P := by
  have elems : ∀ t, (P.locals t).elems = [] := by
    intro t
    rw [Local.elems, (none t).1, (none t).2]
    rfl
  constructor
  · intro t
    rw [(none t).1]
    exact Nat.zero_le _
  · intro t b mem
    rw [(none t).2] at mem
    cases mem
  · exact len
  · intro t
    rw [elems t]
    exact List.nodup_nil
  · exact nodup
  · intro t s _ x mem
    rw [elems t] at mem
    cases mem
  · intro t x mem
    rw [elems t] at mem
    cases mem

@[simp] theorem setLocal_same (P : Pool ι α) (t : ι) (l : Local α) :
    (P.setLocal t l).locals t = l := by simp [Pool.setLocal]

@[simp] theorem setLocal_other (P : Pool ι α) {t s : ι} (l : Local α) (ne : s ≠ t) :
    (P.setLocal t l).locals s = P.locals s := by simp [Pool.setLocal, ne]

@[simp] theorem setLocal_shared (P : Pool ι α) (t : ι) (l : Local α) :
    (P.setLocal t l).shared = P.shared := rfl

omit [DecidableEq ι] in
/-- A step of client `t` is checked for `t` and for the others. -/
theorem forall_clients {motive : ι → Prop} (t : ι) (mine : motive t)
    (others : ∀ s, s ≠ t → motive s) : ∀ s, motive s := by
  intro s
  by_cases hs : s = t
  · exact hs ▸ mine
  · exact others s hs

/-- The ways `get` can succeed: the item heads the local elements, after the
shared top bucket was fetched where the client had nothing left. -/
theorem get_cases {t : ι} {P P' : Pool ι α} {x : α} (h : get t P = some (x, P')) :
    (∃ l, P' = P.setLocal t l ∧ (P.locals t).elems = x :: l.elems ∧
      l.items.length ≤ (P.locals t).items.length ∧ l.buckets = (P.locals t).buckets) ∨
    (∃ items buckets, (P.locals t).items = [] ∧ (P.locals t).buckets = (x :: items) :: buckets ∧
      P' = P.setLocal t { items := items, buckets := buckets }) ∨
    (∃ items shared, (P.locals t).elems = [] ∧ P.shared = (x :: items) :: shared ∧
      P' = { P.setLocal t { items := items, buckets := [] } with shared := shared }) := by
  simp only [get] at h
  split at h
  next y items hi =>
    simp only [Option.some.injEq, Prod.mk.injEq] at h
    obtain ⟨rfl, rfl⟩ := h
    exact .inl ⟨_, rfl, by simp [Local.elems, hi], by simp [hi], rfl⟩
  next hi =>
    split at h
    next y items buckets hb =>
      simp only [Option.some.injEq, Prod.mk.injEq] at h
      obtain ⟨rfl, rfl⟩ := h
      exact .inr (.inl ⟨items, buckets, hi, hb, rfl⟩)
    · cases h
    next hb =>
      split at h
      next y items shared hs =>
        simp only [Option.some.injEq, Prod.mk.injEq] at h
        obtain ⟨rfl, rfl⟩ := h
        exact .inr (.inr ⟨items, shared, by simp [Local.elems, hi, hb], hs, rfl⟩)
      · cases h

/-- Replacing one client's list by part of it and of the shared stack keeps the
pool well formed and only loses items. -/
private theorem wellFormed_replace {size : Nat} {P : Pool ι α} (wf : WellFormed size P) {t : ι}
    {l : Local α} {shared : List (List α)} (items : l.items.length ≤ size)
    (buckets : ∀ b, b ∈ l.buckets → b.length = size) (full : ∀ b, b ∈ shared → b.length = size)
    (nodup : (l.elems ++ shared.flatten).Nodup)
    (apart : ∀ s, s ≠ t → ∀ y, y ∈ l.elems ∨ y ∈ shared.flatten → y ∉ (P.locals s).elems) :
    WellFormed size { P.setLocal t l with shared := shared } := by
  obtain ⟨nodupL, nodupS, disj⟩ := List.nodup_append.mp nodup
  constructor
  · intro s
    by_cases hs : s = t
    · subst hs; simpa using items
    · simpa [hs] using wf.items_le s
  · intro s b
    by_cases hs : s = t
    · subst hs; simpa using buckets b
    · simpa [hs] using wf.bucket_length s b
  · exact full
  · intro s
    by_cases hs : s = t
    · subst hs; simpa using nodupL
    · simpa [hs] using wf.nodup_local s
  · exact nodupS
  · intro s s' ne y hy hy'
    by_cases hs : s = t
    · subst hs
      have other : s' ≠ s := ne.symm
      simp only [setLocal_same] at hy
      simp only [setLocal_other _ _ other] at hy'
      exact apart s' other y (.inl hy) hy'
    · simp only [setLocal_other _ _ hs] at hy
      by_cases hs' : s' = t
      · subst hs'
        simp only [setLocal_same] at hy'
        exact apart s hs y (.inl hy') hy
      · simp only [setLocal_other _ _ hs'] at hy'
        exact wf.apart_local s s' ne y hy hy'
  · intro s y hy hy'
    by_cases hs : s = t
    · subst hs
      simp only [setLocal_same] at hy
      exact disj y hy y hy' rfl
    · simp only [setLocal_other _ _ hs] at hy
      exact apart s hs y (.inr hy') hy

private theorem holds_replace {P : Pool ι α} {t : ι} {l : Local α} {shared : List (List α)}
    {y : α} : Pool.Holds { P.setLocal t l with shared := shared } y ↔
      (y ∈ l.elems ∨ y ∈ shared.flatten) ∨ ∃ s, s ≠ t ∧ y ∈ (P.locals s).elems := by
  simp only [Pool.Holds]
  constructor
  · rintro (⟨s, hs⟩ | h)
    · by_cases eq : s = t
      · subst eq; simp only [setLocal_same] at hs; exact .inl (.inl hs)
      · simp only [setLocal_other _ _ eq] at hs; exact .inr ⟨s, eq, hs⟩
    · exact .inl (.inr h)
  · rintro ((h | h) | ⟨s, ne, hs⟩)
    · exact .inl ⟨t, by simpa using h⟩
    · exact .inr h
    · exact .inl ⟨s, by simpa [ne] using hs⟩

omit [DecidableEq ι] in
private theorem holds_split (P : Pool ι α) (t : ι) (y : α) :
    P.Holds y ↔ y ∈ (P.locals t).elems ++ P.shared.flatten ∨
      ∃ s, s ≠ t ∧ y ∈ (P.locals s).elems := by
  simp only [Pool.Holds, List.mem_append]
  constructor
  · rintro (⟨s, hs⟩ | h)
    · by_cases eq : s = t
      · subst eq; exact .inl (.inl hs)
      · exact .inr ⟨s, eq, hs⟩
    · exact .inl (.inr h)
  · rintro ((h | h) | ⟨s, _, hs⟩)
    · exact .inl ⟨t, h⟩
    · exact .inr h
    · exact .inl ⟨s, hs⟩

/-- What one client and the shared stack hold, in the order in which that client
takes it. -/
def Pool.visible (P : Pool ι α) (t : ι) : List α := (P.locals t).elems ++ P.shared.flatten

omit [DecidableEq ι] in
theorem visible_nodup {size : Nat} {P : Pool ι α} (wf : WellFormed size P) (t : ι) :
    (P.visible t).Nodup :=
  List.nodup_append.mpr ⟨wf.nodup_local t, wf.nodup_shared, fun a ha _ hb eq =>
    wf.apart_shared t a ha (eq ▸ hb)⟩

omit [DecidableEq ι] in
theorem visible_apart {size : Nat} {P : Pool ι α} (wf : WellFormed size P) {s t : ι}
    (ne : s ≠ t) : ∀ y, y ∈ P.visible t → y ∉ (P.locals s).elems := by
  intro y hy hs
  rcases List.mem_append.mp hy with mem | mem
  · exact wf.apart_local t s ne.symm y mem hs
  · exact wf.apart_shared s y hs mem

/-- Taking an item removes the head of the client's visible list. -/
theorem get_visible {t : ι} {P P' : Pool ι α} {x : α} (h : get t P = some (x, P')) :
    P.visible t = x :: P'.visible t := by
  rcases get_cases h with ⟨l, rfl, elems, _⟩ | ⟨items, buckets, hi, hb, rfl⟩ |
    ⟨items, shared, he, hs, rfl⟩
  · simp [Pool.visible, elems]
  · simp [Pool.visible, Local.elems, hi, hb]
  · simp only [Pool.visible, he, hs]
    simp [Local.elems]

theorem get_spec {size : Nat} {t : ι} {P P' : Pool ι α} {x : α} (wf : WellFormed size P)
    (h : get t P = some (x, P')) :
    WellFormed size P' ∧ P.Holds x ∧ ∀ y, P'.Holds y ↔ P.Holds y ∧ y ≠ x := by
  have order := get_visible h
  have nodup := visible_nodup wf t
  have apart : ∀ s, s ≠ t → ∀ y, y ∈ P.visible t → y ∉ (P.locals s).elems :=
    fun _ ne => visible_apart wf ne
  obtain ⟨l, shared, rfl, items, buckets, full⟩ : ∃ l shared,
      P' = { P.setLocal t l with shared := shared } ∧ l.items.length ≤ size ∧
      (∀ b, b ∈ l.buckets → b.length = size) ∧ (∀ b, b ∈ shared → b.length = size) := by
    rcases get_cases h with ⟨l, rfl, _, le, same⟩ | ⟨items, buckets, _, hb, rfl⟩ |
      ⟨items, shared, he, hs, rfl⟩
    · exact ⟨l, P.shared, rfl, Nat.le_trans le (wf.items_le t),
        fun b hb => wf.bucket_length t b (same ▸ hb), wf.shared_length⟩
    · have len := wf.bucket_length t (x :: items) (by simp [hb])
      refine ⟨_, P.shared, rfl, ?_, fun b mem => wf.bucket_length t b (by simp_all),
        wf.shared_length⟩
      simp only [List.length_cons] at len
      simp only
      omega
    · have len := wf.shared_length (x :: items) (by simp [hs])
      refine ⟨_, shared, rfl, ?_, by simp, fun b mem => wf.shared_length b (by simp [hs, mem])⟩
      simp only [List.length_cons] at len
      simp only
      omega
  simp only [Pool.visible, setLocal_same] at order nodup apart
  rw [order] at nodup apart
  obtain ⟨fresh, nodup⟩ := List.nodup_cons.mp nodup
  refine ⟨wellFormed_replace wf items buckets full nodup
    (fun s ne y hy => apart s ne y (List.mem_cons_of_mem _ (List.mem_append.mpr hy))),
    (holds_split P t x).mpr (.inl (by rw [order]; exact List.mem_cons_self)), ?_⟩
  intro y
  rw [holds_replace, holds_split P t y, order, ← List.mem_append, List.mem_cons]
  constructor
  · rintro (mem | ⟨s, ne, mem⟩)
    · exact ⟨.inl (.inr mem), fun eq => fresh (eq ▸ mem)⟩
    · exact ⟨.inr ⟨s, ne, mem⟩, fun eq => apart s ne x List.mem_cons_self (eq ▸ mem)⟩
  · rintro ⟨(eq | mem) | other, ne⟩
    · exact absurd eq ne
    · exact .inl mem
    · exact .inr other

/-- Nothing is taken only when the client and the shared stack have nothing. -/
theorem get_none {size : Nat} (pos : 0 < size) {t : ι} {P : Pool ι α} (wf : WellFormed size P)
    (h : get t P = none) : (P.locals t).items = [] ∧ (P.locals t).buckets = [] ∧ P.shared = [] := by
  have nonempty : ∀ b : List α, b.length = size → b ≠ [] := by
    rintro _ len rfl
    simp only [List.length_nil] at len
    omega
  simp only [get] at h
  split at h
  · cases h
  next hi =>
    split at h
    · cases h
    next _ hb => exact absurd rfl (nonempty [] (wf.bucket_length t [] (by simp [hb])))
    next hb =>
      split at h
      · cases h
      next other =>
        refine ⟨hi, hb, ?_⟩
        cases hs : P.shared with
        | nil => rfl
        | cons b shared =>
            cases b with
            | nil => exact absurd rfl (nonempty [] (wf.shared_length [] (by simp [hs])))
            | cons x items => exact absurd hs (other x items shared)

/-- A client that is given nothing sees nothing. -/
theorem visible_of_get_none {size : Nat} (pos : 0 < size) {t : ι} {P : Pool ι α}
    (wf : WellFormed size P) (h : get t P = none) : P.visible t = [] := by
  obtain ⟨items, buckets, shared⟩ := get_none pos wf h
  simp [Pool.visible, Local.elems, items, buckets, shared]

theorem visible_closeBucket (t : ι) (P : Pool ι α) :
    (closeBucket t P).visible t = P.visible t := by
  simp [closeBucket, Pool.visible, Local.elems]

theorem visible_share (t : ι) (P : Pool ι α) : (share t P).visible t = P.visible t := by
  simp [share, Pool.visible, Local.elems]

theorem visible_spill (size bound : Nat) (t : ι) (P : Pool ι α) :
    (spill size bound t P).visible t = P.visible t := by
  simp only [spill]
  split
  · split <;> simp only [visible_share, visible_closeBucket]
  · rfl

theorem wellFormed_closeBucket {size : Nat} {t : ι} {P : Pool ι α} (wf : WellFormed size P)
    (full : (P.locals t).items.length = size) : WellFormed size (closeBucket t P) := by
  have same := visible_closeBucket t P
  refine wellFormed_replace wf (Nat.zero_le _) ?_ wf.shared_length ?_ ?_
  · intro b mem
    rcases List.mem_cons.mp mem with rfl | mem
    · exact full
    · exact wf.bucket_length t b mem
  · simpa [Pool.visible, closeBucket, Local.elems] using visible_nodup wf t
  · intro s ne y mem
    refine visible_apart wf ne y ?_
    rw [← same]
    simpa [Pool.visible, closeBucket] using mem

theorem wellFormed_share {size : Nat} {t : ι} {P : Pool ι α} (wf : WellFormed size P) :
    WellFormed size (share t P) := by
  have same := visible_share t P
  refine wellFormed_replace wf (wf.items_le t) (by simp) ?_ ?_ ?_
  · intro b mem
    rcases List.mem_append.mp mem with mem | mem
    · exact wf.bucket_length t b mem
    · exact wf.shared_length b mem
  · simpa [Pool.visible, share, Local.elems] using visible_nodup wf t
  · intro s ne y mem
    refine visible_apart wf ne y ?_
    rw [← same]
    simpa [Pool.visible, share] using mem

theorem wellFormed_spill {size : Nat} (bound : Nat) (t : ι) {P : Pool ι α}
    (wf : WellFormed size P) :
    WellFormed size (spill size bound t P) := by
  simp only [spill]
  split
  next full =>
    split
    · exact wellFormed_share (wellFormed_closeBucket wf full)
    · exact wellFormed_closeBucket wf full
  next => exact wf

/-- After spilling there is room for another local item. -/
theorem spill_room {size : Nat} (bound : Nat) (pos : 0 < size) {t : ι} {P : Pool ι α}
    (wf : WellFormed size P) : ((spill size bound t P).locals t).items.length < size := by
  have le := wf.items_le t
  simp only [spill]
  split
  · split <;> simpa [share, closeBucket] using pos
  · omega

/-- A change of one client's list and of the stack that keeps what the client
sees moves no item. -/
private theorem holds_of_visible {t : ι} {P : Pool ι α} {l : Local α} {shared : List (List α)}
    (same : l.elems ++ shared.flatten = P.visible t) (y : α) :
    Pool.Holds { P.setLocal t l with shared := shared } y ↔ P.Holds y := by
  rw [holds_replace, ← List.mem_append, same, holds_split P t y]
  rfl

theorem holds_closeBucket (t : ι) (P : Pool ι α) (y : α) :
    (closeBucket t P).Holds y ↔ P.Holds y := by
  have same := visible_closeBucket t P
  simp only [Pool.visible, closeBucket, setLocal_same, setLocal_shared] at same
  exact holds_of_visible same y

theorem holds_share (t : ι) (P : Pool ι α) (y : α) : (share t P).Holds y ↔ P.Holds y :=
  holds_of_visible (by simpa [Pool.visible, share] using visible_share t P) y

theorem holds_spill (size bound : Nat) (t : ι) (P : Pool ι α) (y : α) :
    (spill size bound t P).Holds y ↔ P.Holds y := by
  simp only [spill]
  split
  · split
    · exact (holds_share t _ y).trans (holds_closeBucket t P y)
    · exact holds_closeBucket t P y
  · rfl

/-- Returning an item puts it in front of the client's visible list. -/
theorem visible_put (size bound : Nat) (t : ι) (x : α) (P : Pool ι α) :
    (put size bound t x P).visible t = x :: P.visible t := by
  rw [← visible_spill size bound t P]
  simp [put, push, Pool.visible, Local.elems]

theorem push_spec {size : Nat} {t : ι} {P : Pool ι α} {x : α} (wf : WellFormed size P)
    (room : (P.locals t).items.length < size) (fresh : ¬ P.Holds x) :
    WellFormed size (push t x P) ∧ ∀ y, (push t x P).Holds y ↔ P.Holds y ∨ y = x := by
  have notMem : x ∉ P.visible t := fun mem => fresh ((holds_split P t x).mpr (.inl mem))
  constructor
  · refine wellFormed_replace wf room (wf.bucket_length t) wf.shared_length ?_ ?_
    · exact List.nodup_cons.mpr ⟨notMem, visible_nodup wf t⟩
    · intro s ne y mem hs
      have cons : y = x ∨ y ∈ P.visible t := by
        simpa [Pool.visible, Local.elems, or_assoc] using mem
      rcases cons with rfl | mem
      · exact fresh (.inl ⟨s, hs⟩)
      · exact visible_apart wf ne y mem hs
  · intro y
    rw [push, show P.setLocal t { P.locals t with items := x :: (P.locals t).items } =
      { P.setLocal t { P.locals t with items := x :: (P.locals t).items } with
        shared := P.shared } from rfl, holds_replace, holds_split P t y]
    rw [List.mem_append,
      show (y ∈ Local.elems { P.locals t with items := x :: (P.locals t).items } ↔
      y = x ∨ y ∈ (P.locals t).elems) by simp [Local.elems]]
    constructor
    · rintro (((mem | mem) | mem) | mem)
      · exact .inr mem
      · exact .inl (.inl (.inl mem))
      · exact .inl (.inl (.inr mem))
      · exact .inl (.inr mem)
    · rintro (((mem | mem) | mem) | mem)
      · exact .inl (.inl (.inr mem))
      · exact .inl (.inr mem)
      · exact .inr mem
      · exact .inl (.inl (.inl mem))

theorem put_spec {size : Nat} (bound : Nat) (pos : 0 < size) {t : ι} {P : Pool ι α} {x : α}
    (wf : WellFormed size P) (fresh : ¬ P.Holds x) :
    WellFormed size (put size bound t x P) ∧
      ∀ y, (put size bound t x P).Holds y ↔ P.Holds y ∨ y = x := by
  have room : ((spill size bound t P).locals t).items.length < size := spill_room bound pos wf
  obtain ⟨wf', holds⟩ := push_spec (wellFormed_spill bound t wf) room
    (fun held => fresh ((holds_spill size bound t P x).mp held))
  exact ⟨wf', fun y => (holds y).trans (or_congr_left (holds_spill size bound t P y))⟩

/-! ### Fetching a bucket -/

/-- The first half of `get`: an empty client opens a bucket, its own or a shared one. -/
def refill (t : ι) (P : Pool ι α) : Option (Pool ι α) :=
  match (P.locals t).items with
  | _ :: _ => some P
  | [] =>
    match (P.locals t).buckets with
    | b :: buckets => some (P.setLocal t { items := b, buckets := buckets })
    | [] =>
      match P.shared with
      | b :: shared =>
          some { P.setLocal t { items := b, buckets := [] } with shared := shared }
      | [] => none

/-- The ways `refill` can open a bucket. -/
theorem refill_cases {t : ι} {P P' : Pool ι α} (h : refill t P = some P') :
    (P' = P ∧ (P.locals t).items ≠ []) ∨
    (P.locals t).items = [] ∧ ∃ b,
      ((∃ buckets, (P.locals t).buckets = b :: buckets ∧
        P' = P.setLocal t { items := b, buckets := buckets }) ∨
      (∃ shared, (P.locals t).buckets = [] ∧ P.shared = b :: shared ∧
        P' = { P.setLocal t { items := b, buckets := [] } with shared := shared })) := by
  simp only [refill] at h
  split at h
  next x items hi =>
    cases h
    exact .inl ⟨rfl, by rw [hi]; simp⟩
  next hi =>
    split at h
    next b buckets hb =>
      cases h
      exact .inr ⟨hi, b, .inl ⟨buckets, hb, rfl⟩⟩
    next hb =>
      split at h
      next b shared hs =>
        cases h
        exact .inr ⟨hi, b, .inr ⟨shared, hb, hs, rfl⟩⟩
      next => cases h

theorem refill_none {t : ι} {P : Pool ι α} (h : refill t P = none) :
    (P.locals t).items = [] ∧ (P.locals t).buckets = [] ∧ P.shared = [] := by
  simp only [refill] at h
  split at h
  · cases h
  next hi =>
    split at h
    · cases h
    next hb =>
      split at h
      · cases h
      next hs => exact ⟨hi, hb, hs⟩

/-- Opening a bucket moves no item. -/
theorem refill_spec {size : Nat} {t : ι} {P P' : Pool ι α} (wf : WellFormed size P)
    (h : refill t P = some P') : WellFormed size P' ∧ ∀ y, P'.Holds y ↔ P.Holds y := by
  rcases refill_cases h with ⟨rfl, _⟩ | ⟨hi, b, ⟨buckets, hb, rfl⟩ | ⟨shared, hb, hs, rfl⟩⟩
  · exact ⟨wf, fun _ => Iff.rfl⟩
  · have same : Local.elems { items := b, buckets := buckets } ++ P.shared.flatten =
        P.visible t := by simp [Pool.visible, Local.elems, hi, hb]
    refine ⟨wellFormed_replace wf ?_ ?_ wf.shared_length (same ▸ visible_nodup wf t) ?_,
      holds_of_visible same⟩
    · exact Nat.le_of_eq (wf.bucket_length t b (by simp [hb]))
    · exact fun c mem => wf.bucket_length t c (by simp [hb, mem])
    · intro s ne y mem
      rw [← List.mem_append, same] at mem
      exact visible_apart wf ne y mem
  · have same : Local.elems { items := b, buckets := [] } ++ shared.flatten =
        P.visible t := by simp [Pool.visible, Local.elems, hi, hb, hs]
    refine ⟨wellFormed_replace wf ?_ (by simp) ?_ (same ▸ visible_nodup wf t) ?_,
      holds_of_visible same⟩
    · exact Nat.le_of_eq (wf.shared_length b (by simp [hs]))
    · exact fun c mem => wf.shared_length c (by simp [hs, mem])
    · intro s ne y mem
      rw [← List.mem_append, same] at mem
      exact visible_apart wf ne y mem

/-- A successful refill opens a bucket with an item. -/
theorem exists_of_refill {size : Nat} (pos : 0 < size) {t : ι} {P P' : Pool ι α}
    (wf : WellFormed size P) (h : refill t P = some P') :
    ∃ x items, (P'.locals t).items = x :: items := by
  have nonempty : ∀ b : List α, b.length = size → b ≠ [] := by
    rintro _ len rfl
    exact absurd len (Nat.ne_of_lt pos)
  refine List.exists_cons_of_ne_nil ?_
  rcases refill_cases h with ⟨rfl, ne⟩ | ⟨_, b, ⟨buckets, hb, rfl⟩ | ⟨shared, _, hs, rfl⟩⟩
  · exact ne
  · rw [setLocal_same]
    exact nonempty b (wf.bucket_length t b (by simp [hb]))
  · simp only [setLocal_same]
    exact nonempty b (wf.shared_length b (by simp [hs]))

/-- `get` takes the first item of the bucket that `refill` opens. -/
theorem get_of_refill {t : ι} {P P' : Pool ι α} {x : α} {items : List α}
    (h : refill t P = some P') (hi : (P'.locals t).items = x :: items) :
    get t P = some (x, P'.setLocal t { P'.locals t with items := items }) := by
  rcases refill_cases h with ⟨rfl, _⟩ | ⟨none, b, ⟨buckets, hb, rfl⟩ | ⟨shared, hb, hs, rfl⟩⟩
  · simp only [get, hi]
  · rw [setLocal_same] at hi
    obtain rfl : b = x :: items := hi
    simp [get, none, hb, Pool.setLocal]
  · simp only [setLocal_same] at hi
    obtain rfl : b = x :: items := hi
    simp [get, none, hb, hs, Pool.setLocal]

theorem get_of_refill_none {t : ι} {P : Pool ι α} (h : refill t P = none) : get t P = none := by
  obtain ⟨hi, hb, hs⟩ := refill_none h
  simp only [get, hi, hb, hs]

/-- With an open bucket `get` takes its first item. -/
theorem get_of_items {t : ι} {P : Pool ι α} {x : α} {items : List α}
    (h : (P.locals t).items = x :: items) :
    get t P = some (x, P.setLocal t { P.locals t with items := items }) := by
  simp only [get, h]

theorem visible_refill {t : ι} {P P' : Pool ι α} (h : refill t P = some P') :
    P'.visible t = P.visible t := by
  rcases refill_cases h with ⟨rfl, _⟩ | ⟨hi, b, ⟨buckets, hb, rfl⟩ | ⟨shared, hb, hs, rfl⟩⟩
  · rfl
  · simp [Pool.visible, Local.elems, hi, hb]
  · simp [Pool.visible, Local.elems, hi, hb, hs]

omit [DecidableEq ι] in
/-- A client that is alone sees everything. -/
theorem mem_visible_of_alone {t : ι} {P : Pool ι α}
    (alone : ∀ s, s ≠ t → (P.locals s).elems = []) (y : α) : P.Holds y ↔ y ∈ P.visible t := by
  rw [holds_split P t y]
  refine or_iff_left ?_
  rintro ⟨s, ne, mem⟩
  rw [alone s ne] at mem
  cases mem

/-! ### The buckets of a pool -/

def Pool.IsBucket (P : Pool ι α) (b : List α) : Prop :=
  (∃ t, b ∈ (P.locals t).buckets) ∨ b ∈ P.shared

omit [DecidableEq ι] in
theorem isBucket_length {size : Nat} {P : Pool ι α} (wf : WellFormed size P) {b : List α}
    (hb : P.IsBucket b) : b.length = size := by
  rcases hb with ⟨t, mem⟩ | mem
  · exact wf.bucket_length t b mem
  · exact wf.shared_length b mem

omit [DecidableEq ι] in
theorem isBucket_holds {P : Pool ι α} {b : List α} (hb : P.IsBucket b) {x : α} (hx : x ∈ b) :
    P.Holds x := by
  rcases hb with ⟨t, mem⟩ | mem
  · exact .inl ⟨t, List.mem_append_right _ (List.mem_flatten.mpr ⟨b, mem, hx⟩)⟩
  · exact .inr (List.mem_flatten.mpr ⟨b, mem, hx⟩)

omit [DecidableEq ι] in
/-- A client's items are in no bucket. -/
theorem not_mem_bucket {size : Nat} {P : Pool ι α} (wf : WellFormed size P) {t : ι} {x : α}
    (hx : x ∈ (P.locals t).items) {b : List α} (hb : P.IsBucket b) : x ∉ b := by
  intro here
  have mine : x ∈ (P.locals t).elems := List.mem_append_left _ hx
  rcases hb with ⟨s, mem⟩ | mem
  · have inBucket := List.mem_flatten.mpr ⟨_, mem, here⟩
    by_cases hs : s = t
    · subst hs
      exact (List.nodup_append.mp (wf.nodup_local s)).2.2 x hx x inBucket rfl
    · exact wf.apart_local t s (Ne.symm hs) x mine (List.mem_append_right _ inBucket)
  · exact wf.apart_shared t x mine (List.mem_flatten.mpr ⟨_, mem, here⟩)

omit [DecidableEq ι] in
theorem items_not_bucket {size : Nat} {P : Pool ι α} (wf : WellFormed size P) {t : ι}
    (ne : (P.locals t).items ≠ []) : ¬ P.IsBucket (P.locals t).items := by
  obtain ⟨x, items, hi⟩ := List.exists_cons_of_ne_nil ne
  have here : x ∈ (P.locals t).items := by rw [hi]; exact List.mem_cons_self
  exact fun hb => not_mem_bucket wf here hb here

/-- An item of a list of lists without repetition is in one of them. -/
theorem eq_of_mem_flatten {bs : List (List α)} (nodup : bs.flatten.Nodup) {b c : List α} {x : α}
    (hb : b ∈ bs) (hc : c ∈ bs) (inB : x ∈ b) (inC : x ∈ c) : b = c := by
  by_contra ne
  have apart := (List.nodup_flatten.mp nodup).2
  have symm : Std.Symm (@List.Disjoint α) := ⟨fun _ _ disjoint _ mem mem' => disjoint mem' mem⟩
  exact apart.forall hb hc ne inB inC

omit [DecidableEq ι] in
/-- An item is in one bucket at most. -/
theorem bucket_eq {size : Nat} {P : Pool ι α} (wf : WellFormed size P) {b c : List α} {x : α}
    (hb : P.IsBucket b) (hc : P.IsBucket c) (inB : x ∈ b) (inC : x ∈ c) : b = c := by
  have local_ : ∀ {t d}, d ∈ (P.locals t).buckets → x ∈ d → x ∈ (P.locals t).elems :=
    fun mem inD => List.mem_append_right _ (List.mem_flatten.mpr ⟨_, mem, inD⟩)
  have shared : ∀ {d}, d ∈ P.shared → x ∈ d → x ∈ P.shared.flatten :=
    fun mem inD => List.mem_flatten.mpr ⟨_, mem, inD⟩
  rcases hb with ⟨t, hb⟩ | hb
  · rcases hc with ⟨s, hc⟩ | hc
    · by_cases eq : s = t
      · subst eq
        exact eq_of_mem_flatten (List.nodup_append.mp (wf.nodup_local s)).2.1 hb hc inB inC
      · exact absurd (local_ hb inB) (wf.apart_local s t eq x (local_ hc inC))
    · exact absurd (shared hc inC) (wf.apart_shared t x (local_ hb inB))
  · rcases hc with ⟨s, hc⟩ | hc
    · exact absurd (shared hb inB) (wf.apart_shared s x (local_ hc inC))
    · exact eq_of_mem_flatten wf.nodup_shared hb hc inB inC

theorem isBucket_setLocal {P : Pool ι α} {t : ι} {l : Local α} {shared : List (List α)}
    {b : List α} : Pool.IsBucket { P.setLocal t l with shared := shared } b ↔
      (b ∈ l.buckets ∨ b ∈ shared) ∨ ∃ s, s ≠ t ∧ b ∈ (P.locals s).buckets := by
  simp only [Pool.IsBucket]
  constructor
  · rintro (⟨s, hs⟩ | h)
    · by_cases eq : s = t
      · subst eq
        simp only [setLocal_same] at hs
        exact .inl (.inl hs)
      · simp only [setLocal_other _ _ eq] at hs
        exact .inr ⟨s, eq, hs⟩
    · exact .inl (.inr h)
  · rintro ((h | h) | ⟨s, ne, hs⟩)
    · exact .inl ⟨t, by simpa using h⟩
    · exact .inr h
    · exact .inl ⟨s, by simpa [ne] using hs⟩

/-- The buckets of a client and the shared ones are replaced by buckets of the pool. -/
theorem isBucket_of_setLocal {P : Pool ι α} {t : ι} {l : Local α} {shared : List (List α)}
    (own : ∀ b, b ∈ l.buckets → P.IsBucket b) (stack : ∀ b, b ∈ shared → P.IsBucket b) {b : List α}
    (hb : Pool.IsBucket { P.setLocal t l with shared := shared } b) : P.IsBucket b := by
  rcases isBucket_setLocal.mp hb with (mem | mem) | ⟨s, _, mem⟩
  · exact own b mem
  · exact stack b mem
  · exact .inl ⟨s, mem⟩

omit [DecidableEq ι] in
theorem isBucket_split (P : Pool ι α) (t : ι) (b : List α) :
    P.IsBucket b ↔ (b ∈ (P.locals t).buckets ∨ b ∈ P.shared) ∨
      ∃ s, s ≠ t ∧ b ∈ (P.locals s).buckets := by
  simp only [Pool.IsBucket]
  constructor
  · rintro (⟨s, hs⟩ | h)
    · by_cases eq : s = t
      · subst eq
        exact .inl (.inl hs)
      · exact .inr ⟨s, eq, hs⟩
    · exact .inl (.inr h)
  · rintro ((h | h) | ⟨s, _, hs⟩)
    · exact .inl ⟨t, h⟩
    · exact .inr h
    · exact .inl ⟨s, hs⟩

theorem isBucket_closeBucket (t : ι) (P : Pool ι α) (b : List α) :
    (closeBucket t P).IsBucket b ↔ b = (P.locals t).items ∨ P.IsBucket b := by
  rw [isBucket_split P t, closeBucket]
  refine isBucket_setLocal.trans ?_
  simp only [List.mem_cons, or_assoc]

theorem isBucket_share (t : ι) (P : Pool ι α) (b : List α) :
    (share t P).IsBucket b ↔ P.IsBucket b := by
  rw [isBucket_split P t, share]
  refine isBucket_setLocal.trans ?_
  simp only [List.not_mem_nil, false_or, List.mem_append]

theorem isBucket_items {P : Pool ι α} {t : ι} {items : List α} {b : List α} :
    (P.setLocal t { P.locals t with items := items }).IsBucket b ↔ P.IsBucket b := by
  rw [isBucket_split P t]
  exact isBucket_setLocal

theorem refill_opened {t : ι} {P P' : Pool ι α} (h : refill t P = some P')
    (hi : (P.locals t).items = []) : P.IsBucket (P'.locals t).items := by
  rcases refill_cases h with ⟨_, ne⟩ | ⟨_, c, ⟨buckets, hb, rfl⟩ | ⟨shared, hb, hs, rfl⟩⟩
  · exact absurd hi ne
  · exact .inl ⟨t, by simp [hb]⟩
  · exact .inr (by simp [hs])

theorem refill_other {t s : ι} {P P' : Pool ι α} (h : refill t P = some P') (ne : s ≠ t) :
    P'.locals s = P.locals s := by
  rcases refill_cases h with ⟨rfl, _⟩ | ⟨_, c, ⟨buckets, _, rfl⟩ | ⟨shared, _, _, rfl⟩⟩
  · rfl
  · exact setLocal_other P _ ne
  · exact setLocal_other P _ ne

theorem put_other {t s : ι} (size bound : Nat) (x : α) (P : Pool ι α) (ne : s ≠ t) :
    (put size bound t x P).locals s = P.locals s := by
  simp only [put, push, spill, share, closeBucket]
  split
  · split <;> simp [ne]
  · simp [ne]

/-- Opening a bucket removes it from the buckets. -/
theorem refill_isBucket {size : Nat} (pos : 0 < size) {t : ι} {P P' : Pool ι α}
    (wf : WellFormed size P) (h : refill t P = some P') (hi : (P.locals t).items = [])
    (b : List α) : P'.IsBucket b ↔ P.IsBucket b ∧ b ≠ (P'.locals t).items := by
  have wf' := (refill_spec wf h).1
  have split : P.IsBucket b ↔ b = (P'.locals t).items ∨ P'.IsBucket b := by
    rcases refill_cases h with ⟨_, ne⟩ | ⟨_, c, ⟨buckets, hb, rfl⟩ | ⟨shared, hb, hs, rfl⟩⟩
    · exact absurd hi ne
    · rw [isBucket_split P t, show (P.setLocal t { items := c, buckets := buckets }).IsBucket b ↔ _
        from isBucket_setLocal]
      simp only [hb, List.mem_cons, setLocal_same, or_assoc]
    · rw [isBucket_split P t, isBucket_setLocal]
      simp only [hb, hs, List.mem_cons, setLocal_same, List.not_mem_nil, false_or, or_assoc]
  have ne : (P'.locals t).items ≠ [] := by
    intro nil
    have len := isBucket_length wf (refill_opened h hi)
    rw [nil, List.length_nil] at len
    omega
  rw [split]
  constructor
  · exact fun mem => ⟨.inr mem, fun eq => items_not_bucket wf' ne (eq ▸ mem)⟩
  · rintro ⟨eq | mem, other⟩
    · exact absurd eq other
    · exact mem

/-- Full buckets are told apart by their items, so none is listed twice. -/
theorem nodup_of_flatten (pos : 0 < size) {bs : List (List α)} (len : ∀ b, b ∈ bs → b.length = size)
    (nodup : bs.flatten.Nodup) : bs.Nodup := by
  refine (List.nodup_flatten.mp nodup).2.imp_of_mem fun {b c} hb _ disjoint eq => ?_
  subst eq
  cases b with
  | nil => exact absurd (len [] hb) (Nat.ne_of_lt pos)
  | cons x _ => exact disjoint List.mem_cons_self List.mem_cons_self

omit [DecidableEq ι] in
/-- The buckets of a client are different, and different from those elsewhere. -/
theorem buckets_apart {size : Nat} (pos : 0 < size) {P : Pool ι α} (wf : WellFormed size P)
    (t : ι) : (P.locals t).buckets.Nodup ∧
      ∀ b, b ∈ (P.locals t).buckets → ∀ c, c ∈ P.shared ∨ (∃ s, s ≠ t ∧ c ∈ (P.locals s).buckets) →
        c ≠ b := by
  constructor
  · exact nodup_of_flatten pos (wf.bucket_length t) (List.nodup_append.mp (wf.nodup_local t)).2.1
  · rintro b hb c hc rfl
    have nonempty : c ≠ [] := by
      rintro rfl
      exact absurd (wf.bucket_length t [] hb) (Nat.ne_of_lt pos)
    obtain ⟨x, rest, rfl⟩ := List.exists_cons_of_ne_nil nonempty
    have mine : x ∈ (P.locals t).elems :=
      List.mem_append_right _ (List.mem_flatten.mpr ⟨_, hb, List.mem_cons_self⟩)
    rcases hc with hc | ⟨s, ne, hc⟩
    · exact wf.apart_shared t x mine (List.mem_flatten.mpr ⟨_, hc, List.mem_cons_self⟩)
    · exact wf.apart_local t s ne.symm x mine
        (List.mem_append_right _ (List.mem_flatten.mpr ⟨_, hc, List.mem_cons_self⟩))

theorem get_other {t s : ι} {P P' : Pool ι α} {x : α} (h : get t P = some (x, P')) (ne : s ≠ t) :
    P'.locals s = P.locals s := by
  rcases get_cases h with ⟨l, rfl, _⟩ | ⟨_, _, _, _, rfl⟩ | ⟨_, _, _, _, rfl⟩
  · exact setLocal_other P _ ne
  · exact setLocal_other P _ ne
  · exact setLocal_other P _ ne

/-! ### Counting -/

/-- The buckets of the clients `ts` and the shared ones. -/
def Pool.bucketsOf (P : Pool ι α) (ts : List ι) : List (List α) :=
  ts.flatMap (fun t => (P.locals t).buckets) ++ P.shared

/-- All items of the clients `ts` and of the shared buckets. -/
def Pool.heldBy (P : Pool ι α) (ts : List ι) : List α :=
  ts.flatMap (fun t => (P.locals t).elems) ++ P.shared.flatten

omit [DecidableEq ι] in
theorem heldBy_holds {P : Pool ι α} {ts : List ι} {x : α} (hx : x ∈ P.heldBy ts) :
    P.Holds x := by
  rcases List.mem_append.mp hx with mem | mem
  · obtain ⟨t, _, mem⟩ := List.mem_flatMap.mp mem
    exact .inl ⟨t, mem⟩
  · exact .inr mem

omit [DecidableEq ι] in
theorem heldBy_nodup {size : Nat} {P : Pool ι α} (wf : WellFormed size P) {ts : List ι}
    (nodup : ts.Nodup) : (P.heldBy ts).Nodup := by
  refine List.nodup_append.mpr ⟨?_, wf.nodup_shared, ?_⟩
  · refine List.nodup_flatMap.mpr ⟨fun t _ => wf.nodup_local t, nodup.imp ?_⟩
    intro s t ne x hs ht
    exact wf.apart_local s t ne x hs ht
  · rintro x hx y hy rfl
    obtain ⟨t, _, mem⟩ := List.mem_flatMap.mp hx
    exact wf.apart_shared t x mem hy

theorem length_flatten_of_length {size : Nat} {bs : List (List α)}
    (len : ∀ b, b ∈ bs → b.length = size) : bs.flatten.length = bs.length * size := by
  induction bs with
  | nil => simp
  | cons b bs ih =>
      have rest := ih fun c hc => len c (List.mem_cons_of_mem _ hc)
      simp only [List.flatten_cons, List.length_append, List.length_cons, rest,
        len b List.mem_cons_self, Nat.succ_mul]
      omega

/-- Lists of equal length are cut out of their concatenation in one way. -/
theorem eq_of_flatten {size : Nat} (pos : 0 < size) {bs cs : List (List α)}
    (hb : ∀ b, b ∈ bs → b.length = size) (hc : ∀ c, c ∈ cs → c.length = size)
    (flat : bs.flatten = cs.flatten) : bs = cs := by
  have count : bs.length = cs.length := by
    have lengths := congrArg List.length flat
    rw [length_flatten_of_length hb, length_flatten_of_length hc] at lengths
    exact Nat.eq_of_mul_eq_mul_right pos lengths
  refine List.eq_iff_flatten_eq.mpr ⟨flat, ?_⟩
  rw [List.map_eq_replicate_iff.mpr hb, List.map_eq_replicate_iff.mpr hc, count]

omit [DecidableEq ι] in
/-- Every bucket counts `size` items. -/
theorem length_heldBy {size : Nat} {P : Pool ι α} (wf : WellFormed size P) (ts : List ι) :
    (P.heldBy ts).length =
      (ts.map fun t => (P.locals t).items.length).sum + (P.bucketsOf ts).length * size := by
  have shared := length_flatten_of_length wf.shared_length
  simp only [Pool.heldBy, Pool.bucketsOf, List.length_append, shared, Nat.add_mul]
  induction ts with
  | nil => simp
  | cons t ts ih =>
      have local_ := length_flatten_of_length (wf.bucket_length t)
      simp only [List.flatMap_cons, List.length_append, Local.elems, local_, List.map_cons,
        List.sum_cons, Nat.add_mul] at ih ⊢
      omega

end BucketPool
