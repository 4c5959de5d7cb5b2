import CompactFit.Library.BucketPool

/-!
Renaming the items of a bucketed pool. The operations look at no item, so they commute with
the renaming.
-/

namespace BucketPool
open Function

variable {ι α β : Type}

def Local.map (f : α → β) (l : Local α) : Local β :=
  { items := l.items.map f, buckets := l.buckets.map (List.map f) }

def Pool.map (f : α → β) (P : Pool ι α) : Pool ι β :=
  { locals := fun t => (P.locals t).map f, shared := P.shared.map (List.map f) }

theorem holds_map (f : α → β) (P : Pool ι α) (y : β) :
    (P.map f).Holds y ↔ ∃ x, P.Holds x ∧ f x = y := by
  have elems : ∀ t, ((P.map f).locals t).elems = (P.locals t).elems.map f := by
    intro t
    rw [Local.elems, Local.elems, List.map_append, List.map_flatten]
    rfl
  have shared : (P.map f).shared.flatten = P.shared.flatten.map f := List.map_flatten.symm
  simp only [Pool.Holds, elems, shared, List.mem_map]
  constructor
  · rintro (⟨t, x, mem, eq⟩ | ⟨x, mem, eq⟩)
    · exact ⟨x, .inl ⟨t, mem⟩, eq⟩
    · exact ⟨x, .inr mem, eq⟩
  · rintro ⟨x, ⟨t, mem⟩ | mem, eq⟩
    · exact .inl ⟨t, x, mem, eq⟩
    · exact .inr ⟨x, mem, eq⟩

variable [DecidableEq ι] (f : α → β)

theorem map_setLocal (P : Pool ι α) (t : ι) (l : Local α) :
    (P.setLocal t l).map f = (P.map f).setLocal t (l.map f) := by
  refine congrArg₂ Pool.mk (funext fun s => ?_) rfl
  by_cases same : s = t
  · subst same
    simp only [Pool.setLocal, update_self]
  · simp only [Pool.setLocal, update_of_ne same, Pool.map]

theorem get_map (t : ι) (P : Pool ι α) :
    get t (P.map f) = (get t P).map fun r => (f r.1, r.2.map f) := by
  have shared : (P.map f).shared = P.shared.map (List.map f) := rfl
  have items : ((P.map f).locals t).items = (P.locals t).items.map f := rfl
  have buckets : ((P.map f).locals t).buckets = (P.locals t).buckets.map (List.map f) := rfl
  cases hi : (P.locals t).items with
  | cons x rest =>
      rw [hi] at items
      rw [get_of_items hi, get_of_items items, Option.map_some, map_setLocal]
      rfl
  | nil =>
      cases hb : (P.locals t).buckets with
      | cons b rest =>
          cases b with
          | nil => simp [get, hi, hb, items, buckets]
          | cons x b => simp [get, hi, hb, items, buckets, map_setLocal, Local.map]
      | nil =>
          cases hs : P.shared with
          | nil => simp [get, hi, hb, hs, items, buckets, shared]
          | cons b rest =>
              cases b with
              | nil => simp [get, hi, hb, hs, items, buckets, shared]
              | cons x b =>
                  have renamed := map_setLocal f P t { items := b, buckets := [] }
                  simp only [get, hi, hb, hs, items, buckets, shared, List.map_nil, List.map_cons,
                    Option.map_some]
                  refine congrArg (fun P' => some (f x, P')) ?_
                  exact congrArg₂ Pool.mk (congrArg Pool.locals renamed).symm rfl

theorem closeBucket_map (t : ι) (P : Pool ι α) :
    closeBucket t (P.map f) = (closeBucket t P).map f := by
  rw [closeBucket, closeBucket, map_setLocal]
  rfl

theorem share_map (t : ι) (P : Pool ι α) : share t (P.map f) = (share t P).map f := by
  have renamed := map_setLocal f P t { P.locals t with buckets := [] }
  refine congrArg₂ Pool.mk (congrArg Pool.locals renamed).symm ?_
  exact (List.map_append ..).symm

theorem spill_map (size bound : Nat) (t : ι) (P : Pool ι α) :
    spill size bound t (P.map f) = (spill size bound t P).map f := by
  have items : ((P.map f).locals t).items.length = (P.locals t).items.length :=
    List.length_map f
  have buckets : ((P.map f).locals t).buckets.length = (P.locals t).buckets.length :=
    List.length_map (List.map f)
  rw [spill, spill, items, buckets]
  split
  · split
    · rw [closeBucket_map, share_map]
    · exact closeBucket_map f t P
  · rfl

theorem put_map (size bound : Nat) (t : ι) (x : α) (P : Pool ι α) :
    put size bound t (f x) (P.map f) = (put size bound t x P).map f := by
  rw [put, put, spill_map, push, push, map_setLocal]
  rfl

end BucketPool
