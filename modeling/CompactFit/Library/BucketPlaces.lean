import CompactFit.Library.BucketPool
import Mathlib.Algebra.Order.BigOperators.Group.Finset

/-!
Where a bucketed pool keeps an item: among a client's items, in one of its buckets, or
in a shared bucket. A well-formed pool keeps every item in one place only, and a client
that finds nothing is short of what the others keep.
-/

namespace BucketPool

variable {ι α : Type}

inductive Place (ι α : Type) where
  | items (t : ι)
  | bucket (t : ι) (b : List α)
  | shared (b : List α)

def Pool.At (P : Pool ι α) (x : α) : Place ι α → Prop
  | .items t => x ∈ (P.locals t).items
  | .bucket t b => b ∈ (P.locals t).buckets ∧ x ∈ b
  | .shared b => b ∈ P.shared ∧ x ∈ b

variable {size : Nat} {P : Pool ι α} {x : α}

theorem at_bucket_mem {t : ι} {b : List α} (h : P.At x (.bucket t b)) :
    x ∈ (P.locals t).buckets.flatten :=
  List.mem_flatten.mpr ⟨b, h.1, h.2⟩

theorem at_shared_mem {b : List α} (h : P.At x (.shared b)) : x ∈ P.shared.flatten :=
  List.mem_flatten.mpr ⟨b, h.1, h.2⟩

theorem exists_at : (∃ p, P.At x p) ↔ P.Holds x := by
  constructor
  · rintro ⟨p, h⟩
    cases p with
    | items t => exact .inl ⟨t, List.mem_append_left _ h⟩
    | bucket t b => exact .inl ⟨t, List.mem_append_right _ (at_bucket_mem h)⟩
    | shared b => exact .inr (at_shared_mem h)
  · rintro (⟨t, mem⟩ | mem)
    · rcases List.mem_append.mp mem with mem | mem
      · exact ⟨.items t, mem⟩
      · obtain ⟨b, hb, hx⟩ := List.mem_flatten.mp mem
        exact ⟨.bucket t b, hb, hx⟩
    · obtain ⟨b, hb, hx⟩ := List.mem_flatten.mp mem
      exact ⟨.shared b, hb, hx⟩

theorem at_unique (wf : WellFormed size P) {p q : Place ι α} (hp : P.At x p) (hq : P.At x q) :
    p = q := by
  have client : ∀ {s t}, x ∈ (P.locals s).elems → x ∈ (P.locals t).elems → s = t := by
    intro s t hs ht
    by_contra ne
    exact wf.apart_local s t ne x hs ht
  have items : ∀ {s}, x ∈ (P.locals s).items → x ∈ (P.locals s).elems :=
    fun mem => List.mem_append_left _ mem
  have bucket : ∀ {s b}, P.At x (.bucket s b) → x ∈ (P.locals s).elems :=
    fun h => List.mem_append_right _ (at_bucket_mem h)
  have apart : ∀ {s b}, x ∈ (P.locals s).items → ¬ P.At x (.bucket s b) := by
    intro s b mem h
    exact (List.nodup_append.mp (wf.nodup_local s)).2.2 x mem x (at_bucket_mem h) rfl
  cases p with
  | items s =>
      cases q with
      | items t => rw [client (items hp) (items hq)]
      | bucket t c =>
          have eq := client (items hp) (bucket hq)
          subst eq
          exact absurd hq (apart hp)
      | shared c => exact absurd (at_shared_mem hq) (wf.apart_shared s x (items hp))
  | bucket s b =>
      cases q with
      | items t =>
          have eq := client (bucket hp) (items hq)
          subst eq
          exact absurd hp (apart hq)
      | bucket t c =>
          have eq := client (bucket hp) (bucket hq)
          subst eq
          have nodup := (List.nodup_append.mp (wf.nodup_local s)).2.1
          rw [eq_of_mem_flatten nodup hp.1 hq.1 hp.2 hq.2]
      | shared c => exact absurd (at_shared_mem hq) (wf.apart_shared s x (bucket hp))
  | shared b =>
      cases q with
      | items t => exact absurd (at_shared_mem hp) (wf.apart_shared t x (items hq))
      | bucket t c => exact absurd (at_shared_mem hp) (wf.apart_shared t x (bucket hq))
      | shared c => rw [eq_of_mem_flatten wf.nodup_shared hp.1 hq.1 hp.2 hq.2]

theorem isBucket_nodup (wf : WellFormed size P) {b : List α} (hb : P.IsBucket b) : b.Nodup := by
  rcases hb with ⟨t, mem⟩ | mem
  · have nodup := (List.nodup_append.mp (wf.nodup_local t)).2.1
    exact (List.nodup_flatten.mp nodup).1 b mem
  · exact (List.nodup_flatten.mp wf.nodup_shared).1 b mem

/-! ### What the others keep -/

/-- A client with fewer than `bound` buckets keeps less than `bound` bucketfuls and one
list. -/
theorem elems_length_le (wf : WellFormed size P) {t : ι} {bound : Nat}
    (few : (P.locals t).buckets.length < bound) :
    (P.locals t).elems.length ≤ size * bound := by
  have items := wf.items_le t
  have full := Nat.mul_le_mul_left size (Nat.succ_le_of_lt few)
  rw [Local.elems, List.length_append, length_flatten_of_length (wf.bucket_length t), Nat.mul_comm]
  rw [Nat.mul_succ] at full
  omega

/-- When client `t` finds no item, the other clients keep all of them. -/
theorem card_held_le [DecidableEq α] {P : Pool Nat α} {T t bound : Nat} (pos : 0 < size)
    (wf : WellFormed size P) (few : ∀ u, (P.locals u).buckets.length < bound)
    (idle : ∀ u, T ≤ u → (P.locals u).elems = []) (ht : t < T) (none : get t P = none)
    (s : Finset α) (held : ∀ x ∈ s, P.Holds x) : s.card ≤ (T - 1) * (size * bound) := by
  obtain ⟨items, buckets, shared⟩ := get_none pos wf none
  have sub : s ⊆ ((Finset.range T).erase t).biUnion fun u => (P.locals u).elems.toFinset := by
    intro x hx
    rcases held x hx with ⟨u, mem⟩ | mem
    · refine Finset.mem_biUnion.mpr ⟨u, Finset.mem_erase.mpr ⟨?_, ?_⟩, List.mem_toFinset.mpr mem⟩
      · rintro rfl
        rw [Local.elems, items, buckets] at mem
        cases mem
      · refine Finset.mem_range.mpr (Nat.lt_of_not_le fun ge => ?_)
        rw [idle u ge] at mem
        cases mem
    · rw [shared] at mem
      cases mem
  calc s.card
      ≤ (((Finset.range T).erase t).biUnion fun u => (P.locals u).elems.toFinset).card :=
        Finset.card_le_card sub
    _ ≤ ((Finset.range T).erase t).card * (size * bound) :=
        Finset.card_biUnion_le_card_mul _ _ _ fun u _ =>
          (List.toFinset_card_le _).trans (elems_length_le wf (few u))
    _ = (T - 1) * (size * bound) := by
        rw [Finset.card_erase_of_mem (Finset.mem_range.mpr ht), Finset.card_range]

end BucketPool
