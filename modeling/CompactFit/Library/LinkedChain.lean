import Mathlib.Tactic.Common

/-!
Singly linked chains threaded through a link function: `Chain link a xs e` says
that following the links from `a` visits exactly the nodes `xs` and ends at `e`.
The lemmas are the ones an intrusive free list needs: concatenation, framing and
redirecting the last link.
-/

namespace LinkedChain

variable {α : Type}

def Chain (link : α → α) : α → List α → α → Prop
  | a, [], e => a = e
  | a, x :: xs, e => a = x ∧ Chain link (link x) xs e

@[simp] theorem chain_nil {link : α → α} {a e : α} : Chain link a [] e ↔ a = e := Iff.rfl

@[simp] theorem chain_cons {link : α → α} {a x e : α} {xs : List α} :
    Chain link a (x :: xs) e ↔ a = x ∧ Chain link (link x) xs e := Iff.rfl

theorem chain_append {link : α → α} {a e : α} {xs ys : List α} :
    Chain link a (xs ++ ys) e ↔ ∃ m, Chain link a xs m ∧ Chain link m ys e := by
  induction xs generalizing a with
  | nil => simp
  | cons x xs ih => simp [ih, and_assoc]

/-- The first `n` nodes from `a` on. -/
def follow (link : α → α) : Nat → α → List α
  | 0, _ => []
  | n + 1, a => a :: follow link n (link a)

theorem follow_chain {link : α → α} {a e : α} {xs : List α} (h : Chain link a xs e) :
    follow link xs.length a = xs := by
  induction xs generalizing a with
  | nil => rfl
  | cons x xs ih =>
      obtain ⟨rfl, rest⟩ := h
      rw [List.length_cons, follow, ih rest]

theorem chain_of_follow {link : α → α} {a : α} {xs : List α}
    (h : follow link xs.length a = xs) : ∃ e, Chain link a xs e := by
  induction xs generalizing a with
  | nil => exact ⟨a, rfl⟩
  | cons x xs ih =>
      rw [List.length_cons, follow, List.cons.injEq] at h
      obtain ⟨rfl, rest⟩ := h
      obtain ⟨e, chain⟩ := ih rest
      exact ⟨e, rfl, chain⟩

/-- A chain ends where the link of its last node leads. -/
theorem chain_end {link : α → α} {a e x : α} {xs : List α} (h : Chain link a (xs ++ [x]) e) :
    e = link x := by
  obtain ⟨_, _, _, last⟩ := chain_append.mp h
  exact last.symm

/-- A chain depends on the links of its own nodes only. -/
theorem chain_congr {link link' : α → α} {a e : α} {xs : List α}
    (agree : ∀ x, x ∈ xs → link' x = link x) (h : Chain link a xs e) : Chain link' a xs e := by
  induction xs generalizing a with
  | nil => exact h
  | cons x xs ih =>
      refine ⟨h.1, ?_⟩
      rw [agree x List.mem_cons_self]
      exact ih (fun y hy => agree y (List.mem_cons_of_mem _ hy)) h.2

/-- Writing the last link of a chain redirects its end and nothing else. -/
theorem chain_redirect {link : α → α} (link' : α → α) {a e x : α} {xs : List α}
    (agree : ∀ y, y ∈ xs → link' y = link y) (h : Chain link a (xs ++ [x]) e) :
    Chain link' a (xs ++ [x]) (link' x) := by
  obtain ⟨m, front, last, _⟩ := chain_append.mp h
  exact chain_append.mpr ⟨m, chain_congr agree front, last, rfl⟩

end LinkedChain
