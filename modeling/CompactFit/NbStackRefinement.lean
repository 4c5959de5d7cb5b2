import CompactFit.NbStack

/-!
The lock-free stack takes effect at its successful compare-and-swaps, and each of them is one
operation of an atomic stack. What a thread has read may be outdated, and its `next` may be a
word of somebody else's data; the version tells, unless it has gone once around.
-/

namespace CompactFit
namespace NbStack
open Function LifoStack LinkedChain

variable {τ : Type}

/-- The word that `t` has read, if it is current, is still the head. -/
structure Seen (l : Layout) (S : System τ) (t : τ) (old : BitVec 64) : Prop where
  le : S.since t ≤ S.updates
  count : (lifoToCount l old).toNat = S.since t % 2 ^ (64 - l.bits)
  current : S.since t = S.updates → S.memory.head = old

/-- The chain that `t` puts leads from `p` to `last` and is its own. -/
structure Putting (S : System τ) (t : τ) (p last : Elem) : Prop where
  nodup : (S.chain t).Nodup
  mine : ∀ x, x ∈ S.chain t → x ∈ S.held t
  ends : (S.chain t).getLast? = some last
  links : Chain S.memory.next p (S.chain t) (S.memory.next last)

/-- What holds of a thread at each place of `nb_stack_put` and `nb_stack_get`. -/
def Attempt (l : Layout) (S : System τ) (t : τ) : Local → Prop
  | .idle | .getHead => True
  | .aborted => False
  | .putHead p last => Putting S t p last
  | .putLink p last old => Putting S t p last ∧ Seen l S t old
  | .putSwap p last old =>
      Putting S t p last ∧ Seen l S t old ∧ S.memory.next last = lifoToElem l old
  | .getNext old => Seen l S t old ∧ lifoToElem l old ≠ 0
  | .getSwap old next => Seen l S t old ∧ lifoToElem l old ≠ 0 ∧
      (S.since t = S.updates → next = S.memory.next (lifoToElem l old))

/-- The head word and the links are the stack `A`. -/
structure Represents (l : Layout) (S : System τ) (A : State τ Elem) : Prop where
  held : A.held = S.held
  chain : Chain S.memory.next (lifoToElem l S.memory.head) A.stack 0

structure Refines (l : Layout) (items : Finset Elem) (S : System τ) (A : State τ Elem) :
    Prop extends Represents l S A where
  count : (lifoToCount l S.memory.head).toNat = S.updates % 2 ^ (64 - l.bits)
  exclusive : Exclusive items A
  usable : ∀ x, x ∈ items → x ≠ 0 ∧ aligned l x = true
  attempt : ∀ t, Attempt l S t (S.locals t)

/-- A step of another thread, as seen by `t`. -/
structure Undisturbed (l : Layout) (S S' : System τ) (t : τ) : Prop where
  since : S'.since t = S.since t
  chain : S'.chain t = S.chain t
  held : ∀ x, x ∈ S.held t → x ∈ S'.held t
  next_held : ∀ x, x ∈ S.held t → S'.memory.next x = S.memory.next x
  head : S.updates < S'.updates ∨ S'.updates = S.updates ∧ S'.memory.head = S.memory.head ∧
    (lifoToElem l S.memory.head ≠ 0 → S'.memory.next (lifoToElem l S.memory.head) =
      S.memory.next (lifoToElem l S.memory.head))

section Attempts
variable {l : Layout} {S S' : System τ} {t : τ} {p last : Elem} {old : BitVec 64}

theorem Seen.undisturbed (seen : Seen l S t old) (calm : Undisturbed l S S' t) :
    Seen l S' t old where
  le := by
    rw [calm.since]
    rcases calm.head with later | ⟨same, _⟩
    · exact Nat.le_of_lt (Nat.lt_of_le_of_lt seen.le later)
    · exact same ▸ seen.le
  count := calm.since ▸ seen.count
  current now := by
    rw [calm.since] at now
    rcases calm.head with later | ⟨same, head, _⟩
    · exact absurd now (Nat.ne_of_lt (Nat.lt_of_le_of_lt seen.le later))
    · exact head.trans (seen.current (now.trans same))

theorem Putting.last_mem (putting : Putting S t p last) : last ∈ S.chain t :=
  List.mem_of_getLast? putting.ends

theorem Putting.undisturbed (putting : Putting S t p last) (calm : Undisturbed l S S' t) :
    Putting S' t p last where
  nodup := calm.chain ▸ putting.nodup
  mine x mem := calm.held x (putting.mine x (calm.chain ▸ mem))
  ends := calm.chain ▸ putting.ends
  links := by
    rw [calm.chain, calm.next_held last (putting.mine last putting.last_mem)]
    exact chain_congr (fun x mem => calm.next_held x (putting.mine x mem)) putting.links

theorem Attempt.undisturbed {c : Local} (attempt : Attempt l S t c)
    (calm : Undisturbed l S S' t) : Attempt l S' t c := by
  cases c with
  | idle | getHead => trivial
  | aborted => exact attempt
  | putHead p last => exact Putting.undisturbed attempt calm
  | putLink p last old => exact ⟨attempt.1.undisturbed calm, attempt.2.undisturbed calm⟩
  | putSwap p last old =>
      obtain ⟨putting, seen, linked⟩ := attempt
      refine ⟨putting.undisturbed calm, seen.undisturbed calm, ?_⟩
      rw [calm.next_held last (putting.mine last putting.last_mem), linked]
  | getNext old => exact ⟨attempt.1.undisturbed calm, attempt.2⟩
  | getSwap old next =>
      obtain ⟨seen, some, read⟩ := attempt
      refine ⟨seen.undisturbed calm, some, fun now => ?_⟩
      rw [calm.since] at now
      rcases calm.head with later | ⟨same, _, link⟩
      · exact absurd now (Nat.ne_of_lt (Nat.lt_of_le_of_lt seen.le later))
      · have head := seen.current (now.trans same)
        rw [head] at link
        rw [read (now.trans same), link some]

end Attempts

/-- A step of `t` that is no update: it writes elements of its own at most. -/
structure Private (S S' : System τ) (t : τ) : Prop where
  held : S'.held = S.held
  head : S'.memory.head = S.memory.head
  updates : S'.updates = S.updates
  next : ∀ x, x ∉ S.held t → S'.memory.next x = S.memory.next x
  others : ∀ u, u ≠ t →
    S'.locals u = S.locals u ∧ S'.since u = S.since u ∧ S'.chain u = S.chain u

/-- A successful compare-and-swap of `t`, which is then through. -/
structure Swapped [DecidableEq τ] (S S' : System τ) (t : τ) (word : BitVec 64) : Prop where
  memory : S'.memory = { S.memory with head := word }
  locals : S'.locals = update S.locals t .idle
  since : S'.since = S.since
  chain : S'.chain = S.chain
  updates : S'.updates = S.updates + 1

namespace Refines
variable [DecidableEq τ] {l : Layout} {items : Finset Elem} {S S' : System τ}
  {A : State τ Elem} {t u : τ} {x : Elem}

omit [DecidableEq τ] in
theorem apart (ok : Refines l items S A) (mine : x ∈ S.held t) : x ∉ A.stack :=
  ok.exclusive.apart t x (ok.held ▸ mine)

omit [DecidableEq τ] in
theorem not_held (ok : Refines l items S A) (mine : x ∈ S.held t) (ne : u ≠ t) :
    x ∉ S.held u :=
  fun other => ne (ok.exclusive.single u t x (ok.held ▸ other) (ok.held ▸ mine))

omit [DecidableEq τ] in
/-- A head word that is not empty designates the top. -/
theorem stack_eq (ok : Refines l items S A) (some : lifoToElem l S.memory.head ≠ 0) :
    ∃ rest, A.stack = lifoToElem l S.memory.head :: rest ∧
      Chain S.memory.next (S.memory.next (lifoToElem l S.memory.head)) rest 0 := by
  have chain := ok.chain
  cases stack : A.stack with
  | nil =>
      rw [stack] at chain
      exact absurd chain some
  | cons x rest =>
      rw [stack] at chain
      obtain ⟨first, links⟩ := chain
      exact ⟨rest, by rw [first], first ▸ links⟩

omit [DecidableEq τ] in
theorem stack_nil (ok : Refines l items S A) (none : lifoToElem l S.memory.head = 0) :
    A.stack = [] := by
  have chain := ok.chain
  cases stack : A.stack with
  | nil => rfl
  | cons x rest =>
      rw [stack] at chain
      have mem : x ∈ A.stack := by rw [stack]; exact List.mem_cons_self
      have zero : x = 0 := chain.1.symm.trans none
      exact absurd zero (ok.usable x (ok.exclusive.mem_of_stack mem)).1

theorem own (ok : Refines l items S A) (step : Private S S' t)
    (self : Attempt l S' t (S'.locals t)) : Refines l items S' A where
  held := ok.held.trans step.held.symm
  chain := by
    rw [step.head]
    exact chain_congr (fun x mem => step.next x fun mine => ok.apart mine mem) ok.chain
  count := by rw [step.head, step.updates, ok.count]
  exclusive := ok.exclusive
  usable := ok.usable
  attempt u := by
    by_cases ne : u = t
    · exact ne ▸ self
    · obtain ⟨locals, since, chain⟩ := step.others u ne
      rw [locals]
      refine (ok.attempt u).undisturbed ⟨since, chain, fun x mem => step.held ▸ mem,
        fun x mem => step.next x fun mine => ok.not_held mine ne mem,
        .inr ⟨step.updates, step.head, fun some => ?_⟩⟩
      obtain ⟨rest, stack, _⟩ := ok.stack_eq some
      exact step.next _ fun mine => ok.apart mine (by rw [stack]; exact List.mem_cons_self)

omit [DecidableEq τ] in
/-- No version comes twice before it has gone once around. -/
theorem current (ok : Refines l items S A) {old : BitVec 64} (seen : Seen l S t old)
    (bound : S.updates - S.since t < 2 ^ (64 - l.bits)) (same : S.memory.head = old) :
    S.since t = S.updates := by
  have count := ok.count
  rw [same, seen.count] at count
  have gap := Nat.sub_mod_eq_zero_of_mod_eq count.symm
  rw [Nat.mod_eq_of_lt bound] at gap
  have le := seen.le
  omega

/-- An update leaves the other threads what they hold and know. -/
theorem attempt_of_swapped (ok : Refines l items S A) {word : BitVec 64}
    (swapped : Swapped S S' t word)
    (held : ∀ u, u ≠ t → ∀ x, x ∈ S.held u → x ∈ S'.held u) (u : τ) :
    Attempt l S' u (S'.locals u) := by
  rw [swapped.locals]
  by_cases same : u = t
  · rw [same, update_self]
    trivial
  · rw [update_of_ne same]
    refine (ok.attempt u).undisturbed ⟨by rw [swapped.since], by rw [swapped.chain], held u same,
      fun x _ => by rw [swapped.memory], .inl ?_⟩
    rw [swapped.updates]
    exact Nat.lt_succ_self _

omit [DecidableEq τ] in
/-- `next` of the top leads to the element below it, or to `NULL`. -/
theorem aligned_below (ok : Refines l items S A) {rest : List Elem} {p q : Elem}
    (stack : A.stack = p :: rest) (links : Chain S.memory.next q rest 0) :
    aligned l q = true := by
  cases rest with
  | nil =>
      rw [chain_nil.mp links]
      exact aligned_zero
  | cons y rest =>
      have mem : y ∈ A.stack := by rw [stack]; exact List.mem_cons_of_mem _ List.mem_cons_self
      rw [links.1]
      exact (ok.usable y (ok.exclusive.mem_of_stack mem)).2

theorem push (ok : Refines l items S A) {p last : Elem} {old : BitVec 64}
    (putting : Putting S t p last) (linked : S.memory.next last = lifoToElem l old)
    (head : S.memory.head = old) (swapped : Swapped S S' t (pack l p (lifoToCount l old + 1)))
    (held : S'.held = release S.held t (S.chain t)) :
    Refines l items S' ⟨S.chain t ++ A.stack, release A.held t (S.chain t)⟩ := by
  have mine : ∀ x, x ∈ S.chain t → x ∈ A.held t := fun x mem => ok.held ▸ putting.mine x mem
  have first : p ∈ S.chain t := by
    have links := putting.links
    have some := putting.last_mem
    cases xs : S.chain t with
    | nil =>
        rw [xs] at some
        cases some
    | cons x xs' =>
        rw [xs] at links
        rw [links.1]
        exact List.mem_cons_self
  have fits := (ok.usable p (ok.exclusive.mem_of_held (mine p first))).2
  refine ⟨⟨by rw [held, ok.held], ?_⟩, ?_, ok.exclusive.push putting.nodup mine, ok.usable,
    ok.attempt_of_swapped swapped fun u ne x mem => ?_⟩
  · rw [swapped.memory, lifoToElem_pack fits]
    refine chain_append.mpr ⟨_, putting.links, ?_⟩
    rw [linked, ← head]
    exact ok.chain
  · rw [swapped.memory, swapped.updates]
    exact lifoToCount_succ (head ▸ ok.count)
  · rwa [held, release_of_ne ne]

theorem pop (ok : Refines l items S A) {old : BitVec 64} {q : Elem} {rest : List Elem}
    (top : A.stack = lifoToElem l old :: rest) (links : Chain S.memory.next q rest 0)
    (head : S.memory.head = old) (swapped : Swapped S S' t (pack l q (lifoToCount l old + 1)))
    (held : S'.held = acquire S.held t (lifoToElem l old)) :
    Refines l items S' ⟨rest, acquire A.held t (lifoToElem l old)⟩ := by
  refine ⟨⟨by rw [held, ok.held], ?_⟩, ?_, ok.exclusive.pop top, ok.usable,
    ok.attempt_of_swapped swapped fun u ne x mem => ?_⟩
  · rw [swapped.memory, lifoToElem_pack (ok.aligned_below top links)]
    exact links
  · rw [swapped.memory, swapped.updates]
    exact lifoToCount_succ (head ▸ ok.count)
  · rwa [held, acquire_of_ne ne]

theorem pass (ok : Refines l items S A) (idle : S.locals t = .idle) (mine : x ∈ S.held t) (u : τ) :
    Refines l items { S with held := acquire (release S.held t [x]) u x }
      ⟨A.stack, acquire (release A.held t [x]) u x⟩ where
  held := by rw [ok.held]
  chain := ok.chain
  count := ok.count
  exclusive := ok.exclusive.pass (ok.held ▸ mine) u
  usable := ok.usable
  attempt v := by
    by_cases ne : v = t
    · rw [ne, idle]
      trivial
    · refine (ok.attempt v).undisturbed ⟨rfl, rfl, fun y mem => mem_acquire.mpr (.inl ?_),
        fun _ _ => rfl, .inr ⟨rfl, rfl, fun _ => rfl⟩⟩
      rwa [release_of_ne ne]

/-- A step that changes nothing but where `t` is and what it knows. -/
theorem goTo (ok : Refines l items S A) {c : Local} (since : τ → Nat) (chain : τ → List Elem)
    (since_ne : ∀ u, u ≠ t → since u = S.since u) (chain_ne : ∀ u, u ≠ t → chain u = S.chain u)
    (self : Attempt l { S.setLocal t c with since := since, chain := chain } t c) :
    Refines l items { S.setLocal t c with since := since, chain := chain } A := by
  refine ok.own (t := t) ⟨rfl, rfl, rfl, fun _ _ => rfl, fun u ne =>
    ⟨update_of_ne ne _ _, since_ne u ne, chain_ne u ne⟩⟩ ?_
  simpa only [System.setLocal, update_self] using self

theorem callPut (ok : Refines l items S A) {p last : Elem} {xs : List Elem}
    (allowed : S.Allowed l (.callPut t p last xs)) :
    Refines l items (S.perform l (.callPut t p last xs)).1 A := by
  obtain ⟨_, nodup, owned, chain, ends⟩ := allowed
  have mine : ∀ x, x ∈ xs → x ∈ S.held t := fun x mem => owned (List.mem_toFinset.mpr mem)
  obtain ⟨front, split⟩ := List.getLast?_eq_some_iff.mp ends
  obtain ⟨e, links⟩ := chain_of_follow chain
  have e_eq : e = S.memory.next last := chain_end (split ▸ links)
  have first : p ∈ xs := by
    cases xs with
    | nil => cases ends
    | cons x xs =>
        rw [links.1]
        exact List.mem_cons_self
  have fits := (ok.usable p (ok.exclusive.mem_of_held (ok.held ▸ mine p first))).2
  have entered : nbStackPut l p last = .putHead p last := by rw [nbStackPut, if_pos fits]
  refine ok.goTo S.since (update S.chain t xs) (fun _ _ => rfl) (fun u ne => update_of_ne ne _ _) ?_
  rw [entered]
  refine ⟨?_, ?_, ?_, ?_⟩ <;> simp only [System.setLocal, update_self]
  exacts [nodup, mine, ends, e_eq ▸ links]

theorem write (ok : Refines l items S A) {v : Elem} (idle : S.locals t = .idle)
    (mine : x ∈ S.held t) : Refines l items { S with memory := S.memory.setNext x v } A := by
  refine ok.own (t := t) ⟨rfl, rfl, rfl, fun y out => update_of_ne ?_ _ _, fun _ _ =>
    ⟨rfl, rfl, rfl⟩⟩ ?_
  · rintro rfl
    exact out mine
  · change Attempt l _ t (S.locals t)
    rw [idle]
    trivial

/-- What a thread knows right after it has read the head word. -/
theorem seen_head (ok : Refines l items S A) (c : Local) :
    Seen l { S.setLocal t c with since := update S.since t S.updates } t S.memory.head where
  le := by simp [System.setLocal]
  count := by simp [ok.count]
  current _ := rfl

theorem putHead (ok : Refines l items S A) {p last : Elem} (place : S.locals t = .putHead p last) :
    ∃ A', Advance A (S.perform l (.access t)).2 A' ∧
      Refines l items (S.perform l (.access t)).1 A' := by
  have putting : Putting S t p last := by simpa [place, Attempt] using ok.attempt t
  have run : S.perform l (.access t) =
      ({ S.setLocal t (.putLink p last S.memory.head) with
        since := update S.since t S.updates }, none) := by
    rw [System.perform, place]
    rfl
  rw [run]
  refine ⟨A, .stutter, ok.goTo _ S.chain (fun u ne => update_of_ne ne _ _)
    (fun _ _ => rfl) ⟨?_, ok.seen_head _⟩⟩
  exact ⟨putting.nodup, putting.mine, putting.ends, putting.links⟩

theorem putLink (ok : Refines l items S A) {p last : Elem} {old : BitVec 64}
    (place : S.locals t = .putLink p last old) :
    ∃ A', Advance A (S.perform l (.access t)).2 A' ∧
      Refines l items (S.perform l (.access t)).1 A' := by
  obtain ⟨putting, seen⟩ : Putting S t p last ∧ Seen l S t old := by
    simpa [place, Attempt] using ok.attempt t
  have run : S.perform l (.access t) =
      ({ S.setLocal t (.putSwap p last old) with
        memory := S.memory.setNext last (lifoToElem l old) }, none) := by
    rw [System.perform, place]
    rfl
  have mine := putting.mine last putting.last_mem
  rw [run]
  refine ⟨A, .stutter, ok.own (t := t) ⟨rfl, rfl, rfl, fun y out => update_of_ne ?_ _ _,
    fun u ne => ⟨update_of_ne ne _ _, rfl, rfl⟩⟩ ?_⟩
  · rintro rfl
    exact out mine
  · simp only [System.setLocal, update_self]
    refine ⟨⟨putting.nodup, putting.mine, putting.ends, ?_⟩, ⟨seen.le, seen.count, seen.current⟩,
      update_self _ _ _⟩
    obtain ⟨front, split⟩ := List.getLast?_eq_some_iff.mp putting.ends
    have nodup := putting.nodup
    have links := putting.links
    simp only [split] at nodup links ⊢
    refine chain_redirect _ (fun y mem => update_of_ne ?_ _ _) links
    rintro rfl
    exact (List.nodup_append.mp nodup).2.2 y mem y List.mem_cons_self rfl

theorem putSwap (ok : Refines l items S A) {p last : Elem} {old : BitVec 64}
    (place : S.locals t = .putSwap p last old) :
    ∃ A', Advance A (S.perform l (.access t)).2 A' ∧
      Refines l items (S.perform l (.access t)).1 A' := by
  obtain ⟨putting, seen, linked⟩ : Putting S t p last ∧ Seen l S t old ∧
      S.memory.next last = lifoToElem l old := by
    simpa [place, Attempt] using ok.attempt t
  by_cases head : S.memory.head = old
  · have run : S.perform l (.access t) =
        ({ S.setLocal t .idle with
            memory := { S.memory with head := pack l p (lifoToCount l old + 1) }
            held := release S.held t (S.chain t)
            updates := S.updates + 1 }, some (.push t (S.chain t))) := by
      rw [System.perform, place]
      simp only [NbStack.access, cmpxchg64, if_pos head]
      rfl
    rw [run]
    refine ⟨_, .move (.push putting.nodup fun x mem => ?_),
      ok.push putting linked head ⟨rfl, rfl, rfl, rfl, rfl⟩ rfl⟩
    exact ok.held ▸ putting.mine x mem
  · have run : S.perform l (.access t) = (S.setLocal t (.putHead p last), none) := by
      rw [System.perform, place]
      simp only [NbStack.access, cmpxchg64, if_neg head]
      rfl
    rw [run]
    exact ⟨A, .stutter, ok.goTo S.since S.chain (fun _ _ => rfl)
      (fun _ _ => rfl) ⟨putting.nodup, putting.mine, putting.ends, putting.links⟩⟩

theorem getHead (ok : Refines l items S A) (place : S.locals t = .getHead) :
    ∃ A', Advance A (S.perform l (.access t)).2 A' ∧
      Refines l items (S.perform l (.access t)).1 A' := by
  by_cases nil : lifoToElem l S.memory.head = 0
  · have run : S.perform l (.access t) =
        ({ S.setLocal t .idle with since := update S.since t S.updates }, some (.empty t)) := by
      rw [System.perform, place]
      simp only [NbStack.access, if_pos nil]
      rfl
    rw [run]
    exact ⟨A, .move (.empty (ok.stack_nil nil)), ok.goTo _ S.chain
      (fun u ne => update_of_ne ne _ _) (fun _ _ => rfl) trivial⟩
  · have run : S.perform l (.access t) =
        ({ S.setLocal t (.getNext S.memory.head) with
          since := update S.since t S.updates }, none) := by
      rw [System.perform, place]
      simp only [NbStack.access, if_neg nil]
      rfl
    rw [run]
    exact ⟨A, .stutter, ok.goTo _ S.chain (fun u ne => update_of_ne ne _ _)
      (fun _ _ => rfl) ⟨ok.seen_head _, nil⟩⟩

theorem getNext (ok : Refines l items S A) {old : BitVec 64}
    (place : S.locals t = .getNext old) :
    ∃ A', Advance A (S.perform l (.access t)).2 A' ∧
      Refines l items (S.perform l (.access t)).1 A' := by
  obtain ⟨seen, some⟩ : Seen l S t old ∧ lifoToElem l old ≠ 0 := by
    simpa [place, Attempt] using ok.attempt t
  have run : S.perform l (.access t) =
      (S.setLocal t (.getSwap old (S.memory.next (lifoToElem l old))), none) := by
    rw [System.perform, place]
    rfl
  rw [run]
  exact ⟨A, .stutter, ok.goTo S.since S.chain (fun _ _ => rfl)
    (fun _ _ => rfl) ⟨⟨seen.le, seen.count, seen.current⟩, some, fun _ => rfl⟩⟩

theorem getSwap (ok : Refines l items S A) {old : BitVec 64} {next : Elem}
    (place : S.locals t = .getSwap old next) (allowed : S.Allowed l (.access t)) :
    ∃ A', Advance A (S.perform l (.access t)).2 A' ∧
      Refines l items (S.perform l (.access t)).1 A' := by
  obtain ⟨seen, some, read⟩ : Seen l S t old ∧ lifoToElem l old ≠ 0 ∧
      (S.since t = S.updates → next = S.memory.next (lifoToElem l old)) := by
    simpa [place, Attempt] using ok.attempt t
  have bound := allowed (by rw [place]; rfl)
  by_cases head : S.memory.head = old
  · have run : S.perform l (.access t) =
        ({ S.setLocal t .idle with
            memory := { S.memory with head := pack l next (lifoToCount l old + 1) }
            held := acquire S.held t (lifoToElem l old)
            updates := S.updates + 1 }, Option.some (.pop t (lifoToElem l old))) := by
      rw [System.perform, place]
      simp only [NbStack.access, cmpxchg64, if_pos head, System.finish, if_neg some]
      rfl
    obtain ⟨rest, top, links⟩ := ok.stack_eq (head ▸ some)
    rw [head] at top links
    rw [← read (ok.current seen bound head)] at links
    rw [run]
    exact ⟨_, .move (.pop top), ok.pop top links head ⟨rfl, rfl, rfl, rfl, rfl⟩ rfl⟩
  · have run : S.perform l (.access t) = (S.setLocal t .getHead, none) := by
      rw [System.perform, place]
      simp only [NbStack.access, cmpxchg64, if_neg head]
      rfl
    rw [run]
    exact ⟨A, .stutter, ok.goTo S.since S.chain (fun _ _ => rfl)
      (fun _ _ => rfl) trivial⟩

/-- Every memory access is one operation of the atomic stack or none. -/
theorem access (ok : Refines l items S A) (allowed : S.Allowed l (.access t)) :
    ∃ A', Advance A (S.perform l (.access t)).2 A' ∧
      Refines l items (S.perform l (.access t)).1 A' := by
  cases place : S.locals t with
  | idle =>
      have run : S.perform l (.access t) = (S.setLocal t .idle, none) := by
        rw [System.perform, place]
        rfl
      rw [run]
      exact ⟨A, .stutter, ok.goTo S.since S.chain (fun _ _ => rfl)
        (fun _ _ => rfl) trivial⟩
  | aborted =>
      have never := ok.attempt t
      rw [place] at never
      exact never.elim
  | putHead p last => exact ok.putHead place
  | putLink p last old => exact ok.putLink place
  | putSwap p last old => exact ok.putSwap place
  | getHead => exact ok.getHead place
  | getNext old => exact ok.getNext place
  | getSwap old next => exact ok.getSwap place allowed

theorem step (ok : Refines l items S A) (a : Action τ) (allowed : S.Allowed l a) :
    ∃ A', Advance A (S.perform l a).2 A' ∧ Refines l items (S.perform l a).1 A' := by
  cases a with
  | callPut t p last xs => exact ⟨A, .stutter, ok.callPut allowed⟩
  | callGet t =>
      exact ⟨A, .stutter, ok.goTo S.since S.chain (fun _ _ => rfl)
        (fun _ _ => rfl) trivial⟩
  | access t => exact ok.access allowed
  | write t x v => exact ⟨A, .stutter, ok.write allowed.1 allowed.2⟩
  | pass t u x =>
      exact ⟨_, .move (.pass (ok.held ▸ allowed.2)), ok.pass allowed.1 allowed.2 u⟩

end Refines

section Runs
variable [DecidableEq τ] {l : Layout} {items : Finset Elem} {S₀ S : System τ}
  {trace : List (Event τ Elem)}

omit [DecidableEq τ] in
theorem Refines.init (initial : S₀.Initial l items) : Refines l items S₀ ⟨[], S₀.held⟩ where
  held := rfl
  chain := by rw [initial.head, lifoToElem_zero, chain_nil]
  count := by rw [initial.head, initial.updates, lifoToCount_zero, Nat.zero_mod]; rfl
  exclusive := initial.exclusive
  usable := initial.usable
  attempt t := by
    rw [initial.idle t]
    trivial

theorem Run.refines (run : Run l S₀ trace S) (initial : S₀.Initial l items) :
    ∃ A, LifoStack.Run ⟨[], S₀.held⟩ trace A ∧ Refines l items S A := by
  induction run with
  | init => exact ⟨_, .init, .init initial⟩
  | step a _ allowed ih =>
      obtain ⟨A, before, ok⟩ := ih
      obtain ⟨A', advance, ok'⟩ := ok.step a allowed
      exact ⟨A', before.advance advance, ok'⟩

/-- Any number of threads on one stack: the operations, in the order of their successful
compare-and-swaps, are a run of the atomic stack, which the head word and the links represent;
every element is on the stack or held by one thread, and the assertion of `nb_stack_put`
never fails. -/
theorem nbStack_atomic (initial : S₀.Initial l items) (run : Run l S₀ trace S) :
    (∃ A, LifoStack.Run ⟨[], S₀.held⟩ trace A ∧ Represents l S A ∧ Exclusive items A) ∧
      (∀ t, S.locals t ≠ .aborted) ∧
      ∀ p count, aligned l p = true → lifoToElem l (pack l p count) = p ∧
        (lifoToCount l (pack l p count)).toNat = count.toNat % 2 ^ (64 - l.bits) := by
  obtain ⟨A, atomic, ok⟩ := run.refines initial
  refine ⟨⟨A, atomic, ok.toRepresents, atomic.exclusive initial.exclusive⟩, fun t aborted => ?_,
    fun p count fits => ⟨lifoToElem_pack fits, lifoToCount_pack⟩⟩
  have never := ok.attempt t
  rw [aborted] at never
  exact never

/-- The operations and the state after a list of actions, if all of them are allowed. -/
def play (l : Layout) : List (Action τ) → System τ → Option (List (Event τ Elem) × System τ)
  | [], S => some ([], S)
  | a :: as, S =>
      if S.Allowed l a then
        (play l as (S.perform l a).1).map fun r => ((S.perform l a).2.toList ++ r.1, r.2)
      else none

theorem Run.play {as : List (Action τ)} {trace' : List (Event τ Elem)} {S' : System τ}
    (run : Run l S₀ trace S) (h : play l as S = some (trace', S')) :
    Run l S₀ (trace ++ trace') S' := by
  induction as generalizing S trace trace' with
  | nil =>
      cases h
      rwa [List.append_nil]
  | cons a as ih =>
      simp only [NbStack.play] at h
      split at h
      · next allowed =>
          obtain ⟨⟨rest, S₁⟩, after, same⟩ := Option.map_eq_some_iff.mp h
          cases same
          rw [← List.append_assoc]
          exact ih (.step a run allowed) after
      · cases h

end Runs

def pairSystem : System (Fin 2) where
  memory := { head := 0, next := fun _ => 0 }
  locals _ := .idle
  held t := if t = 0 then {0x4000#32, 0x8000#32} else ∅
  chain _ := []
  updates := 0
  since _ := 0

/-- Thread `1` has read the head word and `next` of the top when thread `0` takes the top, writes
to it and puts it back. -/
def reuse : List (Action (Fin 2)) :=
  [.write 0 0x4000 0x8000, .callPut 0 0x4000 0x8000 [0x4000, 0x8000], .access 0, .access 0,
    .access 0, .callGet 1, .access 1, .access 1, .callGet 0, .access 0, .access 0, .access 0,
    .write 0 0x4000 7, .callPut 0 0x4000 0x4000 [0x4000], .access 0, .access 0, .access 0,
    .access 1, .access 1, .access 1, .access 1]

theorem pairSystem_initial : pairSystem.Initial pageLayout {0x4000#32, 0x8000#32} where
  head := rfl
  idle _ := rfl
  updates := rfl
  exclusive := {
    nodup := .nil
    placed := fun x => by simp [pairSystem]
    apart := fun _ _ _ => List.not_mem_nil
    single := fun t u x ht hu => by
      have first : ∀ v, x ∈ pairSystem.held v → v = 0 := by
        intro v mem
        by_contra other
        simp [pairSystem, other] at mem
      rw [first t ht, first u hu] }
  usable x mem := by
    rcases Finset.mem_insert.mp mem with rfl | mem
    · decide
    · rw [Finset.mem_singleton.mp mem]
      decide

/-- An element that is taken and put back in the middle of a `get` is handed out once. -/
theorem nbStack_atomic_reused : ∃ S A,
    LifoStack.Run ⟨[], pairSystem.held⟩ [.push 0 [0x4000, 0x8000], .pop 0 0x4000,
      .push 0 [0x4000], .pop 1 0x4000] A ∧ Represents pageLayout S A ∧
      Exclusive {0x4000#32, 0x8000#32} A := by
  have played : (play pageLayout reuse pairSystem).map Prod.fst =
      some [.push 0 [0x4000, 0x8000], .pop 0 0x4000, .push 0 [0x4000], .pop 1 0x4000] := by
    decide +kernel
  obtain ⟨⟨trace, S⟩, done, same⟩ := Option.map_eq_some_iff.mp played
  obtain rfl : trace = _ := same
  exact ⟨S, (nbStack_atomic pairSystem_initial (Run.init.play done)).1⟩

end NbStack
end CompactFit
