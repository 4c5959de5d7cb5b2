import CompactFit.NbStackRefinement

/-!
One access of a call to the lock-free stack, as its caller and as the other threads see it:
how far the call is, what it hands out or takes, and that the other threads keep what they
hold.
-/

namespace CompactFit
namespace NbStack
open Function LifoStack LinkedChain

def Local.InGet : Local → Prop
  | .getHead | .getNext _ | .getSwap .. => True
  | _ => False

def Local.InPut : Local → Prop
  | .putHead .. | .putLink .. | .putSwap .. => True
  | _ => False

variable {τ : Type}

/-- A step of `t` leaves the other calls alone, and `next` of what `t` does not hold. -/
structure Beside (S S' : System τ) (t : τ) : Prop where
  locals : ∀ u, u ≠ t → S'.locals u = S.locals u
  chain : S'.chain = S.chain
  next : ∀ x, x ∉ S.held t → S'.memory.next x = S.memory.next x

variable [DecidableEq τ]

inductive GetAccess (S S' : System τ) (t : τ) : Option (Event τ Elem) → Prop where
  | more : (S'.locals t).InGet → S'.held = S.held → GetAccess S S' t none
  | empty : S'.locals t = .idle → S'.held = S.held → GetAccess S S' t (some (.empty t))
  | pop (x : Elem) : S'.locals t = .idle → S'.held = acquire S.held t x →
      GetAccess S S' t (some (.pop t x))

inductive PutAccess (S S' : System τ) (t : τ) : Option (Event τ Elem) → Prop where
  | more : (S'.locals t).InPut → S'.held = S.held → PutAccess S S' t none
  | push : S'.locals t = .idle → S'.held = release S.held t (S.chain t) →
      PutAccess S S' t (some (.push t (S.chain t)))

variable {l : Layout} {items : Finset Elem} {S : System τ} {A : State τ Elem} {t : τ}

/-- A step that changes nothing but where `t` is, and the links of what it holds. -/
theorem Beside.of_locals {S' : System τ} {c : Local} (locals : S'.locals = update S.locals t c)
    (chain : S'.chain = S.chain) (next : ∀ x, x ∉ S.held t → S'.memory.next x = S.memory.next x) :
    Beside S S' t :=
  ⟨fun u ne => by rw [locals, update_of_ne ne], chain, next⟩

theorem Refines.get_access (ok : Refines l items S A) (place : (S.locals t).InGet) :
    GetAccess S (S.perform l (.access t)).1 t (S.perform l (.access t)).2 ∧
      Beside S (S.perform l (.access t)).1 t := by
  have attempt := ok.attempt t
  cases at_ : S.locals t with
  | getHead =>
      by_cases nil : lifoToElem l S.memory.head = 0
      · have run : S.perform l (.access t) =
            ({ S.setLocal t .idle with since := update S.since t S.updates }, some (.empty t)) := by
          rw [System.perform, at_]
          simp only [NbStack.access, if_pos nil]
          rfl
        rw [run]
        exact ⟨.empty (update_self ..) rfl, .of_locals rfl rfl fun _ _ => rfl⟩
      · have run : S.perform l (.access t) = ({ S.setLocal t (.getNext S.memory.head) with
            since := update S.since t S.updates }, none) := by
          rw [System.perform, at_]
          simp only [NbStack.access, if_neg nil]
          rfl
        rw [run]
        refine ⟨.more ?_ rfl, .of_locals rfl rfl fun _ _ => rfl⟩
        simp only [System.setLocal, update_self, Local.InGet]
  | getNext old =>
      have run : S.perform l (.access t) =
          (S.setLocal t (.getSwap old (S.memory.next (lifoToElem l old))), none) := by
        rw [System.perform, at_]
        rfl
      rw [run]
      refine ⟨.more ?_ rfl, .of_locals rfl rfl fun _ _ => rfl⟩
      simp only [System.setLocal, update_self, Local.InGet]
  | getSwap old next =>
      rw [at_] at attempt
      obtain ⟨_, some, _⟩ := attempt
      by_cases head : S.memory.head = old
      · have run : S.perform l (.access t) =
            ({ S.setLocal t .idle with
                memory := { S.memory with head := pack l next (lifoToCount l old + 1) }
                held := acquire S.held t (lifoToElem l old)
                updates := S.updates + 1 }, Option.some (.pop t (lifoToElem l old))) := by
          rw [System.perform, at_]
          simp only [NbStack.access, cmpxchg64, if_pos head, System.finish, if_neg some]
          rfl
        rw [run]
        exact ⟨.pop _ (update_self ..) rfl, .of_locals rfl rfl fun _ _ => rfl⟩
      · have run : S.perform l (.access t) = (S.setLocal t .getHead, none) := by
          rw [System.perform, at_]
          simp only [NbStack.access, cmpxchg64, if_neg head]
          rfl
        rw [run]
        refine ⟨.more ?_ rfl, .of_locals rfl rfl fun _ _ => rfl⟩
        simp only [System.setLocal, update_self, Local.InGet]
  | _ =>
      rw [at_] at place
      cases place

theorem Refines.put_access (ok : Refines l items S A) (place : (S.locals t).InPut) :
    PutAccess S (S.perform l (.access t)).1 t (S.perform l (.access t)).2 ∧
      Beside S (S.perform l (.access t)).1 t := by
  have attempt := ok.attempt t
  cases at_ : S.locals t with
  | putHead p last =>
      have run : S.perform l (.access t) = ({ S.setLocal t (.putLink p last S.memory.head) with
          since := update S.since t S.updates }, none) := by
        rw [System.perform, at_]
        rfl
      rw [run]
      refine ⟨.more ?_ rfl, .of_locals rfl rfl fun _ _ => rfl⟩
      simp only [System.setLocal, update_self, Local.InPut]
  | putLink p last old =>
      rw [at_] at attempt
      obtain ⟨putting, _⟩ := attempt
      have run : S.perform l (.access t) = ({ S.setLocal t (.putSwap p last old) with
          memory := S.memory.setNext last (lifoToElem l old) }, none) := by
        rw [System.perform, at_]
        rfl
      rw [run]
      refine ⟨.more ?_ rfl, .of_locals rfl rfl fun x out => update_of_ne ?_ _ _⟩
      · simp only [System.setLocal, update_self, Local.InPut]
      · rintro rfl
        exact out (putting.mine x putting.last_mem)
  | putSwap p last old =>
      by_cases head : S.memory.head = old
      · have run : S.perform l (.access t) =
            ({ S.setLocal t .idle with
                memory := { S.memory with head := pack l p (lifoToCount l old + 1) }
                held := release S.held t (S.chain t)
                updates := S.updates + 1 }, some (.push t (S.chain t))) := by
          rw [System.perform, at_]
          simp only [NbStack.access, cmpxchg64, if_pos head]
          rfl
        rw [run]
        exact ⟨.push (update_self ..) rfl, .of_locals rfl rfl fun _ _ => rfl⟩
      · have run : S.perform l (.access t) = (S.setLocal t (.putHead p last), none) := by
          rw [System.perform, at_]
          simp only [NbStack.access, cmpxchg64, if_neg head]
          rfl
        rw [run]
        refine ⟨.more ?_ rfl, .of_locals rfl rfl fun _ _ => rfl⟩
        simp only [System.setLocal, update_self, Local.InPut]
  | _ =>
      rw [at_] at place
      cases place

theorem callGet_of_ne {u : τ} (ne : u ≠ t) :
    (S.perform l (.callGet t)).1.locals u = S.locals u := update_of_ne ne _ _

theorem callPut_of_ne {u : τ} {p last : Elem} {xs : List Elem} (ne : u ≠ t) :
    (S.perform l (.callPut t p last xs)).1.locals u = S.locals u ∧
      (S.perform l (.callPut t p last xs)).1.chain u = S.chain u :=
  ⟨update_of_ne ne _ _, update_of_ne ne _ _⟩

theorem pass_of_ne {u v : τ} {x : Elem} (hv : v ≠ t) (hu : v ≠ u) :
    (S.perform l (.pass t u x)).1.held v = S.held v := by
  simp only [System.perform, acquire_of_ne hu, release_of_ne hv]

/-- `nb_stack_put` for one element, when no other thread comes in between. -/
def System.putAlone (l : Layout) (S : System τ) (t : τ) (x : Elem) : System τ :=
  let S := (S.perform l (.callPut t x x [x])).1
  let S := (S.perform l (.access t)).1
  let S := (S.perform l (.access t)).1
  (S.perform l (.access t)).1

/-- A call that may be made passes the assertion of `nb_stack_put`. -/
theorem Refines.inPut (ok : Refines l items S A) {p last : Elem} {xs : List Elem}
    (allowed : S.Allowed l (.callPut t p last xs)) :
    ((S.perform l (.callPut t p last xs)).1.locals t).InPut := by
  have attempt := (ok.callPut allowed).attempt t
  have place : (S.perform l (.callPut t p last xs)).1.locals t = nbStackPut l p last :=
    update_self ..
  rw [place] at attempt ⊢
  rw [nbStackPut] at attempt ⊢
  split at attempt
  next fits =>
    rw [if_pos fits]
    trivial
  next => exact attempt.elim

/-- The three accesses of a call that is alone. -/
theorem putAlone_eq {x : Elem} (fits : aligned l x = true) : S.putAlone l t x =
    { S with
      memory :=
        { head := pack l x (lifoToCount l S.memory.head + 1)
          next := update S.memory.next x (lifoToElem l S.memory.head) }
      locals := update S.locals t .idle
      held := release S.held t [x]
      chain := update S.chain t [x]
      updates := S.updates + 1
      since := update S.since t S.updates } := by
  have called : (S.perform l (.callPut t x x [x])).1 =
      { S.setLocal t (.putHead x x) with chain := update S.chain t [x] } := by
    rw [System.perform, nbStackPut, if_pos fits]
  have head : ∀ S : System τ, S.locals t = .putHead x x → (S.perform l (.access t)).1 =
      { S.setLocal t (.putLink x x S.memory.head) with since := update S.since t S.updates } := by
    intro S place
    rw [System.perform, place]
    rfl
  have link : ∀ (S : System τ) old, S.locals t = .putLink x x old → (S.perform l (.access t)).1 =
      { S.setLocal t (.putSwap x x old) with memory := S.memory.setNext x (lifoToElem l old) } := by
    intro S old place
    rw [System.perform, place]
    rfl
  have swap : ∀ (S : System τ), S.locals t = .putSwap x x S.memory.head →
      (S.perform l (.access t)).1 =
        { S.setLocal t .idle with
          memory := { S.memory with head := pack l x (lifoToCount l S.memory.head + 1) }
          held := release S.held t (S.chain t)
          updates := S.updates + 1 } := by
    intro S place
    rw [System.perform, place]
    simp only [NbStack.access, cmpxchg64, if_true]
    rfl
  let S1 : System τ := { S.setLocal t (.putHead x x) with chain := update S.chain t [x] }
  let S2 : System τ :=
    { S1.setLocal t (.putLink x x S.memory.head) with since := update S.since t S.updates }
  let S3 : System τ :=
    { S2.setLocal t (.putSwap x x S.memory.head) with
      memory := S.memory.setNext x (lifoToElem l S.memory.head) }
  have linked : (S1.perform l (.access t)).1 = S2 := head S1 (update_self ..)
  have swapped : (S2.perform l (.access t)).1 = S3 := link S2 S.memory.head (update_self ..)
  calc S.putAlone l t x
      = (((S1.perform l (.access t)).1.perform l (.access t)).1.perform l (.access t)).1 := by
        rw [System.putAlone, called]
    _ = (S3.perform l (.access t)).1 := by rw [linked, swapped]
    _ = _ := by
        rw [swap S3 (update_self ..)]
        simp only [S1, S2, S3, System.setLocal, Memory.setNext, update_idem, update_self]

theorem Refines.putAlone (ok : Refines l items S A) {x : Elem} (mine : x ∈ S.held t) :
    Refines l items (S.putAlone l t x) ⟨x :: A.stack, release A.held t [x]⟩ := by
  have fits := (ok.usable x (ok.exclusive.mem_of_held (ok.held ▸ mine))).2
  have alone := List.nodup_singleton x
  have own : ∀ y, y ∈ [x] → y ∈ A.held t := by
    intro y mem
    rw [List.mem_singleton.mp mem, ok.held]
    exact mine
  have apart : ∀ y, y ∈ A.stack → update S.memory.next x (lifoToElem l S.memory.head) y =
      S.memory.next y := by
    intro y mem
    refine update_of_ne ?_ _ _
    rintro rfl
    exact ok.apart mine mem
  rw [putAlone_eq fits]
  refine ⟨⟨by rw [ok.held], ?_⟩, lifoToCount_succ ok.count, ok.exclusive.push alone own,
    ok.usable, fun u => ?_⟩
  · simp only [lifoToElem_pack fits, chain_cons, update_self]
    exact ⟨trivial, chain_congr apart ok.chain⟩
  · by_cases same : u = t
    · simp only [same, update_self]
      trivial
    · simp only [update_of_ne same]
      refine (ok.attempt u).undisturbed ⟨update_of_ne same _ _, update_of_ne same _ _,
        fun y mem => ?_, fun y mem => update_of_ne ?_ _ _, .inl (Nat.lt_succ_self _)⟩
      · exact mem_release.mpr ⟨mem, fun eq => absurd eq same⟩
      · rintro rfl
        exact ok.not_held mine same mem

end NbStack
end CompactFit
