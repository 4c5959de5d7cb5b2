import CompactFit.Library.RunRelation
import CompactFit.LockFreePagesRefinement

/-!
What the calls write: a page that is handed out keeps its words until the application writes
or returns it, whatever the threads do to the links of the pages of the pool.
-/

namespace CompactFit
open Function NbStack BucketPool RunRelation

namespace LockFreePages

structure SameWords (p : Elem) (S S' : LockFreePages) : Prop where
  next : S'.stack.memory.next p = S.stack.memory.next p
  link : S'.localPages p = S.localPages p

instance (p : Elem) : IsTrans LockFreePages (SameWords p) where
  trans _ _ _ first second :=
    ⟨second.next.trans first.next, second.link.trans first.link⟩

/-- If the page is still handed out, its words are the same. -/
def Spares (p : Elem) (S S' : LockFreePages) : Prop := p ∈ S'.out → SameWords p S S'

section
variable {cfg : Config} {T t : Nat} {S S' : LockFreePages} {P : Pool Nat Elem} {p q : Elem}

theorem takePage_words (t : Nat) (S : LockFreePages) :
    Within (SameWords p) S Prod.fst (S.takePage t) := by
  simp only [takePage]
  split
  · exact .pass fun _ _ => .ok ⟨rfl, rfl⟩
  · exact .ok ⟨rfl, rfl⟩

theorem getFreePage_words (t : Nat) (S : LockFreePages) :
    Within (SameWords p) S Prod.fst (S.getFreePage cfg t) := by
  have opened : SameWords p S (S.openPbucket cfg t) := ⟨rfl, rfl⟩
  rw [getFreePage]
  split
  · split
    · exact .ok ⟨rfl, rfl⟩
    · exact .after opened (takePage_words t _)
  · exact takePage_words t S

/-- Only the page that is returned gets a new link. -/
theorem storePage_spares (same : SameWords p S S') : Spares p S (S'.storePage t q).1 :=
  fun still => ⟨same.next, (update_of_ne (Finset.mem_erase.mp still).1 _ _).trans same.link⟩

namespace Tracked

/-- An access writes pages of its thread only. -/
theorem access_words (tracked : Tracked cfg T S P) (out : p ∈ S.out) (busy : S.calls t ≠ .idle) :
    SameWords p S (S.act (.access (some t))) := by
  have away : p ∉ S.stack.held (some t) :=
    tracked.stack.not_held (tracked.out_held out) (Option.some_ne_none t)
  have call := (tracked.threads t).call
  refine ⟨?_, rfl⟩
  cases eq : S.calls t with
  | idle => exact absurd eq busy
  | getting =>
      rw [eq] at call
      exact (tracked.stack.get_access call.1).2.next p away
  | adding q =>
      rw [eq] at call
      exact (tracked.stack.put_access call.1).2.next p away

/-- The new bucket is one of the pages of the thread. -/
theorem closePages_words (tracked : Tracked cfg T S P) (quiet : S.calls t = .idle)
    (full : (S.threads t).pagesCount = cfg.nrLocalPages) (out : p ∈ S.out) :
    SameWords p S (S.closePages t) := by
  have lists := tracked.lists_idle quiet
  obtain ⟨x, items, hi⟩ : ∃ x items, (P.locals t).items = x :: items := by
    refine List.exists_cons_of_ne_nil fun nil => ?_
    rw [lists.pagesCount, nil] at full
    exact absurd full (Nat.ne_of_lt cfg.nrLocalPages_pos)
  have pages := lists.pages
  rw [hi] at pages
  have held : P.Holds x := .inl ⟨t, List.mem_append_left _ (hi ▸ List.mem_cons_self)⟩
  refine ⟨update_of_ne ?_ _ _, rfl⟩
  rintro rfl
  exact tracked.places.apart _ held (pages.1 ▸ out)

theorem addFreePage_spares (tracked : Tracked cfg T S P) (quiet : S.calls t = .idle)
    (out : p ∈ S.out) : Within (Spares p) S Prod.fst (S.addFreePage cfg t q) := by
  rw [addFreePage]
  refine .pass fun _ _ => .pass fun _ _ => ?_
  split
  next full =>
    have closed := tracked.closePages_words quiet full out
    simp only
    split
    · exact .ok fun _ => ⟨closed.next, closed.link⟩
    · exact .ok (storePage_spares closed)
  next => exact .ok (storePage_spares ⟨rfl, rfl⟩)

theorem access_spares (tracked : Tracked cfg T S P) (busy : S.calls t ≠ .idle) (out : p ∈ S.out) :
    Within (Spares p) S Prod.fst (S.access cfg t) := by
  have same := tracked.access_words out busy
  rw [access]
  split
  · intro r run _
    refine IsTrans.trans _ _ _ ?_ (takePage_words t _ r run)
    exact ⟨same.next, same.link⟩
  · exact .ok fun _ => ⟨same.next, same.link⟩
  · exact .ok (storePage_spares ⟨same.next, same.link⟩)
  · exact .ok fun _ => same

/-- A step that is no write of the application to the page. -/
theorem perform_spares (tracked : Tracked cfg T S P) {a : PoolAction} (enabled : S.Enabled T a)
    (other : ∀ v w, a ≠ .write p v w) (out : p ∈ S.out) :
    Within (Spares p) S Prod.fst (S.perform cfg a) := by
  cases a with
  | get t => exact fun r run _ => getFreePage_words t S r run
  | add t q => exact tracked.addFreePage_spares enabled.2.1 out
  | access t => exact tracked.access_spares enabled.1 out
  | write q v w =>
      refine .ok fun _ => ?_
      have ne : p ≠ q := by
        rintro rfl
        exact other v w rfl
      exact ⟨update_of_ne ne _ _, update_of_ne ne _ _⟩

end Tracked
end

/-- A step after which the page is handed out, and which is no write to it. -/
def StepBeside (cfg : Config) (T : Nat) (p : Elem) (S S' : LockFreePages) : Prop :=
  ∃ a e, S.Enabled T a ∧ (∀ v w, a ≠ .write p v w) ∧ S.perform cfg a = .ok (S', e) ∧ p ∈ S'.out

end LockFreePages

/-- In every run a page that is handed out keeps its words until the application writes them or
returns it. -/
theorem handed_page_kept {cfg : Config} {T : Nat} {es : List (PoolEvent Elem)}
    {S S' : LockFreePages} {p : Elem} (run : LockFreePages.Run cfg T es S) (out : p ∈ S.out)
    (rest : Relation.ReflTransGen (LockFreePages.StepBeside cfg T p) S S') :
    S'.stack.memory.next p = S.stack.memory.next p ∧ S'.localPages p = S.localPages p := by
  have kept : (∃ es', LockFreePages.Run cfg T es' S') ∧ p ∈ S'.out ∧
      LockFreePages.SameWords p S S' := by
    induction rest with
    | refl => exact ⟨⟨es, run⟩, out, rfl, rfl⟩
    | tail _ step ih =>
        obtain ⟨⟨es', run⟩, out, same⟩ := ih
        obtain ⟨a, e, enabled, other, done, still⟩ := step
        obtain ⟨_, _, P, _, _, fine, _⟩ := run.completed ()
        have spared := fine.perform_spares enabled other out _ done still
        exact ⟨⟨_, .step a run enabled done⟩, still, IsTrans.trans _ _ _ same spared⟩
  exact ⟨kept.2.2.next, kept.2.2.link⟩

/-- Thread 0 writes the page whose bucket thread 1 is about to take: it has read the head word
and, from the page, the next bucket. -/
theorem handed_page_kept_raced : ∃ S S' : LockFreePages,
    S.stack.memory.next 0x10000 = 5 ∧ S.stack.locals (some 1) ≠ .idle ∧
      LockFreePages.StepBeside pairConfig 2 0x10000 S S' ∧
      S'.stack.memory.next 0x10000 = S.stack.memory.next 0x10000 ∧
      S'.localPages 0x10000 = S.localPages 0x10000 := by
  have played : ((LockFreePages.init pairConfig).play pairConfig 2 [.get 1, .access 1, .access 1,
      .get 0, .access 0, .access 0, .access 0, .write 0x10000 5 7]).any (fun r =>
        decide (0x10000 ∈ r.2.out ∧ r.2.stack.memory.next 0x10000 = 5 ∧
          r.2.stack.locals (some 1) ≠ .idle ∧ r.2.Enabled 2 (.access 1)) &&
        (r.2.perform pairConfig (.access 1)).toOption.any fun r => decide (0x10000 ∈ r.1.out)) =
      true := by
    decide +kernel
  obtain ⟨⟨es, S⟩, done, found⟩ := (Option.any_eq_true _ _).mp played
  obtain ⟨before, after⟩ := (Bool.and_eq_true _ _).mp found
  obtain ⟨out, word, busy, enabled⟩ := of_decide_eq_true before
  obtain ⟨⟨S', e⟩, step, still⟩ := (Option.any_eq_true _ _).mp after
  cases hr : S.perform pairConfig (.access 1) with
  | error fault =>
      rw [hr] at step
      cases step
  | ok r =>
      rw [hr] at step
      cases step
      have beside : LockFreePages.StepBeside pairConfig 2 0x10000 S S' :=
        ⟨.access 1, e, enabled, nofun, hr, of_decide_eq_true still⟩
      exact ⟨S, S', word, busy, beside,
        handed_page_kept (LockFreePages.Run.init.play done) out (.single beside)⟩

end CompactFit
