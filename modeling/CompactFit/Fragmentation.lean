import CompactFit.Safety
import Mathlib.Algebra.BigOperators.Group.Finset.Piecewise

/-!
The bounds on not-full and source pages. A suspended call has at most two source
entries, one of its own compaction and one of a compaction it has cancelled, so the
source pages of a class are at most twice its suspended calls, and the not-full pages
can exceed the bound `k` only by source pages that come back.
-/

namespace CompactFit
open Function AddressPool LawfulAddressPool

section
variable {π : Type} [AddressPool π]

def suspendedIn (T c : Nat) (S : System π) : Finset Nat :=
  (Finset.range T).filter fun t => (S.calls t).any fun call => call.comp.sc = c

variable [LawfulAddressPool π] {cfg : Config} {T : Nat}

/-- A call has at most two source entries, all in pages of its class. -/
theorem FrameOk.sum_entries_le {v : View} {live : Live} {f : Frame} (ok : FrameOk cfg v live f)
    (P : Finset Nat) {c : Nat} (sc : ∀ p ∈ P, v.sc p = c) :
    ∑ p ∈ P, Frame.entries p (some f) ≤ if f.sc = c then 2 else 0 := by
  have one : ∀ q, (v.sc q = f.sc) → ∑ p ∈ P, (if q = p then 1 else 0) ≤
      if f.sc = c then 1 else 0 := by
    intro q hq
    rw [Finset.sum_ite_eq]
    split
    next mem =>
      have eq : f.sc = c := hq.symm.trans (sc q mem)
      rw [if_pos eq]
    next => exact Nat.zero_le _
  have source : ∀ s, f.source = some s → ∑ p ∈ P, (if s.block.page = p then 1 else 0) ≤
      if f.sc = c then 1 else 0 := by
    intro s hs
    obtain ⟨B, o, target, _, sok⟩ := ok.source s hs
    exact one s.block.page (sok.sc.trans (ok.target B target).2.2.2)
  have held : ∀ q, f.held = some q → ∑ p ∈ P, (if q = p then 1 else 0) ≤
      if f.sc = c then 1 else 0 := fun q hq => one q (ok.held q hq)
  have twice : (if f.sc = c then 2 else 0) =
      (if f.sc = c then 1 else 0) + (if f.sc = c then 1 else 0) := by
    split <;> rfl
  simp only [Frame.entries, Finset.sum_add_distrib, twice]
  refine Nat.add_le_add ?_ ?_
  · cases hs : f.source with
    | none => simp
    | some s => exact source s hs
  · cases hq : f.held with
    | none => simp
    | some q => exact held q hq

/-- The source pages of a class, counted against the suspended calls. -/
theorem Good.sourceentries_le {S : System π} {F : Frames} (good : Good cfg T S.heap S.live F)
    (answers : ∀ t, Answers (S.calls t) (F t)) (c : Nat) :
    (S.heap.classes c).sourceentries ≤ 2 * (suspendedIn T c S).card := by
  have lists := good.heap.lists
  generalize hP : (((S.heap.classes c).lists .source) ++
    ((S.heap.classes c).lists .emptying)).toFinset = P
  have members : ∀ p ∈ P, ((S.heap.pages p).listFlags = .source ∨
      (S.heap.pages p).listFlags = .emptying) ∧ (S.heap.pages p).sc = c := by
    intro p hp
    rw [← hP, List.mem_toFinset, List.mem_append, lists.mem, lists.mem] at hp
    rcases hp with ⟨_, _, flag, sc⟩ | ⟨_, _, flag, sc⟩
    · exact ⟨.inl flag, sc⟩
    · exact ⟨.inr flag, sc⟩
  have card : P.card = (S.heap.classes c).sourceentries := by
    rw [← hP, List.toFinset_card_of_nodup, List.length_append, lists.sourceentries]
    refine (lists.nodup c _).append (lists.nodup c _) fun p hp hq => ?_
    obtain ⟨_, _, flag, _⟩ := (lists.mem c .source p).mp hp
    obtain ⟨_, _, flag', _⟩ := (lists.mem c .emptying p).mp hq
    rw [flag] at flag'
    cases flag'
  have entered : ∀ p ∈ P, 1 ≤ (S.heap.pages p).sourceentries := by
    intro p hp
    have flag := (good.heap.page p).flag
    rcases (members p hp).1 with listed | listed <;> rw [listed] at flag
    · exact flag.2.2
    · exact flag.2.2
  have share : ∀ t ∈ Finset.range T, ∑ p ∈ P, Frame.entries p (F t) ≤
      if t ∈ suspendedIn T c S then 2 else 0 := by
    intro t ht
    cases hF : F t with
    | none => simp [Frame.entries_none]
    | some f =>
        obtain ⟨call, hc, waiting⟩ := answers_frame answers hF
        have mem : t ∈ suspendedIn T c S ↔ f.sc = c := by
          simp only [suspendedIn, Finset.mem_filter, ht, true_and, hc, Option.any_some,
            decide_eq_true_eq, waiting.sc]
        simp only [mem]
        exact (good.owns.frame t f hF).sum_entries_le P fun p hp => (members p hp).2
  calc (S.heap.classes c).sourceentries
      = ∑ _p ∈ P, 1 := by rw [← card, Finset.card_eq_sum_ones]
    _ ≤ ∑ p ∈ P, (S.heap.pages p).sourceentries := Finset.sum_le_sum entered
    _ = ∑ p ∈ P, ∑ t ∈ Finset.range T, Frame.entries p (F t) :=
        Finset.sum_congr rfl fun p _ => good.owns.ledger p
    _ = ∑ t ∈ Finset.range T, ∑ p ∈ P, Frame.entries p (F t) := Finset.sum_comm
    _ ≤ ∑ t ∈ Finset.range T, if t ∈ suspendedIn T c S then 2 else 0 := Finset.sum_le_sum share
    _ = 2 * (suspendedIn T c S).card := by
        have sub : (Finset.range T).filter (· ∈ suspendedIn T c S) = suspendedIn T c S := by
          ext t
          simp only [Finset.mem_filter, and_iff_right_iff_imp]
          exact fun mem => (Finset.mem_filter.mp mem).1
        rw [← Finset.sum_filter, sub, Finset.sum_const_nat fun _ _ => rfl, Nat.mul_comm]

omit [AddressPool π] [LawfulAddressPool π] in
theorem suspendedIn_lt {S : System π} {t : Nat} (ht : t < T) (idle : S.calls t = none) (c : Nat) :
    (suspendedIn T c S).card ≤ T - 1 := by
  have sub : suspendedIn T c S ⊆ (Finset.range T).erase t := by
    intro u mem
    obtain ⟨hu, any⟩ := Finset.mem_filter.mp mem
    refine Finset.mem_erase.mpr ⟨?_, hu⟩
    rintro rfl
    rw [idle] at any
    cases any
  have card := Finset.card_le_card sub
  rwa [Finset.card_erase_of_mem (Finset.mem_range.mpr ht), Finset.card_range] at card

/-- The not-full and source pages of a class stay below `k` and two for each other
thread, in every run. -/
theorem Reachable.budget {addresses : π} {S : System π} (reachable : Reachable cfg T addresses S)
    (config : cfg.Compacting) (once : cfg.memcpyMultiplicator = 1)
    (valid : Valid cfg.toAddressConfig T (fun _ => False) addresses)
    (c : Nat) : (S.heap.classes c).nfullentries + (S.heap.classes c).sourceentries ≤
      cfg.k + 2 * (T - 1) := by
  induction reachable with
  | init =>
      obtain ⟨_, _, _, classes, _⟩ := initHeap_spec cfg addresses
      simp only [System.init, classes]
      omega
  | @step S S' a reachable enabled clean run ih =>
      obtain ⟨F, good, answers⟩ := Reachable.sound reachable config once valid
      obtain ⟨F', step⟩ := Sound.step good answers config (abortsFinal_once once a) enabled
        clean run
      have started := step.started c
      have few := good.sourceentries_le (T := T) answers c
      cases a with
      | malloc t size =>
          have := suspendedIn_lt enabled.1 enabled.2 c
          omega
      | free t a =>
          have := suspendedIn_lt enabled.1 enabled.2.1 c
          omega
      | resume t => exact (step.resumed (fun old => old) c).trans ih
      | write a j x => exact (step.resumed (fun old => old) c).trans ih

/-- While steps that give up the last source entry of a page find room for it, the
not-full pages of a class stay within the bound. -/
theorem nfullentries_le {addresses : π} {S : System π}
    (run : Run cfg T (fun S a => (Clean cfg S a ∧ AbortsFinal cfg S a) ∧ RoomLeft cfg S a)
      addresses S) (config : cfg.Compacting)
    (valid : Valid cfg.toAddressConfig T (fun _ => False) addresses)
    (c : Nat) : (S.heap.classes c).nfullentries ≤ cfg.k := by
  induction run with
  | init =>
      obtain ⟨_, _, _, classes, _⟩ := initHeap_spec cfg addresses
      simp only [System.init, classes]
      omega
  | @step S S' a before enabled allowed run ih =>
      obtain ⟨F, good, answers⟩ := Run.sound before config (fun _ _ ok => ok.1) valid
      obtain ⟨F', step⟩ := Sound.step good answers config allowed.1.2 enabled allowed.1.1 run
      have := step.room allowed.2 c
      omega

instance (cfg : Config) (S : System π) (a : Action) : Decidable (RoomLeft cfg S a) :=
  match a with
  | .malloc .. => isTrue trivial
  | .write .. => isTrue trivial
  | .free .. => inferInstanceAs (Decidable (_ ∨ _))
  | .resume t =>
      match hc : S.calls t with
      | none => isTrue (by simp only [RoomLeft, hc])
      | some call => decidable_of_iff
          (pagesReturned (call.givesUp cfg S.heap) S.heap = 0 ∨
            (S.heap.classes call.comp.sc).nfullentries +
              pagesReturned (call.givesUp cfg S.heap) S.heap ≤ cfg.k)
          (by simp only [RoomLeft, hc])

def performInRoom (cfg : Config) (S : System π) (a : Action) : Except Fault (System π) :=
  if RoomLeft cfg S a then perform cfg S a else .error .sourceEntries

omit [LawfulAddressPool π] in
theorem run_of_script (cfg : Config) (T : Nat) (once : cfg.memcpyMultiplicator = 1) (addresses : π)
    (as : List Action) {p : System π → Bool}
    (h : (script cfg T (performInRoom cfg) as (System.init cfg addresses)).any p = true) :
    ∃ S, Run cfg T (fun S a => (Clean cfg S a ∧ AbortsFinal cfg S a) ∧ RoomLeft cfg S a)
      addresses S ∧ p S = true := by
  obtain ⟨S, run, ok⟩ := (Option.any_eq_true _ _).mp h
  refine ⟨S, script_preserves (fun S a S' before enabled clean run => ?_) .init run, ok⟩
  by_cases room : RoomLeft cfg S a
  · rw [performInRoom, if_pos room] at run
    exact .step a before enabled ⟨⟨clean, abortsFinal_once once a⟩, room⟩ run
  · rw [performInRoom, if_neg room] at run
    cases run

/-- The source pages of a class are those on its two lists; they and the not-full pages
stay within the budget of the threads. -/
structure WithinBudget (cfg : Config) (T c : Nat) (S : System π) : Prop where
  lists : (S.heap.classes c).sourceentries =
    ((S.heap.classes c).lists .source).length + ((S.heap.classes c).lists .emptying).length
  suspended : (S.heap.classes c).sourceentries ≤ 2 * (suspendedIn T c S).card
  total : (S.heap.classes c).nfullentries + (S.heap.classes c).sourceentries ≤
    cfg.k + 2 * (T - 1)

theorem Reachable.withinBudget {addresses : π} {S : System π}
    (reachable : Reachable cfg T addresses S) (config : cfg.Compacting)
    (once : cfg.memcpyMultiplicator = 1)
    (valid : Valid cfg.toAddressConfig T (fun _ => False) addresses) (c : Nat) :
    WithinBudget cfg T c S := by
  obtain ⟨F, good, answers⟩ := Reachable.sound reachable config once valid
  exact ⟨good.heap.lists.sourceentries c, good.sourceentries_le answers c,
    reachable.budget config once valid c⟩

theorem interleaving_withinBudget (cfg : Config) (config : cfg.Compacting)
    (once : cfg.memcpyMultiplicator = 1) (T : Nat) (picks : Nat → Nat) (S : System SetPool)
    (reachable : Reachable cfg T (SetPool.init cfg.toAddressConfig picks) S) (c : Nat) :
    WithinBudget cfg T c S :=
  reachable.withinBudget config once (SetPool.valid_init _ T picks) c

/-- One suspended call with a source page beside a not-full page. -/
theorem interleaving_withinBudget_source : ∃ S : System SetPool,
    (S.heap.classes 48).nfullentries = 1 ∧ (S.heap.classes 48).sourceentries = 1 ∧
      WithinBudget smallConfig 2 48 S := by
  obtain ⟨S, reachable, found⟩ := reachable_of_script smallConfig 2
    (SetPool.init smallConfig.toAddressConfig fun _ => 0)
    [.malloc 0 7000, .malloc 0 7000, .malloc 0 7000, .malloc 0 7000, .malloc 0 7000,
      .malloc 0 7000, .free 0 1048580, .free 0 1048584, .free 1 1048588]
    (p := fun S => decide ((S.heap.classes 48).nfullentries = 1 ∧
      (S.heap.classes 48).sourceentries = 1)) (by decide +kernel)
  obtain ⟨n, s⟩ := of_decide_eq_true found
  exact ⟨S, n, s, interleaving_withinBudget smallConfig smallConfig_compacting rfl 2 _ S
    reachable 48⟩

/-- The bound on not-full pages holds in every run whose returned source pages find room. -/
theorem interleaving_nfullentries_le (cfg : Config) (config : cfg.Compacting) (T : Nat)
    (S : System AddressBuckets)
    (run : Run cfg T (fun S a => (Clean cfg S a ∧ AbortsFinal cfg S a) ∧ RoomLeft cfg S a)
      (AddressBuckets.initFreeAaList cfg.toAddressConfig) S) (c : Nat) :
    (S.heap.classes c).nfullentries ≤ cfg.k :=
  nfullentries_le run config (AddressBuckets.valid_init _ T) c

/-- A source page comes back when the compaction of an object of 5000 bytes ends. -/
theorem interleaving_nfullentries_le_back : ∃ S : System AddressBuckets,
    (S.heap.classes 45).nfullentries = 1 ∧ (S.heap.classes 45).nfullentries ≤ smallConfig.k := by
  obtain ⟨S, run, found⟩ := run_of_script smallConfig 2 rfl
    (AddressBuckets.initFreeAaList smallConfig.toAddressConfig)
    [.malloc 0 5000, .malloc 0 5000, .malloc 0 5000, .malloc 0 5000, .malloc 0 5000,
      .malloc 0 5000, .free 0 1048828, .free 0 1048816, .resume 0]
    (p := fun S => decide ((S.heap.classes 45).nfullentries = 1)) (by decide +kernel)
  exact ⟨S, of_decide_eq_true found,
    interleaving_nfullentries_le smallConfig smallConfig_compacting 2 S run 45⟩

/-- While thread 0 is suspended, thread 1 makes another page not full; then the source page
of thread 0 comes back as the second one. -/
theorem nfullentries_exceeds : ∃ S : System AddressBuckets,
    Reachable smallConfig 2 (AddressBuckets.initFreeAaList smallConfig.toAddressConfig) S ∧
      (∀ t, S.calls t = none) ∧ ¬ (S.heap.classes 45).nfullentries ≤ smallConfig.k := by
  obtain ⟨S, reachable, found⟩ := reachable_of_script smallConfig 2
    (AddressBuckets.initFreeAaList smallConfig.toAddressConfig)
    [.malloc 0 5000, .malloc 0 5000, .malloc 0 5000, .malloc 0 5000, .malloc 0 5000,
      .malloc 0 5000, .malloc 0 5000, .malloc 0 5000, .malloc 0 5000, .free 0 1048828,
      .free 0 1048816, .free 1 1048804, .resume 0]
    (p := fun S => decide ((S.calls 0).isNone ∧ (S.calls 1).isNone ∧
      (S.heap.classes 45).nfullentries = 2)) (by decide +kernel)
  obtain ⟨idle0, idle1, two⟩ := of_decide_eq_true found
  refine ⟨S, reachable, fun t => ?_, by rw [two]; decide⟩
  obtain ⟨F, good, answers⟩ := reachable.sound smallConfig_compacting rfl
    (AddressBuckets.valid_init _ 2)
  match t with
  | 0 => exact Option.isNone_iff_eq_none.mp idle0
  | 1 => exact Option.isNone_iff_eq_none.mp idle1
  | t + 2 => exact calls_none good answers (by omega)

end
end CompactFit
