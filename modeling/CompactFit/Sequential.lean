import CompactFit.Fragmentation

/-!
Runs in which every call is complete before the next one starts, as in the build with
one global lock: a `cf_free` goes on after each copy increment until it returns. At
the boundaries of the operations no call is suspended, so every live object is in a
used block of its own and no page is a source page.
-/

namespace CompactFit
open Function ByteMemory AddressPool LawfulAddressPool

section
variable {π : Type} [AddressPool π]

/-- The rest of a suspended call of thread `t`; the lock is not given away. -/
def runToEnd (cfg : Config) (t : Nat) : Nat → System π → Except Fault (System π)
  | 0, S => .ok S
  | n + 1, S =>
      match S.calls t with
      | none => .ok S
      | some _ => do
          let S ← S.resume cfg t
          runToEnd cfg t n S

/-- A bound on the increments that are left to the call of thread `t`. -/
def System.remaining (t : Nat) (S : System π) : Nat :=
  match S.calls t with
  | none => 0
  | some call => call.comp.remSize + 1

def performWhole (cfg : Config) (S : System π) : Action → Except Fault (System π)
  | .free t a => do
      let S ← S.free cfg t a
      runToEnd cfg t (S.remaining t) S
  | a => perform cfg S a

/-- The states at the operation boundaries of the sequential runs of `allowed` operations. -/
inductive Sequence (cfg : Config) (T : Nat) (allowed : System π → Action → Prop) (addresses : π) :
    System π → Prop where
  | init : Sequence cfg T allowed addresses (System.init cfg addresses)
  | step {S S' : System π} (a : Action) : Sequence cfg T allowed addresses S → Enabled cfg T S a →
      allowed S a → performWhole cfg S a = .ok S' → Sequence cfg T allowed addresses S'

variable [LawfulAddressPool π]

/-- No call is suspended, and the heap is good without any frame. -/
structure Resting (cfg : Config) (T : Nat) (S : System π) : Prop where
  good : Good cfg T S.heap S.live fun _ => none
  calls : ∀ t, S.calls t = none

section Whole
variable {cfg : Config} {T t : Nat} {S : System π} {F : Frames}

theorem resting_of_idle (good : Good cfg T S.heap S.live F)
    (answers : ∀ t, Answers (S.calls t) (F t)) (idle : ∀ t, S.calls t = none) :
    Resting cfg T S := by
  have none : F = fun _ => none := funext fun t => answers_idle answers (idle t)
  exact ⟨none ▸ good, idle⟩

theorem Resting.answers (rest : Resting cfg T S) (t : Nat) : Answers (S.calls t) none := by
  rw [rest.calls t]
  trivial

theorem Resting.sourceentries (rest : Resting cfg T S) (c : Nat) :
    (S.heap.classes c).sourceentries = 0 := by
  have few := rest.good.sourceentries_le (T := T) rest.answers c
  have none : suspendedIn T c S = ∅ := by
    refine Finset.eq_empty_of_forall_notMem fun t mem => ?_
    have any := (Finset.mem_filter.mp mem).2
    rw [rest.calls t] at any
    cases any
  rw [none, Finset.card_empty] at few
  omega

/-- A suspended call runs to its end: each increment leaves less to copy. -/
theorem runToEnd_spec (config : cfg.Compacting) (n : Nat) (good : Good cfg T S.heap S.live F)
    (answers : ∀ t, Answers (S.calls t) (F t)) (mine : Answering (S.calls t) (F t))
    (others : ∀ u, u ≠ t → S.calls u = none) (fuel : S.remaining t ≤ n) :
    Succeeds π cfg T (runToEnd cfg t n S) fun S' => Resting cfg T S' ∧ S'.live = S.live ∧
      ∀ c, (S'.heap.classes c).nfullentries + (S'.heap.classes c).sourceentries ≤
        (S.heap.classes c).nfullentries + (S.heap.classes c).sourceentries := by
  have stop : S.calls t = none → Resting cfg T S := fun idle =>
    resting_of_idle good answers fun u => by
      by_cases hu : u = t
      · exact hu ▸ idle
      · exact others u hu
  induction n generalizing S F with
  | zero =>
      have idle : S.calls t = none := by
        cases hc : S.calls t with
        | none => rfl
        | some call => simp [System.remaining, hc] at fuel
      exact .ok ⟨stop idle, rfl, fun _ => le_rfl⟩
  | succ n ih =>
      cases hc : S.calls t with
      | none =>
          simp only [runToEnd, hc]
          exact .ok ⟨stop hc, rfl, fun _ => le_rfl⟩
      | some call =>
          simp only [runToEnd, hc]
          have once : ∀ f, F t = some f → f.target = none → cfg.memcpyMultiplicator = 1 := by
            intro f hF target
            rw [hc, hF] at mine
            exact absurd target mine.2
          refine (resume_stepped good answers config (by rw [hc]; simp) once).bind ?_
          rintro S' ⟨F', step, answering, rest, live, less⟩
          have others' : ∀ u, u ≠ t → S'.calls u = none :=
            fun u hu => (rest u hu).trans (others u hu)
          have fuel' : S'.remaining t ≤ n := by
            cases hc' : S'.calls t with
            | none => simp only [System.remaining, hc']; omega
            | some call' =>
                obtain ⟨_, was, lt⟩ := less call' hc'
                rw [hc] at was
                cases was
                simp only [System.remaining, hc, hc'] at fuel ⊢
                omega
          refine (ih step.good step.answers answering others' fuel' fun idle =>
            resting_of_idle step.good step.answers fun u => ?_).mono ?_
          · by_cases hu : u = t
            · exact hu ▸ idle
            · exact others' u hu
          · rintro S'' ⟨resting, live', total⟩
            exact ⟨resting, live'.trans live,
              fun c => (total c).trans (step.resumed (fun old => old) c)⟩

theorem answers_none {r : Option Suspended} (h : Answers r none) : r = none := by
  cases r with
  | none => rfl
  | some call => cases h

theorem performWhole_spec (rest : Resting cfg T S) (config : cfg.Compacting) (a : Action)
    (enabled : Enabled cfg T S a) (clean : Clean cfg S a) :
    (∃ S', performWhole cfg S a = .ok S' ∧ Resting cfg T S' ∧
      ∀ c, (S'.heap.classes c).nfullentries ≤ max (S.heap.classes c).nfullentries cfg.k) ∨
      (performWhole cfg S a = .error .noSizeClass ∧
        ∃ t size, a = .malloc t size ∧ adjustedSize cfg size = largestSc) ∨
      (performWhole cfg S a = .error .emptyBucket ∧
        ¬ Robust (π := π) cfg.toAddressConfig T) := by
  have grown : ∀ {S' F'}, Stepped cfg T S a S' F' → ∀ c,
      (S'.heap.classes c).nfullentries + (S'.heap.classes c).sourceentries ≤
        max (S.heap.classes c).nfullentries cfg.k := by
    intro S' F' step c
    have started := step.started c
    rw [rest.sourceentries c] at started
    simpa only [Nat.add_zero] using started
  have settled : ∀ {S'}, Stepped cfg T S a S' (fun _ => none) → Resting cfg T S' ∧
      ∀ c, (S'.heap.classes c).nfullentries ≤ max (S.heap.classes c).nfullentries cfg.k :=
    fun step => ⟨⟨step.good, fun t => answers_none (step.answers t)⟩,
      fun c => (Nat.le_add_right _ _).trans (grown step c)⟩
  cases a with
  | malloc t size =>
      rcases malloc_stepped rest.good rest.answers config enabled.1 clean with
        ⟨S', run, step⟩ | ⟨run, adjusted⟩
      · exact .inl ⟨S', run, settled step⟩
      · exact .inr (.inl ⟨run, t, size, rfl, adjusted⟩)
  | free t a =>
      have whole : Succeeds π cfg T (performWhole cfg S (.free t a)) fun S' => Resting cfg T S' ∧
          ∀ c, (S'.heap.classes c).nfullentries ≤
            max (S.heap.classes c).nfullentries cfg.k := by
        refine (free_stepped rest.good rest.answers config enabled.1 enabled.2.1
          enabled.2.2).bind ?_
        rintro S' ⟨F', step, answering, others⟩
        refine (runToEnd_spec config _ step.good step.answers answering
          (fun u hu => (others u hu).trans (rest.calls u)) le_rfl).mono ?_
        rintro S'' ⟨rest', _, total⟩
        refine ⟨rest', fun c => ?_⟩
        have := total c
        have := grown step c
        omega
      rcases whole with ⟨S', run, rest'⟩ | lacks
      · exact .inl ⟨S', run, rest'⟩
      · exact .inr (.inr lacks)
  | resume t => exact absurd (rest.calls t) enabled
  | write a j x =>
      obtain ⟨still, o, hlive, _, user⟩ := enabled
      obtain ⟨S', run, step⟩ := write_stepped (T := T) (x := x) rest.good rest.answers config still
        hlive user
      exact .inl ⟨S', run, settled step⟩

end Whole

/-! ### The runs -/

section Runs
variable {cfg : Config} {T : Nat} {addresses : π} {S : System π}

theorem Sequence.resting {allowed : System π → Action → Prop}
    (run : Sequence cfg T allowed addresses S) (config : cfg.Compacting)
    (clean : ∀ S a, Resting cfg T S → Enabled cfg T S a → allowed S a → Clean cfg S a)
    (valid : Valid cfg.toAddressConfig T (fun _ => False) addresses) :
    Resting cfg T S ∧ ∀ c, (S.heap.classes c).nfullentries ≤ cfg.k := by
  induction run with
  | init =>
      obtain ⟨_, _, _, classes, _⟩ := initHeap_spec cfg addresses
      refine ⟨⟨good_init cfg T valid, fun _ => rfl⟩, fun c => ?_⟩
      simp only [System.init, classes]
      exact Nat.zero_le _
  | @step S S' a _ enabled ok run ih =>
      rcases performWhole_spec ih.1 config a enabled (clean S a ih.1 enabled ok) with
        ⟨S'', run', rest, n⟩ | ⟨run', _⟩ | ⟨run', _⟩
      · rw [run] at run'
        cases run'
        exact ⟨rest, fun c => (n c).trans (max_le (ih.2 c) le_rfl)⟩
      · rw [run] at run'
        cases run'
      · rw [run] at run'
        cases run'

end Runs

/-! ### Bounded fragmentation -/

section Bounds
variable {cfg : Config} {T c : Nat} {S : System π}

def classPages (c : Nat) (h : Heap π) : List Nat :=
  (h.classes c).lists .nfull ++ (h.classes c).lists .full ++ (h.classes c).lists .source ++
    (h.classes c).lists .emptying

def liveCount (cfg : Config) (c : Nat) (S : System π) : Nat :=
  ((Finset.range cfg.nrAas).filter fun id =>
    (S.live (aaPointer cfg id)).any fun o => o.sc = c).card

structure Bounded (cfg : Config) (c : Nat) (S : System π) : Prop where
  length : ((S.heap.classes c).lists .nfull).length = (S.heap.classes c).nfullentries
  nfullentries : (S.heap.classes c).nfullentries ≤ cfg.k
  full : ∀ p ∈ classPages c S.heap, p ∉ (S.heap.classes c).lists .nfull →
    (S.heap.pages p).nrUsedPageBlocks = capacity c
  pages : (classPages c S.heap).length ≤ liveCount cfg c S / capacity c + cfg.k
  free : ((classPages c S.heap).map fun p =>
    capacity c - (S.heap.pages p).nrUsedPageBlocks).sum ≤ cfg.k * (capacity c - 1)

theorem Resting.owner (rest : Resting cfg T S) {B : Block} (used : (S.heap.view cfg).used B) :
    ∃ a o, S.live a = some o ∧ IsAa cfg a ∧ StillOk cfg (S.heap.view cfg) a o B := by
  rcases rest.good.owns.owned B used with ⟨a, o, hlive, _, ok⟩ | ⟨t, f, hF, _⟩
  · exact ⟨a, o, hlive, rest.good.isAa a (.inl (by rw [hlive]; simp)), ok⟩
  · cases hF

theorem Resting.full_le (rest : Resting cfg T S) :
    ((S.heap.classes c).lists .full).length * capacity c ≤ liveCount cfg c S := by
  have lists := rest.good.heap.lists
  generalize hP : ((S.heap.classes c).lists .full).toFinset = P
  have members : ∀ p ∈ P, (S.heap.pages p).listFlags = .full ∧ (S.heap.pages p).sc = c := by
    intro p hp
    rw [← hP, List.mem_toFinset, lists.mem] at hp
    exact hp.2.2
  have used : ∀ p ∈ P, (S.heap.pages p).usedPageBlockBitmap.usedBlocks.card = capacity c := by
    intro p hp
    obtain ⟨flag, sc⟩ := members p hp
    have page := rest.good.heap.page p
    rw [← page.used, page.full_iff.mpr flag, sc]
  have total : ((S.heap.classes c).lists .full).length * capacity c =
      (P.sigma fun p => (S.heap.pages p).usedPageBlockBitmap.usedBlocks).card := by
    rw [Finset.card_sigma, Finset.sum_const_nat used, ← hP,
      List.toFinset_card_of_nodup (lists.nodup c .full)]
  have owned : ∀ x ∈ P.sigma fun p => (S.heap.pages p).usedPageBlockBitmap.usedBlocks,
      ∃ a o, S.live a = some o ∧ IsAa cfg a ∧ o.sc = c ∧
        StillOk cfg (S.heap.view cfg) a o ⟨x.1, x.2⟩ := by
    intro x hx
    obtain ⟨hp, hi⟩ := Finset.mem_sigma.mp hx
    obtain ⟨a, o, hlive, isAa, ok⟩ :=
      rest.owner (B := ⟨x.1, x.2⟩) (UsedBitmap.mem_usedBlocks.mp hi)
    exact ⟨a, o, hlive, isAa, ok.sc.symm.trans (members x.1 hp).2, ok⟩
  rw [total]
  -- a block is mapped to the identifier of the address its last word points to
  refine Finset.card_le_card_of_injOn
    (fun x => ((S.heap.view cfg).back ⟨x.1, x.2⟩ - cfg.aaSpace) / 4) ?_ ?_
  · intro x hx
    obtain ⟨a, o, hlive, isAa, sc, ok⟩ := owned x hx
    simp only [ok.carries.back, Finset.coe_filter, Set.mem_ofPred_eq, Finset.mem_range]
    refine ⟨isAa.2.2, ?_⟩
    rw [isAa.pointer, hlive]
    simpa using sc
  · intro x hx y hy eq
    obtain ⟨a, o, _, isAa, _, ok⟩ := owned x hx
    obtain ⟨b, o', _, isAa', _, ok'⟩ := owned y hy
    simp only [ok.carries.back, ok'.carries.back] at eq
    have same := isAa.inj isAa' eq
    subst same
    have block := ok.carries.placed.start_inj ok'.carries.placed (ok.word.symm.trans ok'.word)
    cases x
    cases y
    cases block
    rfl

theorem Resting.no_sources (rest : Resting cfg T S) (c : Nat) :
    (S.heap.classes c).lists .source = [] ∧ (S.heap.classes c).lists .emptying = [] := by
  have zero := rest.sourceentries c
  rw [rest.good.heap.lists.sourceentries] at zero
  exact ⟨List.length_eq_zero_iff.mp (by omega), List.length_eq_zero_iff.mp (by omega)⟩

theorem sum_free_le {cap n : Nat} (l : List Nat) (used : Nat → Nat)
    (one : ∀ p ∈ l, 1 ≤ used p) (few : l.length ≤ n) :
    (l.map fun p => cap - used p).sum ≤ n * (cap - 1) := by
  refine le_trans ?_ (Nat.mul_le_mul_right _ few)
  induction l with
  | nil => simp
  | cons p l ih =>
      have first := one p (List.mem_cons_self ..)
      have rest := ih (fun q hq => one q (List.mem_cons_of_mem _ hq))
        (Nat.le_of_succ_le (by simpa using few))
      simp only [List.map_cons, List.sum_cons, List.length_cons, Nat.succ_mul]
      omega

/-- At an operation boundary, a class whose not-full pages are within the bound has
little free space. -/
theorem Resting.bounded (rest : Resting cfg T S) (hc : c < sizeClasses)
    (n : (S.heap.classes c).nfullentries ≤ cfg.k) : Bounded cfg c S := by
  have lists := rest.good.heap.lists
  have cap := capacity_pos hc
  have full : ∀ p ∈ (S.heap.classes c).lists .full,
      (S.heap.pages p).nrUsedPageBlocks = capacity c := by
    intro p hp
    obtain ⟨_, _, flag, sc⟩ := (lists.mem c .full p).mp hp
    rw [(rest.good.heap.page p).full_iff.mpr flag, sc]
  have length := lists.nfullentries c
  have pages : classPages c S.heap =
      (S.heap.classes c).lists .nfull ++ (S.heap.classes c).lists .full := by
    obtain ⟨source, emptying⟩ := rest.no_sources c
    rw [classPages, source, emptying, List.append_nil, List.append_nil]
  refine ⟨length.symm, n, ?_, ?_, ?_⟩
  · intro p mem notNfull
    rw [pages, List.mem_append] at mem
    exact full p (mem.resolve_left notNfull)
  · have blocks := (Nat.le_div_iff_mul_le cap).mpr (rest.full_le (c := c))
    rw [pages, List.length_append]
    omega
  · have zero : ((S.heap.classes c).lists .full).map (fun p =>
        capacity c - (S.heap.pages p).nrUsedPageBlocks) =
        ((S.heap.classes c).lists .full).map fun _ => 0 := by
      refine List.map_congr_left fun p hp => ?_
      rw [full p hp, Nat.sub_self]
    rw [pages, List.map_append, List.sum_append, zero]
    simp only [List.map_const', List.sum_replicate_nat, Nat.mul_zero, Nat.add_zero]
    refine sum_free_le _ _ (fun p hp => ?_) (length ▸ n)
    obtain ⟨_, _, flag, _⟩ := (lists.mem c .nfull p).mp hp
    have ok := (rest.good.heap.page p).flag
    rw [flag] at ok
    exact ok.1

theorem Resting.source_found (rest : Resting cfg T S) (config : cfg.Compacting)
    (many : ¬ validNfullPagesRatio cfg c 1 S.heap) :
    ∃ p h' i, getSourcePage c S.heap = .ok (p, h') ∧
      (h'.pages p).usedPageBlockBitmap.findUsed = some i := by
  have notFull : ¬ inFullState c S.heap := by
    rintro ⟨zero, _⟩
    refine many ((rest.good.heap.ratio config.bound c).mpr ?_)
    have := config.bound
    simp only [Config.k]
    omega
  obtain ⟨p, h', run, taken⟩ := getSourcePage_spec rest.good.heap notFull
  obtain ⟨_, used⟩ := taken.some
  obtain ⟨i, found⟩ := UsedBitmap.findUsed_isSome used
  exact ⟨p, h', i, run, by rw [taken.used, found]⟩

theorem Sequence.bounded {addresses : π} (run : Sequence cfg T (Clean cfg) addresses S)
    (config : cfg.Compacting) (valid : Valid cfg.toAddressConfig T (fun _ => False) addresses)
    (hc : c < sizeClasses) : Bounded cfg c S ∧ (¬ validNfullPagesRatio cfg c 1 S.heap →
      ∃ p h' i, getSourcePage c S.heap = .ok (p, h') ∧
        (h'.pages p).usedPageBlockBitmap.findUsed = some i) := by
  obtain ⟨rest, n⟩ := run.resting config (fun _ _ _ _ clean => clean) valid
  exact ⟨rest.bounded hc (n c), rest.source_found config⟩

omit [LawfulAddressPool π] in
theorem sequence_of_script (cfg : Config) (T : Nat) (addresses : π) (as : List Action)
    {p : System π → Bool}
    (h : (script cfg T (performWhole cfg) as (System.init cfg addresses)).any p = true) :
    ∃ S, Sequence cfg T (Clean cfg) addresses S ∧ p S = true := by
  obtain ⟨S, run, ok⟩ := (Option.any_eq_true _ _).mp h
  exact ⟨S, script_preserves (fun _ a _ run => .step a run) .init run, ok⟩

def checkedWhole (cfg : Config) (check : System π → Action → Bool) (S : System π) (a : Action) :
    Except Fault (System π) :=
  if check S a then performWhole cfg S a else .error .noSizeClass

omit [LawfulAddressPool π] in
theorem sequence_of_checked (cfg : Config) (T : Nat) (addresses : π) (as : List Action)
    {allowed : System π → Action → Prop} (check : System π → Action → Bool)
    (sound : ∀ S a, Clean cfg S a → check S a = true → allowed S a) {p : System π → Bool}
    (h : (script cfg T (checkedWhole cfg check) as (System.init cfg addresses)).any p = true) :
    ∃ S, Sequence cfg T allowed addresses S ∧ p S = true := by
  obtain ⟨S, run, ok⟩ := (Option.any_eq_true _ _).mp h
  refine ⟨S, script_preserves (fun S a S' before enabled clean step => ?_) .init run, ok⟩
  rw [checkedWhole] at step
  split at step
  next passed => exact .step a before enabled (sound S a clean passed) step
  next => cases step

end Bounds

theorem sequential_bounded (cfg : Config) (config : cfg.Compacting) (T : Nat)
    (S : System AddressBuckets)
    (run : Sequence cfg T (Clean cfg) (AddressBuckets.initFreeAaList cfg.toAddressConfig) S)
    (c : Nat) (hc : c < sizeClasses) :
    Bounded cfg c S ∧ (¬ validNfullPagesRatio cfg c 1 S.heap →
      ∃ p h' i, getSourcePage c S.heap = .ok (p, h') ∧
        (h'.pages p).usedPageBlockBitmap.findUsed = some i) :=
  run.bounded config (AddressBuckets.valid_init _ T) hc

/-- After a compaction and a free of a full page the next one has a source page. -/
theorem sequential_bounded_compacts : ∃ S : System AddressBuckets,
    ¬ validNfullPagesRatio smallConfig 48 1 S.heap ∧
      ∃ p h' i, getSourcePage 48 S.heap = .ok (p, h') ∧
        (h'.pages p).usedPageBlockBitmap.findUsed = some i := by
  obtain ⟨S, run, found⟩ := sequence_of_script smallConfig 1
    (AddressBuckets.initFreeAaList smallConfig.toAddressConfig)
    [.malloc 0 7000, .malloc 0 7000, .malloc 0 7000, .malloc 0 7000, .malloc 0 7000,
      .malloc 0 7000, .free 0 1048824, .free 0 1048816, .free 0 1048812]
    (p := fun S => decide (¬ validNfullPagesRatio smallConfig 48 1 S.heap)) (by decide +kernel)
  have many := of_decide_eq_true found
  exact ⟨S, many, (sequential_bounded smallConfig smallConfig_compacting 1 S run 48
    (by decide)).2 many⟩

end
end CompactFit
