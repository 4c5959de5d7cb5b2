import CompactFit.Scripts
import CompactFit.AddressBuckets
import Mathlib.Tactic.IntervalCases

/-!
What an aborted compaction does when it wakes. The flag ends the copy loop, but the
loop over `memcpy_multiplicator` around it clears `aborted` and goes on copying as long
as it has rounds left.
-/

namespace CompactFit
open ByteMemory AddressPool

section
variable {π : Type} [AddressPool π]

/-- The compactions that have released the class lock, after their first increment or
after a later one, and have not been aborted so far: whenever they were woken up, the target
word was the one they had read. The heaps in between are arbitrary. -/
inductive Suspension (cfg : Config) (t : Nat) : Compaction → Prop where
  | start {c targetPage targetIndex srcPage size : Nat} {comp : Compaction} {h h' : Heap π} :
      doCompaction cfg t c targetPage targetIndex srcPage size h = .ok (.unlocked comp, h') →
      Suspension cfg t comp
  | next {comp comp' : Compaction} {h h' : Heap π} : Suspension cfg t comp →
      h.loadAa cfg comp.targetAa = .ok comp.targetAaVal →
      resumeCompaction cfg t comp h = .ok (.unlocked comp', h') → Suspension cfg t comp'

/-- Woken up, the compaction returns one of the flags set in its target word and gives
the target's address back once; nothing else changes. Only `put_free_aa` may fail. -/
def AbortFinal (cfg : Config) (t flags : Nat) (comp : Compaction) (h : Heap π) : Prop :=
  match putFreeAa cfg.toAddressConfig t ((comp.targetAa - cfg.aaSpace) / 4) h.addresses with
  | .error fault => resumeCompaction cfg t comp h = .error fault
  | .ok addresses => ∃ flag, (flag = abortCompactFlag ∨ flag = abortFreeFlag) ∧
      flags &&& flag ≠ 0 ∧
      resumeCompaction cfg t comp h = .ok (.returned flag, { h with addresses := addresses })

section Copy
variable {cfg : Config} {t : Nat} {comp comp' : Compaction} {h h' : Heap π}

theorem bind_eq_ok {α β : Type} {x : Except Fault α} {f : α → Except Fault β} {b : β}
    (run : x >>= f = .ok b) : ∃ a, x = .ok a ∧ f a = .ok b := by
  cases x with
  | error => cases run
  | ok a => exact ⟨a, rfl, run⟩

theorem finishCompaction_returned {r : Outcome × Heap π}
    (run : finishCompaction cfg t comp h = .ok r) : r.1 = .returned 0 := by
  obtain ⟨_, _, run⟩ := bind_eq_ok run
  obtain ⟨_, _, run⟩ := bind_eq_ok run
  cases run
  rfl

/-- A round that releases the lock has copied one increment of several, and keeps the round
counter and the addresses. -/
theorem copyIncrement_unlocked (run : copyIncrement cfg t comp h = .ok (.unlocked comp', h')) :
    cfg.incrementalMemcpy ≠ 0 ∧ cfg.incrementalMemcpy < comp.remSize ∧
      comp' = { comp with
        remSize := comp.remSize - cfg.incrementalMemcpy
        dest := comp.dest + cfg.incrementalMemcpy
        src := comp.src + cfg.incrementalMemcpy } ∧
      h' = Heap.writeMemory (Heap.writeMemory
        { h with memory := memcpy h.memory comp.dest comp.src cfg.incrementalMemcpy }
        comp.targetPartField (blockStart comp.srcPage comp.srcIndex comp.size)) comp.srcPartField
        (blockStart comp.targetPage comp.targetIndex comp.size) := by
  by_cases more : 0 < comp.remSize -
      (if cfg.incrementalMemcpy ≠ 0 then min comp.remSize cfg.incrementalMemcpy else comp.remSize)
  · have inc : cfg.incrementalMemcpy ≠ 0 := by
      intro zero
      rw [if_neg (not_not.mpr zero)] at more
      omega
    have size : (if cfg.incrementalMemcpy ≠ 0 then min comp.remSize cfg.incrementalMemcpy
        else comp.remSize) = cfg.incrementalMemcpy := by
      rw [if_pos inc] at more ⊢
      omega
    rw [size] at more
    rw [copyIncrement_of_more size more] at run
    cases run
    exact ⟨inc, by omega, rfl, rfl⟩
  · rw [copyIncrement_of_last rfl more] at run
    cases finishCompaction_returned run

theorem flagAa_isAa {a flag : Nat} (run : h.flagAa cfg a flag = .ok h') : IsAa cfg a := by
  obtain ⟨w, load, _⟩ := bind_eq_ok run
  by_contra wild
  simp only [Heap.loadAa, wild, if_false] at load
  cases load

theorem doCompaction_unlocked {c targetPage targetIndex srcPage size : Nat}
    (run : doCompaction cfg t c targetPage targetIndex srcPage size h =
      .ok (.unlocked comp, h')) : comp.j = 0 ∧ IsAa cfg comp.srcAa := by
  obtain ⟨_, _, run⟩ := bind_eq_ok run
  obtain ⟨_, _, run⟩ := bind_eq_ok run
  obtain ⟨_, flagged, run⟩ := bind_eq_ok run
  obtain ⟨_, _, run⟩ := bind_eq_ok run
  obtain ⟨_, _, run⟩ := bind_eq_ok run
  obtain ⟨_, _, rfl, _⟩ := copyIncrement_unlocked run
  exact ⟨rfl, flagAa_isAa flagged⟩

theorem abortCompaction_returned {r : Outcome × Heap π}
    (run : abortCompaction cfg t comp h = .ok r) : ∃ flag, r.1 = .returned flag := by
  obtain ⟨_, _, run⟩ := bind_eq_ok run
  split at run
  · obtain ⟨_, _, run⟩ := bind_eq_ok run
    cases run
    exact ⟨_, rfl⟩
  · split at run
    · obtain ⟨_, _, run⟩ := bind_eq_ok run
      cases run
      exact ⟨_, rfl⟩
    · cases run

theorem loadAa_eq {a w : Nat} (load : h.loadAa cfg a = .ok w) : h.aaWord cfg a = w := by
  rw [Heap.loadAa] at load
  split at load
  · exact Except.ok.inj load
  · cases load

/-- Only an abort moves the copy to the next round of the outer loop. -/
theorem resumeCompaction_unlocked
    (run : resumeCompaction cfg t comp h = .ok (.unlocked comp', h')) :
    comp'.srcAa = comp.srcAa ∧
      (comp'.j = comp.j ∧ h.loadAa cfg comp.targetAa = .ok comp.targetAaVal ∨
        comp.j + 1 < cfg.memcpyMultiplicator ∧ comp.Aborted cfg h) := by
  obtain ⟨w, load, run⟩ := bind_eq_ok run
  split at run
  next same =>
    obtain ⟨_, _, rfl, _⟩ := copyIncrement_unlocked run
    exact ⟨rfl, .inl ⟨rfl, same ▸ load⟩⟩
  next changed =>
    split at run
    next more =>
      obtain ⟨_, _, rfl, _⟩ := copyIncrement_unlocked run
      refine ⟨rfl, .inr ⟨more, fun same => changed ?_⟩⟩
      rw [← loadAa_eq load, same]
    · obtain ⟨_, ⟨⟩⟩ := abortCompaction_returned run

theorem Suspension.source (suspended : Suspension (π := π) cfg t comp) :
    IsAa cfg comp.srcAa := by
  induction suspended with
  | start run => exact (doCompaction_unlocked run).2
  | next _ _ run ih => exact (resumeCompaction_unlocked run).1 ▸ ih

/-- A compaction that has not been aborted is in the first round of its outer loop. -/
theorem Suspension.round (suspended : Suspension (π := π) cfg t comp) : comp.j = 0 := by
  induction suspended with
  | start run => exact (doCompaction_unlocked run).1
  | next _ load run ih =>
      rcases (resumeCompaction_unlocked run).2 with ⟨same, _⟩ | ⟨_, aborted⟩
      · exact same.trans ih
      · exact absurd (loadAa_eq load) aborted

/-! ### The suspended calls of a run -/

theorem settleFree_unlocked {a c : Nat} {held : Option Nat} {r : Outcome × Heap π}
    {call : Suspended} (run : settleFree cfg t a held c r = .ok (some call, h')) :
    r = (.unlocked call.comp, h') := by
  obtain ⟨_ | comp, g⟩ := r
  · obtain ⟨_, _, run⟩ := bind_eq_ok run
    cases run
  · cases run
    rfl

/-- A free operation that is not a compaction settles the call. -/
theorem settled_returned {a c : Nat} {held : Option Nat} {x : Except Fault (Heap π)}
    {call : Suspended}
    (run : (x >>= fun g => settleFree cfg t a held c (.returned 0, g)) = .ok (some call, h')) :
    False := by
  obtain ⟨_, _, run⟩ := bind_eq_ok run
  cases settleFree_unlocked run

theorem settled_compaction {a c targetPage targetIndex srcPage size : Nat} {held : Option Nat}
    {call : Suspended}
    (run : (doCompaction cfg t c targetPage targetIndex srcPage size h >>=
      settleFree cfg t a held c) = .ok (some call, h')) : Suspension (π := π) cfg t call.comp := by
  obtain ⟨r, compacted, run⟩ := bind_eq_ok run
  rw [settleFree_unlocked run] at compacted
  exact .start compacted

theorem freeMoving_unlocked {a c srcPage targetBlock size : Nat} {call : Suspended}
    (run : freeMoving cfg t c a srcPage targetBlock size h = .ok (some call, h')) :
    Suspension (π := π) cfg t call.comp := by
  obtain ⟨_, _, run⟩ := bind_eq_ok run
  split at run
  · exact (settled_returned run).elim
  · dsimp only at run
    split at run
    · obtain ⟨_, _, run⟩ := bind_eq_ok run
      obtain ⟨_, _, run⟩ := bind_eq_ok run
      exact settled_compaction run
    · exact (settled_returned run).elim

theorem freeStill_unlocked {a c targetPage size index : Nat} {call : Suspended}
    (run : freeStill cfg t c a targetPage size index h = .ok (some call, h')) :
    Suspension (π := π) cfg t call.comp := by
  rw [freeStill] at run
  split at run
  · exact (settled_returned run).elim
  · split at run
    · obtain ⟨_, _, run⟩ := bind_eq_ok run
      exact settled_compaction run
    · exact (settled_returned run).elim

theorem freeInFullState_returned {a c targetPage size index : Nat}
    {r : Option Suspended × Heap π}
    (run : freeInFullState cfg t c a targetPage size index h = .ok r) : r.1 = none := by
  rw [freeInFullState] at run
  split at run
  · obtain ⟨_, _, run⟩ := bind_eq_ok run
    obtain ⟨_, _, run⟩ := bind_eq_ok run
    dsimp only at run
    obtain ⟨_, _, run⟩ := bind_eq_ok run
    split at run
    · obtain ⟨_, _, run⟩ := bind_eq_ok run
      obtain ⟨_, _, run⟩ := bind_eq_ok run
      obtain ⟨_, _, run⟩ := bind_eq_ok run
      cases run
      rfl
    · obtain ⟨_, _, run⟩ := bind_eq_ok run
      obtain ⟨_, _, run⟩ := bind_eq_ok run
      cases run
      rfl
  · obtain ⟨_, _, run⟩ := bind_eq_ok run
    obtain ⟨_, _, run⟩ := bind_eq_ok run
    cases run
    rfl

theorem cfFree_unlocked {a : Nat} {call : Suspended}
    (run : cfFree cfg t a h = .ok (some call, h')) : Suspension (π := π) cfg t call.comp := by
  rw [cfFree] at run
  split at run
  · obtain ⟨_, _, run⟩ := bind_eq_ok run
    obtain ⟨_, _, run⟩ := bind_eq_ok run
    cases run
  · obtain ⟨_, _, run⟩ := bind_eq_ok run
    dsimp only at run
    split at run
    · cases freeInFullState_returned run
    · split at run
      · exact freeMoving_unlocked run
      · exact freeStill_unlocked run

theorem resumeFree_unlocked {call call' : Suspended}
    (suspended : Suspension (π := π) cfg t call.comp)
    (final : call.comp.Aborted cfg h → cfg.memcpyMultiplicator = 1)
    (run : resumeFree cfg t call h = .ok (some call', h')) :
    Suspension (π := π) cfg t call'.comp := by
  obtain ⟨r, resumed, run⟩ := bind_eq_ok run
  rw [settleFree_unlocked run] at resumed
  rcases (resumeCompaction_unlocked resumed).2 with ⟨_, load⟩ | ⟨more, aborted⟩
  · exact .next suspended load resumed
  · rw [final aborted] at more
    omega

/-- The calls that are suspended in a run that skips no abort are suspended compactions. -/
theorem Run.suspension {T : Nat} {allowed : System π → Action → Prop} {addresses : π}
    {S : System π} (run : Run cfg T allowed addresses S)
    (final : ∀ S a, allowed S a → AbortsFinal cfg S a) :
    ∀ t call, S.calls t = some call → Suspension (π := π) cfg t call.comp := by
  induction run with
  | init => rintro t call ⟨⟩
  | @step S S' a _ _ ok run ih =>
      intro u call hc
      cases a with
      | malloc t size =>
          obtain ⟨⟨_ | a, h⟩, _, run⟩ := bind_eq_ok run <;> cases run <;> exact ih u call hc
      | free t a =>
          obtain ⟨⟨r, h⟩, freed, run⟩ := bind_eq_ok run
          cases run
          by_cases hu : u = t
          · subst hu
            rw [show r = some call by simpa using hc] at freed
            exact cfFree_unlocked freed
          · exact ih u call (by simpa [hu] using hc)
      | resume t =>
          simp only [perform, System.resume] at run
          split at run
          · cases run
            exact ih u call hc
          next was =>
            obtain ⟨⟨r, h⟩, resumed, run⟩ := bind_eq_ok run
            cases run
            by_cases hu : u = t
            · subst hu
              rw [show r = some call by simpa using hc] at resumed
              exact resumeFree_unlocked (ih u _ was) (final _ _ ok _ was) resumed
            · exact ih u call (by simpa [hu] using hc)
      | write a j x =>
          simp only [perform, System.write] at run
          split at run
          · cases run
            exact ih u call hc
          · obtain ⟨_, _, run⟩ := bind_eq_ok run
            cases run
            exact ih u call hc

theorem bind_eq_error {α β : Type} {x : Except Fault α} {f : α → Except Fault β} {fault : Fault}
    (run : x >>= f = .error fault) :
    x = .error fault ∨ ∃ a, x = .ok a ∧ f a = .error fault := by
  cases x with
  | error =>
      cases run
      exact .inl rfl
  | ok a => exact .inr ⟨a, rfl, run⟩

theorem ensure_error {c : Prop} [Decidable c] {kind fault : Fault}
    (run : ensure c kind = .error fault) : fault = kind := by
  rw [ensure] at run
  split at run
  · cases run
  · cases run
    rfl

omit [AddressPool π] in
/-- The list functions and the page pool fail with assertions of their own. -/
theorem releaseSource_error {c p : Nat} {fault : Fault}
    (run : releaseSource cfg t c p h = .error fault) : fault = .listFlags ∨ fault = .nullPage := by
  have listed : ∀ {f} {g k : Heap π}, removePage f c p g = .error fault ∨
      addPage f c p k = .error fault → fault = .listFlags := by
    rintro f g k (fail | fail) <;> rcases bind_eq_error fail with fail | ⟨_, _, ⟨⟩⟩ <;>
      exact ensure_error fail
  rw [releaseSource, doFreeSourceState] at run
  split at run
  · split at run
    · rcases bind_eq_error run with fail | ⟨g, _, fail⟩
      · exact .inl (listed (k := h) (.inl fail))
      · rcases bind_eq_error fail with fail | ⟨_, _, fail⟩
        · exact .inr (ensure_error fail)
        · rcases bind_eq_error fail with fail | ⟨_, _, ⟨⟩⟩
          exact .inl (ensure_error fail)
    · rcases bind_eq_error run with fail | ⟨g, _, fail⟩
      · exact .inl (listed (k := h) (.inl fail))
      · exact .inl (listed (g := h) (.inr fail))
  · cases run

/-- A further round neither returns a flag nor asks for an address bucket. -/
theorem copyIncrement_goes_on (isAa : IsAa cfg comp.srcAa) :
    (∀ flag h', flag ≠ 0 → copyIncrement cfg t comp h ≠ .ok (.returned flag, h')) ∧
      copyIncrement cfg t comp h ≠ .error .emptyBucket := by
  by_cases more : 0 < comp.remSize -
      (if cfg.incrementalMemcpy ≠ 0 then min comp.remSize cfg.incrementalMemcpy else comp.remSize)
  · rw [copyIncrement_of_more rfl more]
    exact ⟨fun _ _ _ eq => (by cases eq), fun eq => (by cases eq)⟩
  · rw [copyIncrement_of_last rfl more]
    refine ⟨fun flag _ nonzero run => ?_, fun run => ?_⟩
    · cases finishCompaction_returned run
      exact nonzero rfl
    · simp only [finishCompaction, Heap.storeAa, isAa, if_true, ok_bind] at run
      rcases bind_eq_error run with fail | ⟨_, _, ⟨⟩⟩
      rcases releaseSource_error fail with eq | eq <;> cases eq

end Copy

section Final
variable {cfg : Config} {t flags : Nat} {comp : Compaction} {h : Heap π}

variable (flags) in
/-- The flags are the low bits of a flagged pointer. -/
theorem flagged_and {w flag : Nat} (pointer : w % 4 = 0) (known : flag < 4) :
    (w ||| flags) &&& flag = flags &&& flag := by
  have low : flag = 3 &&& flag := by
    interval_cases flag <;> rfl
  have clear : w &&& flag = 0 := by
    rw [low, ← Nat.and_assoc, Nat.and_two_pow_sub_one_eq_mod w 2, pointer, Nat.zero_and]
  rw [Nat.and_or_distrib_right, clear, Nat.zero_or]

theorem flagged_ne {w : Nat} (pointer : w % 4 = 0) (set : 0 < flags) (known : flags < 4) :
    w ||| flags ≠ w := by
  intro eq
  have low := flagged_and flags pointer known
  rw [Nat.and_self, eq, ← Nat.or_zero w, flagged_and _ pointer known, Nat.zero_and] at low
  omega

/-- The abort is noticed, and with rounds left the copy goes on. -/
theorem resumeCompaction_flagged (pointer : comp.targetAaVal % 4 = 0) (set : 0 < flags)
    (known : flags < 4) (word : h.loadAa cfg comp.targetAa = .ok (comp.targetAaVal ||| flags)) :
    resumeCompaction cfg t comp h =
      if comp.j + 1 < cfg.memcpyMultiplicator then
        copyIncrement cfg t { comp with j := comp.j + 1 } h
      else abortCompaction cfg t comp h := by
  simp only [resumeCompaction, word, ok_bind, flagged_ne pointer set known, if_false]

theorem abortFinal_last (last : ¬ comp.j + 1 < cfg.memcpyMultiplicator)
    (pointer : comp.targetAaVal % 4 = 0) (set : 0 < flags) (known : flags < 4)
    (word : h.loadAa cfg comp.targetAa = .ok (comp.targetAaVal ||| flags)) :
    AbortFinal cfg t flags comp h := by
  have gives : ∃ flag, (flag = abortCompactFlag ∨ flag = abortFreeFlag) ∧ flags &&& flag ≠ 0 ∧
      resumeCompaction cfg t comp h =
        clearAbstractAddress cfg t comp.targetAa h >>= fun h' => .ok (.returned flag, h') := by
    rw [resumeCompaction_flagged pointer set known word, if_neg last]
    simp only [abortCompaction, word, ok_bind, flagged_and _ pointer
      (by decide : abortCompactFlag < 4),
      flagged_and _ pointer (by decide : abortFreeFlag < 4)]
    by_cases compact : flags &&& abortCompactFlag = 0
    · have free : flags &&& abortFreeFlag ≠ 0 := by
        interval_cases flags <;> revert compact <;> decide
      refine ⟨abortFreeFlag, .inr rfl, free, ?_⟩
      rw [if_neg (not_not.mpr compact), if_pos free]
      rfl
    · refine ⟨abortCompactFlag, .inl rfl, compact, ?_⟩
      rw [if_pos compact]
      rfl
  obtain ⟨flag, isFlag, visible, run⟩ := gives
  simp only [clearAbstractAddress] at run
  rw [AbortFinal]
  generalize putFreeAa cfg.toAddressConfig t ((comp.targetAa - cfg.aaSpace) / 4) h.addresses =
    put at run
  cases put with
  | error fault => exact run
  | ok addresses => exact ⟨flag, isFlag, visible, run⟩

end Final
end

/-! ### The pool of the source -/

section Pool
variable {cfg : Config} {t flags : Nat} {comp : Compaction} {h : Heap AddressBuckets}

theorem putFreeAa_error {σ : AddressBuckets} {id : Nat} {fault : Fault}
    (run : putFreeAa cfg.toAddressConfig t id σ = .error fault) : fault = .emptyBucket := by
  rcases bind_eq_error (x := AddressBuckets.spillAas _ t σ) run with fail | ⟨_, _, ⟨⟩⟩
  rw [AddressBuckets.spillAas] at fail
  split at fail
  · rcases bind_eq_error fail with fail | ⟨_, _, ⟨⟩⟩
    rw [AddressBuckets.takeFreeAbucket] at fail
    split at fail
    · generalize AddressBuckets.aaBucketGet σ = r at fail
      rcases bind_eq_error fail with fail | ⟨_, _, ⟨⟩⟩
      exact ensure_error fail
    · cases fail
  · cases fail

/-- With rounds left the compaction does not end with the abort. -/
theorem not_abortFinal_more (more : comp.j + 1 < cfg.memcpyMultiplicator)
    (isAa : IsAa cfg comp.srcAa) (pointer : comp.targetAaVal % 4 = 0) (set : 0 < flags)
    (known : flags < 4) (word : h.loadAa cfg comp.targetAa = .ok (comp.targetAaVal ||| flags)) :
    ¬ AbortFinal cfg t flags comp h := by
  intro final
  rw [AbortFinal, resumeCompaction_flagged pointer set known word, if_pos more] at final
  split at final
  next fault put =>
    rw [putFreeAa_error put] at final
    exact (copyIncrement_goes_on (by exact isAa)).2 final
  next =>
    obtain ⟨flag, isFlag, _, run⟩ := final
    refine (copyIncrement_goes_on (by exact isAa)).1 flag _ ?_ run
    rcases isFlag with rfl | rfl <;> decide

end Pool

/-- An abort of a suspended compaction, the first one it is to see, is final exactly when the
outer loop has one round only. -/
theorem abort_final_iff (cfg : Config) (t flags : Nat) (comp : Compaction)
    (suspended : Suspension (π := AddressBuckets) cfg t comp) (h : Heap AddressBuckets)
    (pointer : comp.targetAaVal % 4 = 0) (set : 0 < flags) (known : flags < 4)
    (word : h.loadAa cfg comp.targetAa = .ok (comp.targetAaVal ||| flags)) :
    AbortFinal cfg t flags comp h ↔ cfg.memcpyMultiplicator = 1 := by
  have first := suspended.round
  have rounds := cfg.memcpyMultiplicator_pos
  refine ⟨fun final => ?_, fun once => ?_⟩
  · by_contra more
    exact not_abortFinal_more (by omega) suspended.source pointer set known word final
  · exact abortFinal_last (by omega) pointer set known word

/-- A compaction that is half done when another thread moves its target block on. -/
def takenOver : List Action :=
  [.malloc 0 7000, .malloc 0 7000, .malloc 0 7000, .malloc 0 7000, .malloc 0 7000,
    .malloc 0 7000, .free 0 1048824, .free 0 1048820, .free 1 1048816, .free 1 1048812]

/-- A step that resumes no suspended call. -/
def performFirst (cfg : Config) (S : System AddressBuckets) (a : Action) :
    Except Fault (System AddressBuckets) :=
  match a with
  | .resume _ => .error .reportBug
  | a => perform cfg S a

/-- Thread 0 is suspended in a compaction whose target word has been flagged. -/
def flaggedCall (cfg : Config) (S : System AddressBuckets) : Bool :=
  (S.calls 0).any fun call => IsAa cfg call.comp.targetAa && call.comp.targetAaVal % 4 = 0 &&
    S.heap.aaWord cfg call.comp.targetAa = (call.comp.targetAaVal ||| abortCompactFlag)

theorem flaggedCall_sound {cfg : Config} {S : System AddressBuckets}
    (h : flaggedCall cfg S = true) : ∃ call, S.calls 0 = some call ∧
      call.comp.targetAaVal % 4 = 0 ∧ S.heap.loadAa cfg call.comp.targetAa =
        .ok (call.comp.targetAaVal ||| abortCompactFlag) := by
  obtain ⟨call, hc, ok⟩ := (Option.any_eq_true _ _).mp h
  simp only [Bool.and_eq_true, decide_eq_true_eq] at ok
  obtain ⟨⟨isAa, pointer⟩, word⟩ := ok
  exact ⟨call, hc, pointer, by rw [Heap.loadAa, if_pos isAa, word]⟩

/-- A list that resumes no call leads to an abort that has not been skipped. -/
theorem flagged_of_script (cfg : Config) (as : List Action)
    (h : (script cfg 2 (performFirst cfg) as (System.init cfg
      (AddressBuckets.initFreeAaList cfg.toAddressConfig))).any (flaggedCall cfg) = true) :
    ∃ S call, Run cfg 2 (fun S a => Clean cfg S a ∧ AbortsFinal cfg S a)
        (AddressBuckets.initFreeAaList cfg.toAddressConfig) S ∧ S.calls 0 = some call ∧
      Suspension (π := AddressBuckets) cfg 0 call.comp ∧ call.comp.targetAaVal % 4 = 0 ∧
      S.heap.loadAa cfg call.comp.targetAa = .ok (call.comp.targetAaVal ||| abortCompactFlag) := by
  obtain ⟨S, steps, found⟩ := (Option.any_eq_true _ _).mp h
  have run : Run cfg 2 (fun S a => Clean cfg S a ∧ AbortsFinal cfg S a)
      (AddressBuckets.initFreeAaList cfg.toAddressConfig) S := by
    refine script_preserves (fun S a S' before enabled clean run => ?_) .init steps
    cases a with
    | resume => cases run
    | malloc | free | write => exact .step _ before enabled ⟨clean, trivial⟩ run
  obtain ⟨call, hc, pointer, word⟩ := flaggedCall_sound found
  exact ⟨S, call, run, hc, run.suspension (fun _ _ ok => ok.2) 0 call hc, pointer, word⟩

theorem abort_final_once : ∃ (comp : Compaction) (h : Heap AddressBuckets),
    h.loadAa smallConfig comp.targetAa = .ok (comp.targetAaVal ||| abortCompactFlag) ∧
      AbortFinal smallConfig 0 abortCompactFlag comp h := by
  obtain ⟨S, call, _, _, suspended, pointer, word⟩ :=
    flagged_of_script smallConfig takenOver (by decide +kernel)
  refine ⟨call.comp, S.heap, word, ?_⟩
  exact (abort_final_iff smallConfig 0 _ call.comp suspended S.heap pointer
    (by decide) (by decide) word).mpr rfl

def twiceConfig : Config :=
  { smallConfig with
    memcpyMultiplicator := 2
    memcpyMultiplicator_pos := Nat.two_pos }

/-- The aborted compaction of thread 0, which was not aborted before, goes on with its copy. -/
theorem abort_not_final : ∃ (S : System AddressBuckets) (call : Suspended),
    Run twiceConfig 2 (fun S a => Clean twiceConfig S a ∧ AbortsFinal twiceConfig S a)
        (AddressBuckets.initFreeAaList twiceConfig.toAddressConfig) S ∧
      S.calls 0 = some call ∧ S.heap.loadAa twiceConfig call.comp.targetAa =
        .ok (call.comp.targetAaVal ||| abortCompactFlag) ∧
      ¬ AbortFinal twiceConfig 0 abortCompactFlag call.comp S.heap := by
  obtain ⟨S, call, run, hc, suspended, pointer, word⟩ :=
    flagged_of_script twiceConfig takenOver (by decide +kernel)
  refine ⟨S, call, run, hc, word, not_abortFinal_more ?_ suspended.source pointer ?_ ?_ word⟩
  · rw [suspended.round]
    decide
  · decide
  · decide

end CompactFit
