import CompactFit.Safety

/-!
What the word of an abstract address holds while calls are suspended. `do_compaction`
flags the word of the object it moves and releases the class lock, so until the copy
ends `cf_dereference` is off by the flag.
-/

namespace CompactFit
open Function ByteMemory AddressPool LawfulAddressPool

section
variable {π : Type} [AddressPool π]

/-- `B` is a block of the object's class whose last word points back to its address. -/
structure Heap.Belongs (h : Heap π) (B : Block) (a : Nat) (o : Obj) : Prop where
  sc : (h.pages B.page).sc = o.sc
  index : B.index < capacity o.sc
  back : readWord h.memory (addressField B.page B.index (blockSize o.sc)) = a

/-- The word of the abstract address is the start of a block of the object, and
`cf_dereference` counts from there. -/
def AddressExact (cfg : Config) (h : Heap π) (a : Nat) (o : Obj) : Prop :=
  ∃ B, h.Belongs B a o ∧ h.aaWord cfg a = h.blockAddress B ∧
    ∀ i, cfDereference cfg a i h = .ok (h.blockAddress B + i)

def BeingMoved (cfg : Config) (S : System π) (a : Nat) : Prop :=
  ∃ t call, S.calls t = some call ∧ call.comp.srcAa = a ∧ ¬ call.comp.Aborted cfg S.heap

variable [LawfulAddressPool π]

section State
variable {cfg : Config} {T : Nat} {S : System π} {F : Frames} {a : Nat} {o : Obj}

theorem moving_iff (good : Good cfg T S.heap S.live F)
    (answers : ∀ t, Answers (S.calls t) (F t)) : Moving F a ↔ BeingMoved cfg S a := by
  constructor
  · rintro ⟨t, f, s, hF, source, rfl⟩
    obtain ⟨call, hc, waiting⟩ := answers_frame answers hF
    obtain ⟨B, _, target, _⟩ := good.owns.source_ok hF source
    refine ⟨t, call, hc, ?_, good.running hF waiting target⟩
    cases waiting with
    | copying _ source' =>
        rw [source] at source'
        cases source'
        rfl
    | aborted none =>
        rw [target] at none
        cases none
  · rintro ⟨t, call, hc, rfl, running⟩
    have ans := answers t
    rw [hc] at ans
    cases hF : F t with
    | none =>
        rw [hF] at ans
        cases ans
    | some f =>
        rw [hF] at ans
        cases ans with
        | copying target source linked size => exact ⟨t, f, _, hF, source, rfl⟩
        | aborted none sc targetAa round value lost =>
            exact absurd (good.aborted_of_lost hF (.aborted none sc targetAa round value lost) none)
              running

omit [AddressPool π] [LawfulAddressPool π] in
theorem Heap.Belongs.pointer {h : Heap π} {B : Block} (own : h.Belongs B a o)
    (sc : o.sc < sizeClasses) : h.blockAddress B % 4 = 0 := by
  rw [Heap.blockAddress, own.sc]
  exact blockStart_word (blockSize_word sc)

theorem Sound.exact_iff (sound : Sound cfg T S) (config : cfg.Compacting)
    (hlive : S.live a = some o) : AddressExact cfg S.heap a o ↔ ¬ BeingMoved cfg S a := by
  obtain ⟨F, good, answers⟩ := sound
  rw [← moving_iff good answers]
  obtain ⟨B, carries, sc, _, _, _, word⟩ := good.object hlive
  have placed := carries.placed
  have size : (S.heap.view cfg).size B = blockSize o.sc := congrArg blockSize sc
  have own : S.heap.Belongs B a o := ⟨sc, sc ▸ placed.index, size ▸ carries.back⟩
  have valid : o.sc < sizeClasses := sc ▸ placed.sc
  constructor
  · rintro ⟨C, own', eq, _⟩ moving
    rcases word with ⟨_, still, _⟩ | ⟨flagged, _⟩
    · exact still moving
    · -- the flag shows in the low bits, whatever the block
      have low := own'.pointer valid
      have low' := own.pointer valid
      rw [← eq, flagged] at low
      change (S.heap.blockAddress B + 1) % 4 = 0 at low
      omega
  · intro still
    rcases word with ⟨word, _⟩ | ⟨_, moving⟩
    · refine ⟨B, own, word, fun i => ?_⟩
      have isAa := good.isAa a (.inl (by rw [hlive]; simp))
      have moving : ¬ cfg.partialCompactionBound = -1 := by have := config.bound; omega
      rw [cfDereference, if_neg moving, S.heap.loadAa_ok isAa]
      simp only [Heap.view, isAa, if_true, ok_bind]
      rw [word]
      rfl
    · exact absurd moving still

end State

/-- In the runs without exhausted addresses and without resumed aborts, the abstract address of
a live object is exact unless a suspended call is moving the object. -/
theorem addressExact_iff (cfg : Config) (config : cfg.Compacting) (T : Nat)
    (S : System AddressBuckets)
    (run : Run cfg T (fun S a => Clean cfg S a ∧ AbortsFinal cfg S a)
      (AddressBuckets.initFreeAaList cfg.toAddressConfig) S)
    (a : Nat) (o : Obj) (hlive : S.live a = some o) :
    AddressExact cfg S.heap a o ↔ ¬ BeingMoved cfg S a :=
  (run.sound config (fun _ _ ok => ok) (AddressBuckets.valid_init _ T)).exact_iff config hlive

/-- Four objects of 7000 bytes, two for each page; the second free moves the object
1048828 and waits with the first increment copied. -/
theorem moving_script : ∃ S call, Run smallConfig 1
      (fun S a => Clean smallConfig S a ∧ AbortsFinal smallConfig S a)
      (AddressBuckets.initFreeAaList smallConfig.toAddressConfig) S ∧
    S.calls 0 = some call ∧ call.comp.srcAa = 1048828 ∧ ¬ call.comp.Aborted smallConfig S.heap ∧
    S.live 1048828 ≠ none ∧ S.live 1048816 ≠ none := by
  obtain ⟨S, reachable, found⟩ := reachable_of_script smallConfig 1
    (AddressBuckets.initFreeAaList smallConfig.toAddressConfig)
    [.malloc 0 7000, .malloc 0 7000, .malloc 0 7000, .malloc 0 7000, .free 0 1048824,
      .free 0 1048820]
    (p := fun S => (S.calls 0).any (fun call => call.comp.srcAa = 1048828 &&
      S.heap.aaWord smallConfig call.comp.targetAa = call.comp.targetAaVal) &&
      (S.live 1048828).isSome && (S.live 1048816).isSome) (by decide +kernel)
  simp only [Bool.and_eq_true, Option.any_eq_true, decide_eq_true_eq,
    Option.isSome_iff_ne_none] at found
  obtain ⟨⟨⟨call, hc, source, same⟩, moved⟩, still⟩ := found
  exact ⟨S, call, reachable.mono fun _ a clean => ⟨clean, abortsFinal_once rfl a⟩, hc, source,
    fun aborted => aborted same, moved, still⟩

theorem addressExact_still : ∃ (S : System AddressBuckets) (o : Obj),
    S.live 1048816 = some o ∧ AddressExact smallConfig S.heap 1048816 o := by
  obtain ⟨S, call, run, hc, source, _, _, alive⟩ := moving_script
  obtain ⟨o, hlive⟩ := Option.ne_none_iff_exists'.mp alive
  refine ⟨S, o, hlive,
    (addressExact_iff smallConfig smallConfig_compacting 1 S run _ o hlive).mpr ?_⟩
  rintro ⟨t, call', hc', source', _⟩
  obtain ⟨F, good, answers⟩ := run.sound smallConfig_compacting (fun _ _ ok => ok)
    (AddressBuckets.valid_init _ 1)
  match t with
  | 0 =>
      rw [hc] at hc'
      cases hc'
      omega
  | t + 1 =>
      rw [calls_none good answers (by omega)] at hc'
      cases hc'

/-- The word of the object that is being moved carries the flag. -/
theorem addressExact_moved : ∃ (S : System AddressBuckets) (o : Obj),
    Reachable smallConfig 1 (AddressBuckets.initFreeAaList smallConfig.toAddressConfig) S ∧
      S.live 1048828 = some o ∧ ¬ AddressExact smallConfig S.heap 1048828 o := by
  obtain ⟨S, call, run, hc, source, running, alive, _⟩ := moving_script
  obtain ⟨o, hlive⟩ := Option.ne_none_iff_exists'.mp alive
  have sound := run.sound smallConfig_compacting (fun _ _ ok => ok) (AddressBuckets.valid_init _ 1)
  refine ⟨S, o, run.mono fun _ _ ok => ok.1, hlive, fun exact_ => ?_⟩
  exact (sound.exact_iff smallConfig_compacting hlive).mp exact_
    ⟨0, call, hc, source, running⟩

end
end CompactFit
