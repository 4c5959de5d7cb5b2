import CompactFit.Scripts

/-!
Safety of interleaved compactions. In every reachable state no enabled step fails an
assertion, every live object has a block of its own with its bytes in it, and a call
whose compaction was aborted leaves all pages alone when it wakes.
-/

namespace CompactFit
open Function ByteMemory AddressPool LawfulAddressPool

section
variable {π : Type} [AddressPool π]

/-- The block an abstract address leads to; flags in its word do not matter. -/
def Heap.blockOf (cfg : Config) (a : Nat) (h : Heap π) : Block :=
  let p := pageOfBlock (h.aaWord cfg a)
  { page := p, index := indexOfBlock p (h.aaWord cfg a) (blockSize (h.pages p).sc) }

def Heap.blockAddress (B : Block) (h : Heap π) : Nat :=
  blockStart B.page B.index (blockSize (h.pages B.page).sc)

/-- The live object `o` at `a` is complete in the block its address leads to. -/
structure ObjectIntact (cfg : Config) (h : Heap π) (a : Nat) (o : Obj) : Prop where
  sc : (h.pages (h.blockOf cfg a).page).sc = o.sc
  index : (h.blockOf cfg a).index < capacity o.sc
  back : readWord h.memory (addressField (h.blockOf cfg a).page (h.blockOf cfg a).index
    (blockSize o.sc)) = a
  bytes : ∀ j, j < o.size → j < View.userBytes cfg (blockSize o.sc) →
    h.memory (h.blockAddress (h.blockOf cfg a) + j) = o.bytes j

def Compaction.target (comp : Compaction) : Block := ⟨comp.targetPage, comp.targetIndex⟩

def OnlyAddresses (h h' : Heap π) : Prop :=
  h'.pages = h.pages ∧ h'.memory = h.memory ∧ h'.classes = h.classes ∧
    h'.threads = h.threads ∧ h'.freePageHead = h.freePageHead

variable [LawfulAddressPool π]

section Objects
variable {cfg : Config} {T : Nat} {h : Heap π} {live : Live} {F : Frames}

theorem Good.object (good : Good cfg T h live F) {a : Nat} {o : Obj} (hlive : live a = some o) :
    ∃ B, (h.view cfg).Carries B a ∧ (h.pages B.page).sc = o.sc ∧
      (h.view cfg).Stores cfg B o ∧ h.blockOf cfg a = B ∧
      ((h.view cfg).used B → ¬ Moving F a) ∧
      (h.aaWord cfg a = (h.view cfg).start B ∧ ¬ Moving F a ∧ (h.view cfg).used B ∨
        h.aaWord cfg a = (h.view cfg).start B + 1 ∧ Moving F a) := by
  have isAa := good.isAa a (.inl (by rw [hlive]; simp))
  have word : (h.view cfg).word a = h.aaWord cfg a := by simp only [Heap.view, isAa, if_true]
  have blockOf : ∀ {B δ}, (h.view cfg).Placed B → δ < 4 →
      h.aaWord cfg a = (h.view cfg).start B + δ → h.blockOf cfg a = B := by
    intro B δ placed small eq
    have size := placed.size_ge
    have page : pageOfBlock (h.aaWord cfg a) = B.page :=
      eq ▸ placed.pageOfBlock (by omega) (by omega)
    have index : indexOfBlock B.page (h.aaWord cfg a) (blockSize (h.pages B.page).sc) = B.index :=
      eq ▸ placed.indexOfBlock (by omega) (by omega)
    rw [Heap.blockOf, page, index]
  by_cases moving : Moving F a
  · obtain ⟨t, f, s, hF, source, rfl⟩ := moving
    obtain ⟨B, o', _, hlive', _, sok⟩ := good.owns.source_ok hF source
    have same : o = o' := Option.some.inj (hlive.symm.trans hlive')
    subst same
    have eq := word.symm.trans sok.word
    exact ⟨s.block, sok.carries, sok.sc.trans sok.obj, sok.stores,
      blockOf sok.carries.placed (by omega) eq, fun used => absurd used sok.unused,
      .inr ⟨eq, t, f, s, hF, source, rfl⟩⟩
  · obtain ⟨B, ok⟩ := good.owns.still a o hlive moving
    have eq := word.symm.trans ok.word
    exact ⟨B, ok.carries, ok.sc, ok.stores, blockOf (δ := 0) ok.carries.placed (by omega)
      (eq.trans (Nat.add_zero _).symm), fun _ => moving, .inl ⟨eq, moving, ok.used⟩⟩

theorem Good.intact (good : Good cfg T h live F) {a : Nat} {o : Obj} (hlive : live a = some o) :
    ObjectIntact cfg h a o := by
  obtain ⟨B, carries, sc, stores, blockOf, _⟩ := good.object hlive
  have size : (h.view cfg).size B = blockSize o.sc := congrArg blockSize sc
  refine ⟨?_, ?_, ?_, ?_⟩ <;> rw [blockOf]
  · exact sc
  · exact sc ▸ carries.placed.index
  · rw [← size]
    exact carries.back
  · intro j hj user
    exact stores j hj (size ▸ user)

theorem Good.blocks_differ (good : Good cfg T h live F) {a b : Nat} (ha : live a ≠ none)
    (hb : live b ≠ none) (ne : a ≠ b) : h.blockOf cfg a ≠ h.blockOf cfg b := by
  obtain ⟨o, hlive⟩ := Option.ne_none_iff_exists'.mp ha
  obtain ⟨o', hlive'⟩ := Option.ne_none_iff_exists'.mp hb
  obtain ⟨B, carries, _, _, blockOf, _⟩ := good.object hlive
  obtain ⟨C, carries', _, _, blockOf', _⟩ := good.object hlive'
  rw [blockOf, blockOf']
  exact carries.ne carries' ne

end Objects

section Calls
variable {cfg : Config} {T t : Nat} {h : Heap π} {live : Live} {F : Frames} {f : Frame}
  {call : Suspended}

theorem Good.owns_target (good : Good cfg T h live F) (hF : F t = some f)
    (waiting : Waiting call f) (running : ¬ call.comp.Aborted cfg h) :
    f.target = some call.comp.target ∧ (h.view cfg).used call.comp.target ∧
      (h.view cfg).Carries call.comp.target f.address := by
  cases waiting with
  | copying target =>
      obtain ⟨used, carries, _⟩ := good.target_facts hF target
      exact ⟨target, used, carries⟩
  | aborted target sc targetAa round value lost =>
      exact absurd (good.aborted_of_lost hF (.aborted target sc targetAa round value lost) target)
        running

theorem Good.aborted_resume (good : Good cfg T h live F) (hF : F t = some f)
    (waiting : Waiting call f) (once : cfg.memcpyMultiplicator = 1)
    (aborted : call.comp.Aborted cfg h) :
    Succeeds π cfg T (resumeCompaction cfg t call.comp h) fun r =>
      (∃ flag, flag ≠ 0 ∧ r.1 = .returned flag) ∧ OnlyAddresses h r.2 := by
  cases waiting with
  | copying target source linked size =>
      exact absurd aborted (good.running hF (.copying target source linked size) target)
  | aborted target sc targetAa round value lost =>
      obtain ⟨flag, flagged, run⟩ :=
        good.abort_run hF target targetAa round value lost once
      rw [run]
      refine (clearAbstractAddress_spec good.valid (good.owns.thread t f hF)
        (good.out_id (Good.out_call hF))).bind ?_
      rintro _ ⟨σ, rfl, _⟩
      exact .ok ⟨⟨flag, flagged, rfl⟩, rfl, rfl, rfl, rfl, rfl⟩

end Calls

structure Safe (cfg : Config) (T : Nat) (S : System π) : Prop where
  steps : ∀ a, Enabled cfg T S a → (∃ S', perform cfg S a = .ok S') ∨
    perform cfg S a = .error .noSizeClass ∧
      ∃ t size, a = .malloc t size ∧ adjustedSize cfg size = largestSc
  aborted : ∀ t call, S.calls t = some call → call.comp.Aborted cfg S.heap →
    ∃ flag h', flag ≠ 0 ∧
      resumeCompaction cfg t call.comp S.heap = .ok (.returned flag, h') ∧
      OnlyAddresses S.heap h'
  intact : ∀ a o, S.live a = some o → ObjectIntact cfg S.heap a o
  apart : ∀ a b, S.live a ≠ none → S.live b ≠ none → a ≠ b →
    S.heap.blockOf cfg a ≠ S.heap.blockOf cfg b
  target : ∀ t call, S.calls t = some call → ¬ call.comp.Aborted cfg S.heap →
    (S.heap.pages call.comp.targetPage).usedPageBlockBitmap.Used call.comp.targetIndex ∧
    (∀ a, S.live a ≠ none → S.heap.blockOf cfg a ≠ call.comp.target) ∧
    ∀ t' call', t' ≠ t → S.calls t' = some call' → ¬ call'.comp.Aborted cfg S.heap →
      call'.comp.target ≠ call.comp.target

/-- Every enabled step succeeds, but for a request whose size lookup leaves the table
and for the lack of an address bucket. -/
theorem Sound.steps {cfg : Config} {T : Nat} {S : System π} (sound : Sound cfg T S)
    (config : cfg.Compacting) (once : cfg.memcpyMultiplicator = 1) (a : Action)
    (enabled : Enabled cfg T S a) : (∃ S', perform cfg S a = .ok S') ∨
      (perform cfg S a = .error .noSizeClass ∧
        ∃ t size, a = .malloc t size ∧ adjustedSize cfg size = largestSc) ∨
      (perform cfg S a = .error .emptyBucket ∧ ¬ Robust (π := π) cfg.toAddressConfig T) := by
  obtain ⟨F, good, answers⟩ := sound
  by_cases clean : Clean cfg S a
  · rcases perform_stepped good answers config a (fun _ _ _ _ _ => once) enabled clean with
      ⟨S', _, run, _⟩ | fails
    · exact .inl ⟨S', run⟩
    · exact .inr fails
  · cases a with
    | malloc t size =>
        rcases malloc_result good config size enabled.1 with run | refused
        · exact .inl run
        · exact .inr (.inl ⟨refused.1, t, size, rfl, refused.2⟩)
    | free | resume | write => exact absurd trivial clean

theorem Sound.safe {cfg : Config} {T : Nat} {S : System π} (sound : Sound cfg T S)
    (config : cfg.Compacting) (once : cfg.memcpyMultiplicator = 1)
    (robust : Robust (π := π) cfg.toAddressConfig T) : Safe cfg T S := by
  have steps := sound.steps config once
  obtain ⟨F, good, answers⟩ := sound
  have framed : ∀ {t call}, S.calls t = some call → ∃ f, F t = some f ∧ Waiting call f := by
    intro t call hc
    have ans := answers t
    rw [hc] at ans
    cases hF : F t with
    | none =>
        rw [hF] at ans
        cases ans
    | some f =>
        rw [hF] at ans
        exact ⟨f, rfl, ans⟩
  refine ⟨fun a enabled => ?_, fun t call hc aborted => ?_, fun a o => good.intact,
    fun a b => good.blocks_differ, fun t call hc running => ?_⟩
  · rcases steps a enabled with run | refused | ⟨_, lacks⟩
    · exact .inl run
    · exact .inr refused
    · exact absurd robust lacks
  · obtain ⟨f, hF, waiting⟩ := framed hc
    obtain ⟨⟨_, h'⟩, run, ⟨flag, flagged, rfl⟩, only⟩ :=
      (good.aborted_resume hF waiting once aborted).result robust
    exact ⟨flag, h', flagged, run, only⟩
  · obtain ⟨f, hF, waiting⟩ := framed hc
    obtain ⟨_, used, carries⟩ := good.owns_target hF waiting running
    refine ⟨used, fun a alive eq => ?_, fun t' call' ne hc' running' eq => ?_⟩
    · obtain ⟨o, hlive⟩ := Option.ne_none_iff_exists'.mp alive
      obtain ⟨B, carriesB, _, _, blockOf, _⟩ := good.object hlive
      rw [blockOf] at eq
      refine carriesB.ne carries ?_ eq
      rintro rfl
      exact alive (good.owns.dead t f hF)
    · obtain ⟨f', hF', waiting'⟩ := framed hc'
      obtain ⟨_, _, carries'⟩ := good.owns_target hF' waiting' running'
      refine carries'.ne carries (fun same => ?_) eq
      exact ne (good.owns.address_inj t' t f' f hF' hF same)

/-- Interleaved compactions are safe, for any number of threads. -/
theorem interleaving_safe (cfg : Config) (config : cfg.Compacting)
    (once : cfg.memcpyMultiplicator = 1) (T : Nat) (picks : Nat → Nat) (S : System SetPool)
    (reachable : Reachable cfg T (SetPool.init cfg.toAddressConfig picks) S) : Safe cfg T S :=
  (reachable.sound config once (SetPool.valid_init _ T picks)).safe config once trivial

/-- A thread is suspended in a compaction of an object of 7000 bytes, and another one moves the
half-copied object on: the first compaction is aborted. -/
theorem interleaving_safe_takeOver : ∃ S : System SetPool, (∃ call, S.calls 0 = some call ∧
    call.comp.Aborted smallConfig S.heap) ∧ Safe smallConfig 2 S := by
  obtain ⟨S, reachable, found⟩ := reachable_of_script smallConfig 2
    (SetPool.init smallConfig.toAddressConfig fun _ => 0)
    [.malloc 0 7000, .malloc 0 7000, .malloc 0 7000, .malloc 0 7000, .malloc 0 7000,
      .malloc 0 7000, .free 0 1048580, .free 0 1048584, .free 1 1048588, .free 1 1048592]
    (p := fun S => match S.calls 0 with
      | some call => decide (S.heap.aaWord smallConfig call.comp.targetAa ≠ call.comp.targetAaVal)
      | none => false) (by decide +kernel)
  refine ⟨S, ?_, interleaving_safe smallConfig smallConfig_compacting rfl 2 _ S reachable⟩
  cases hc : S.calls 0 with
  | none => simp [hc] at found
  | some call =>
      simp only [hc, decide_eq_true_eq] at found
      exact ⟨call, rfl, found⟩

end
end CompactFit
