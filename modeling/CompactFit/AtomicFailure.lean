import CompactFit.Safety

/-!
What a `cf_malloc` that returns NULL leaves behind. Without a page nothing has been
touched; without an abstract address the block that was taken before stays marked,
although no object owns it.
-/

namespace CompactFit
open Function ByteMemory AddressPool LawfulAddressPool

section
variable {π : Type} [AddressPool π]

/-- The block belongs to a live object, or is the block that a suspended call is moving
a live object to. -/
def HasOwner (cfg : Config) (S : System π) (B : Block) : Prop :=
  (∃ a, S.live a ≠ none ∧ S.heap.blockOf cfg a = B ∧ S.heap.aaWord cfg a = S.heap.blockAddress B) ∨
    ∃ t call, S.calls t = some call ∧ ¬ call.comp.Aborted cfg S.heap ∧ call.comp.target = B ∧
      S.live call.comp.srcAa ≠ none

/-- The heap `h'` is the one of `S` as far as blocks, pages and addresses go, and every
block that is marked as used has an owner. -/
structure LeftAlone (cfg : Config) (S : System π) (h' : Heap π) : Prop where
  used : ∀ p i, (h'.pages p).usedPageBlockBitmap.Used i →
    (S.heap.pages p).usedPageBlockBitmap.Used i
  nrUsedPageBlocks : ∀ p, (h'.pages p).nrUsedPageBlocks = (S.heap.pages p).nrUsedPageBlocks
  classes : h'.classes = S.heap.classes
  listFlags : ∀ p, (h'.pages p).listFlags = (S.heap.pages p).listFlags
  freePages : h'.freePageHead = S.heap.freePageHead ∧ h'.threads = S.heap.threads ∧
    h'.memory = S.heap.memory
  addresses : h'.addresses = S.heap.addresses
  owned : ∀ B, (h'.view cfg).used B → HasOwner cfg { S with heap := h' } B
  found : ∀ p i, (h'.pages p).usedPageBlockBitmap.findUsed = some i →
    HasOwner cfg { S with heap := h' } ⟨p, i⟩

variable [LawfulAddressPool π]

section State
variable {cfg : Config} {T t size : Nat} {S : System π} {F : Frames} {h' : Heap π}

theorem Sound.hasOwner (sound : Sound cfg T S) {B : Block} (used : (S.heap.view cfg).used B) :
    HasOwner cfg S B := by
  obtain ⟨F, good, answers⟩ := sound
  rcases good.owns.owned B used with ⟨a, o, hlive, still, ok⟩ | ⟨t, f, hF, target⟩
  · obtain ⟨C, carries, _, _, blockOf, _, word⟩ := good.object hlive
    have eq := (word.resolve_right fun moved => still moved.2).1
    have isAa := good.isAa a (.inl (by rw [hlive]; simp))
    have word' := ok.word
    simp only [Heap.view, isAa, if_true] at word'
    have same : C = B := carries.placed.start_inj ok.carries.placed (eq.symm.trans word')
    exact .inl ⟨a, by rw [hlive]; simp, blockOf.trans same, same ▸ eq⟩
  · obtain ⟨call, hc, waiting⟩ := answers_frame answers hF
    have running := good.running hF waiting target
    refine .inr ⟨t, call, hc, running, ?_, ?_⟩
    · have mine := (good.owns_target hF waiting running).1
      exact Option.some.inj (mine.symm.trans target)
    · cases waiting with
      | copying target' source =>
          obtain ⟨_, o, _, hlive, _⟩ := good.owns.source_ok hF source
          rw [Frame.compaction, hlive]
          simp
      | aborted none =>
          rw [target] at none
          cases none

theorem Sound.leftAlone (sound : Sound cfg T S) : LeftAlone cfg S S.heap :=
  ⟨fun _ _ used => used, fun _ => rfl, rfl, fun _ => rfl, ⟨rfl, rfl, rfl⟩, rfl,
    fun _ used => sound.hasOwner used,
    fun p i found => sound.hasOwner (B := ⟨p, i⟩) (UsedBitmap.findUsed_least found).1⟩

theorem Sound.malloc_null_iff (sound : Sound cfg T S) (config : cfg.Compacting) (ht : t < T)
    (null : cfMalloc cfg t size S.heap = .ok (none, h')) :
    LeftAlone cfg S h' ↔ ¬ AddressExhausted cfg t size S.heap := by
  obtain ⟨F, good, _⟩ := id sound
  have outcome := cfMalloc_spec good ht config size
  rw [null] at outcome
  generalize hr : (Except.ok (none, h') : Except Fault (Option Nat × Heap π)) = r at outcome
  cases outcome with
  | noPage hc nfull free =>
      cases hr
      refine iff_of_true sound.leftAlone ?_
      rintro ⟨_, p, g, page⟩
      rw [getNfullPage, if_pos nfull, free] at page
      cases page
  | noAddress hc page taken empty =>
      cases hr
      refine iff_of_false (fun alone => ?_) (fun clean => ?_)
      · exact taken.unused (alone.used _ _ ((taken.used _).mpr (.inr rfl)))
      · obtain ⟨g, page⟩ := page
        exact clean ⟨empty, _, g, page⟩
  | noClass | named => cases hr

end State

/-- While no call runs out of abstract addresses every used block has an owner, and a
`cf_malloc` that returns NULL is atomic unless it ran out of them after it had taken a block. -/
theorem malloc_null_leftAlone_iff (cfg : Config) (config : cfg.Compacting) (T : Nat)
    (S : System AddressBuckets)
    (run : Run cfg T (fun S a => Clean cfg S a ∧ AbortsFinal cfg S a)
      (AddressBuckets.initFreeAaList cfg.toAddressConfig) S)
    (t size : Nat) (ht : t < T) (h' : Heap AddressBuckets)
    (null : cfMalloc cfg t size S.heap = .ok (none, h')) :
    (∀ B, (S.heap.view cfg).used B → HasOwner cfg S B) ∧
      (LeftAlone cfg S h' ↔ ¬ AddressExhausted cfg t size S.heap) := by
  have sound := run.sound config (fun _ _ ok => ok) (AddressBuckets.valid_init _ T)
  exact ⟨fun _ used => sound.hasOwner used, sound.malloc_null_iff config ht null⟩

def refused (cfg : Config) (size : Nat) (S : System AddressBuckets) : Bool :=
  match cfMalloc cfg 0 size S.heap with
  | .ok (none, _) => true
  | _ => false

theorem refused_sound {cfg : Config} {size : Nat} {S : System AddressBuckets}
    (h : refused cfg size S = true) : ∃ h', cfMalloc cfg 0 size S.heap = .ok (none, h') := by
  simp only [refused] at h
  split at h
  next h' null => exact ⟨h', null⟩
  next => cases h

/-- All eight pages are full. -/
theorem malloc_null_leftAlone_full : ∃ (S : System AddressBuckets) (h' : Heap AddressBuckets),
    cfMalloc smallConfig 0 7000 S.heap = .ok (none, h') ∧ LeftAlone smallConfig S h' := by
  obtain ⟨S, reachable, found⟩ := reachable_of_script smallConfig 1
    (AddressBuckets.initFreeAaList smallConfig.toAddressConfig)
    (List.replicate 16 (.malloc 0 7000))
    (p := fun S => refused smallConfig 7000 S &&
      (getFreeAa smallConfig.toAddressConfig 0 S.heap.addresses).1.isSome) (by decide +kernel)
  simp only [Bool.and_eq_true] at found
  obtain ⟨h', null⟩ := refused_sound found.1
  refine ⟨S, h', null, (malloc_null_leftAlone_iff smallConfig smallConfig_compacting 1 S
    (reachable.mono fun _ a clean => ⟨clean, abortsFinal_once rfl a⟩) 0 7000 (by decide) h'
    null).2.mpr ?_⟩
  rintro ⟨none, _⟩
  rw [none] at found
  cases found.2

def scarceConfig : Config :=
  { smallConfig with
    nrAaBuckets := 1
    nrAaBuckets_pos := Nat.one_pos
    nrLocalAas_pos := Nat.one_pos
    nrLocalAbuckets_pos := Nat.one_pos
    nrLocalFreeAbuckets_pos := Nat.one_pos
    aaSpace_end := by decide }

/-- The second request takes a block and finds no address for it. -/
theorem malloc_null_taken : ∃ (S : System AddressBuckets) (h' : Heap AddressBuckets),
    Reachable scarceConfig 1 (AddressBuckets.initFreeAaList scarceConfig.toAddressConfig) S ∧
      cfMalloc scarceConfig 0 7000 S.heap = .ok (none, h') ∧ ¬ LeftAlone scarceConfig S h' := by
  obtain ⟨S, reachable, found⟩ := reachable_of_script scarceConfig 1
    (AddressBuckets.initFreeAaList scarceConfig.toAddressConfig) [.malloc 0 7000]
    (p := fun S => match cfMalloc scarceConfig 0 7000 S.heap with
      | .ok (none, h') => (h'.pages 8).nrUsedPageBlocks ≠ (S.heap.pages 8).nrUsedPageBlocks
      | _ => false) (by decide +kernel)
  split at found
  next h' null =>
    exact ⟨S, h', reachable, null, fun alone =>
      of_decide_eq_true found (alone.nrUsedPageBlocks 8)⟩
  next => cases found

end
end CompactFit
