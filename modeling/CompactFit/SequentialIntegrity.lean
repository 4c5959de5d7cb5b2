import CompactFit.BlockMetadata
import CompactFit.Sequential
import CompactFit.UsableSize

/-!
Integrity of sequential runs. With increments of whole words, and as long as no request is
refused, every live object has the unflagged start of a used block of its own in its word,
and the application reads back what it has written, whatever `cf_free` has moved.
-/

namespace CompactFit
open Function ByteMemory AddressPool LawfulAddressPool

section
variable {π : Type} [AddressPool π]

def ReturnsNull : Except Fault (Option Nat × Heap π) → Prop
  | .ok (none, _) => True
  | _ => False

instance : (r : Except Fault (Option Nat × Heap π)) → Decidable (ReturnsNull r)
  | .ok (none, _) => isTrue trivial
  | .ok (some _, _) => isFalse not_false
  | .error _ => isFalse not_false

instance (cfg : Config) (size : Nat) : Decidable (Covered cfg size) :=
  inferInstanceAs (Decidable (_ ∧ _ ∧ _))

/-- Requests are of a size that is covered, and none is refused. -/
def Served (cfg : Config) (S : System π) : Action → Prop
  | .malloc t size => Covered cfg size ∧ ¬ ReturnsNull (cfMalloc cfg t size S.heap)
  | _ => True

instance (cfg : Config) (S : System π) : (a : Action) → Decidable (Served cfg S a)
  | .malloc t size =>
      inferInstanceAs (Decidable (Covered cfg size ∧ ¬ ReturnsNull (cfMalloc cfg t size S.heap)))
  | .free .. => isTrue trivial
  | .resume .. => isTrue trivial
  | .write .. => isTrue trivial

/-- The word of the live object `o` at `a` is the start of a used block of the object's class
that points back to `a`, and `cf_dereference` finds its bytes. -/
structure Integral (cfg : Config) (S : System π) (a : Nat) (o : Obj) : Prop where
  heap : InHeap cfg (S.heap.blockOf cfg a).page
  request : o.sc = requestClass cfg o.size
  sc : (S.heap.pages (S.heap.blockOf cfg a).page).sc = o.sc
  index : (S.heap.blockOf cfg a).index < capacity o.sc
  used : (S.heap.pages (S.heap.blockOf cfg a).page).usedPageBlockBitmap.Used
    (S.heap.blockOf cfg a).index
  word : S.heap.aaWord cfg a = S.heap.blockAddress (S.heap.blockOf cfg a)
  back : readWord S.heap.memory (addressField (S.heap.blockOf cfg a).page
    (S.heap.blockOf cfg a).index (blockSize o.sc)) = a
  room : o.size ≤ View.userBytes cfg (blockSize o.sc)
  bytes : ∀ j, j < o.size → ∃ b, cfDereference cfg a j S.heap = .ok b ∧ S.heap.memory b = o.bytes j

def Sized (cfg : Config) (o : Obj) : Prop := Covered cfg o.size ∧ o.sc = requestClass cfg o.size

section Sizes
variable {cfg : Config} {S S' : System π} {t : Nat}

/-- The user bytes of a covered request end before the metadata words. -/
theorem Sized.room {o : Obj} (sized : Sized cfg o) (reserves : ReservesAll cfg.incrementalMemcpy) :
    o.size ≤ View.userBytes cfg (blockSize o.sc) := by
  obtain ⟨covered, sc⟩ := sized
  have enough := covered.class.1
  have added := adjustedSize_ge cfg covered.1
  rw [← sc] at enough
  rw [View.userBytes]
  split
  next incremental =>
    have apart := userBytesApart_of_reserves reserves (Nat.pos_of_ne_zero incremental.1) o.size
      covered
    rw [← sc] at apart
    have := apart incremental.2
    omega
  next => omega

theorem live_runToEnd (n : Nat) (run : runToEnd cfg t n S = .ok S') : S'.live = S.live := by
  induction n generalizing S with
  | zero =>
      cases run
      rfl
  | succ n ih =>
      rw [runToEnd] at run
      cases hc : S.calls t with
      | none =>
          rw [hc] at run
          cases run
          rfl
      | some call =>
          simp only [hc] at run
          obtain ⟨S1, resumed, run⟩ := bind_eq_ok run
          rw [ih run]
          simp only [System.resume, hc] at resumed
          obtain ⟨r, _, eq⟩ := bind_eq_ok resumed
          cases eq
          rfl

theorem live_of_update {live : Live} {a b : Nat} {x : Option Obj} {o : Obj}
    (h : update live a x b = some o) : x = some o ∨ live b = some o := by
  by_cases eq : b = a
  · subst eq
    rw [update_self] at h
    exact .inl h
  · rw [update_of_ne eq] at h
    exact .inr h

/-- Objects get their size and class when they are made, and keep them. -/
theorem performWhole_sized (a : Action) (served : Served cfg S a)
    (run : performWhole cfg S a = .ok S') (sized : ∀ b o, S.live b = some o → Sized cfg o) :
    ∀ b o, S'.live b = some o → Sized cfg o := by
  intro b o hlive
  cases a with
  | malloc t size =>
      obtain ⟨⟨address, h⟩, called, run⟩ := bind_eq_ok (show S.malloc cfg t size = .ok S' from run)
      cases address with
      | none =>
          cases run
          exact sized b o hlive
      | some address =>
          cases run
          rcases live_of_update hlive with new | old
          · cases new
            exact ⟨served.1, rfl⟩
          · exact sized b o old
  | free t address =>
      obtain ⟨S1, freed, run⟩ := bind_eq_ok run
      rw [live_runToEnd _ run] at hlive
      obtain ⟨⟨call, h⟩, _, eq⟩ := bind_eq_ok freed
      cases eq
      rcases live_of_update hlive with new | old
      · cases new
      · exact sized b o old
  | resume t =>
      replace run : S.resume cfg t = .ok S' := run
      rw [System.resume] at run
      cases hc : S.calls t with
      | none =>
          rw [hc] at run
          cases run
          exact sized b o hlive
      | some call =>
          simp only [hc] at run
          obtain ⟨r, _, eq⟩ := bind_eq_ok run
          cases eq
          exact sized b o hlive
  | write address j x =>
      replace run : S.write cfg address j x = .ok S' := run
      rw [System.write] at run
      cases ho : S.live address with
      | none =>
          rw [ho] at run
          cases run
          exact sized b o hlive
      | some o' =>
          simp only [ho] at run
          obtain ⟨byte, _, eq⟩ := bind_eq_ok run
          cases eq
          rcases live_of_update hlive with new | old
          · cases new
            exact sized address o' ho
          · exact sized b o old

end Sizes

variable [LawfulAddressPool π]

section Rest
variable {cfg : Config} {T t : Nat} {S : System π} {a : Nat} {o : Obj} {addresses : π}

theorem Resting.clean (rest : Resting cfg T S) (config : cfg.Compacting) (a : Action)
    (enabled : Enabled cfg T S a) (served : Served cfg S a) : Clean cfg S a := by
  cases a with
  | malloc t size =>
      rintro ⟨empty, p, g, page⟩
      have outcome := cfMalloc_spec rest.good enabled.1 config size
      have some := served.2
      generalize cfMalloc cfg t size S.heap = r at outcome some
      cases outcome with
      | noClass none => exact none served.1.class.2
      | noPage => exact some trivial
      | noAddress => exact some trivial
      | named index taken nonempty => exact nonempty empty
  | free | resume | write => trivial

theorem Resting.integral (rest : Resting cfg T S) (config : cfg.Compacting)
    (reserves : ReservesAll cfg.incrementalMemcpy) (hlive : S.live a = some o)
    (sized : Sized cfg o) : Integral cfg S a o := by
  have still : ¬ Moving (fun _ => none) a := by
    rintro ⟨t, f, s, hF, _⟩
    cases hF
  have intact := rest.good.intact hlive
  obtain ⟨B, carries, _, _, blockOf, _, word⟩ := rest.good.object hlive
  rcases word with ⟨word, _, used⟩ | ⟨_, moving⟩
  · have flag : (S.heap.pages B.page).listFlags ≠ .none := by
      intro none
      have page := (rest.good.heap.page B.page).flag
      rw [none] at page
      have := (rest.good.heap.page B.page).used_pos used
      have := page.1
      omega
    have start : S.heap.aaWord cfg a = S.heap.blockAddress (S.heap.blockOf cfg a) := by
      rw [blockOf]
      exact word
    refine ⟨?_, sized.2, intact.sc, intact.index, ?_, start, intact.back,
      sized.room reserves, fun j hj => ?_⟩
    · rw [blockOf]
      exact (rest.good.heap.range B.page).mp flag
    · rw [blockOf]
      exact used
    · have isAa := rest.good.isAa a (.inl (by rw [hlive]; simp))
      have moving : ¬ cfg.partialCompactionBound = -1 := by
        have := config.bound
        omega
      refine ⟨S.heap.aaWord cfg a + j, ?_, ?_⟩
      · rw [cfDereference, if_neg moving, S.heap.loadAa_ok isAa]
        simp only [Heap.view, isAa, if_true, ok_bind]
        rfl
      · rw [start]
        exact intact.bytes j hj (Nat.lt_of_lt_of_le hj (sized.room reserves))
  · exact absurd moving still

/-- What is known at an operation boundary of a sequential run. -/
structure Intact (cfg : Config) (T : Nat) (S : System π) : Prop where
  objects : ∀ a o, S.live a = some o → Integral cfg S a o
  apart : ∀ a b, S.live a ≠ none → S.live b ≠ none → a ≠ b →
    S.heap.blockOf cfg a ≠ S.heap.blockOf cfg b
  writes : ∀ a o j x, S.live a = some o → j < o.size → Enabled cfg T S (.write a j x)
  progress : ∀ a, Enabled cfg T S a → Served cfg S a → ∃ S', performWhole cfg S a = .ok S'

omit [LawfulAddressPool π] in
theorem Sequence.sized (run : Sequence cfg T (Served cfg) addresses S) :
    ∀ b o, S.live b = some o → Sized cfg o := by
  induction run with
  | init =>
      intro b o hlive
      cases hlive
  | step a _ _ served run ih => exact performWhole_sized a served run ih

theorem Sequence.intact (run : Sequence cfg T (Served cfg) addresses S) (config : cfg.Compacting)
    (reserves : ReservesAll cfg.incrementalMemcpy)
    (valid : Valid cfg.toAddressConfig T (fun _ => False) addresses)
    (robust : Robust (π := π) cfg.toAddressConfig T) : Intact cfg T S := by
  have sized := run.sized
  obtain ⟨rest, _⟩ := run.resting config (fun _ a rest => rest.clean config a) valid
  refine ⟨fun a o hlive => rest.integral config reserves hlive (sized a o hlive),
    fun a b => rest.good.blocks_differ, fun a o j x hlive hj => ?_, fun a enabled served => ?_⟩
  · refine ⟨fun t call hc => ?_, o, hlive, hj,
      Nat.lt_of_lt_of_le hj ((sized a o hlive).room reserves)⟩
    rw [rest.calls t] at hc
    cases hc
  · rcases performWhole_spec rest config a enabled (rest.clean config a enabled served) with
      ⟨S', run, _⟩ | ⟨_, t, size, rfl, boundary⟩ | ⟨_, lacks⟩
    · exact ⟨S', run⟩
    · exact absurd boundary served.1.2.2
    · exact absurd robust lacks

end Rest

/-- One thread: at every operation boundary every live object is where its address says, in a
block of its own, with the bytes last written, and no operation fails. -/
theorem sequential_intact (cfg : Config) (bound : 1 ≤ cfg.partialCompactionBound)
    (words : cfg.incrementalMemcpy % 4 = 0) (S : System AddressBuckets)
    (run : Sequence cfg 1 (Served cfg) (AddressBuckets.initFreeAaList cfg.toAddressConfig) S) :
    Intact cfg 1 S :=
  run.intact ⟨bound, wholeCopies_of_multiple words⟩ (reservesAll_of_multiple words)
    (AddressBuckets.valid_init _ 1) (.inl (by simp))

/-- The second free moves the object 1048828 in two increments. -/
theorem sequential_intact_moved : ∃ (S : System AddressBuckets) (o : Obj),
    S.live 1048828 = some o ∧ S.heap.blockOf smallConfig 1048828 ≠ ⟨8, 0⟩ ∧
      Integral smallConfig S 1048828 o := by
  obtain ⟨S, run, found⟩ := sequence_of_checked smallConfig 1
    (AddressBuckets.initFreeAaList smallConfig.toAddressConfig)
    [.malloc 0 7000, .malloc 0 7000, .malloc 0 7000, .malloc 0 7000, .free 0 1048824,
      .free 0 1048820]
    (fun S a => decide (Served smallConfig S a)) (fun _ _ _ => of_decide_eq_true)
    (p := fun S => (S.live 1048828).isSome && S.heap.blockOf smallConfig 1048828 ≠ ⟨8, 0⟩)
    (by decide +kernel)
  simp only [Bool.and_eq_true, decide_eq_true_eq, Option.isSome_iff_exists] at found
  obtain ⟨⟨o, hlive⟩, moved⟩ := found
  exact ⟨S, o, hlive, moved,
    (sequential_intact smallConfig (by decide) (by decide) S run).objects _ _ hlive⟩

end
end CompactFit
