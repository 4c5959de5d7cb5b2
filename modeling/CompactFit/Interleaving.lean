import CompactFit.CallInvariant

/-!
The allocator with the threads that use it, in the build with size-class locks.
Every call is one step under its class lock, except that a `cf_free` may stop
between two copy increments and be resumed after any steps of other threads.
The runs start from `cf_init` and leave out the allocations that fail for lack of
an abstract address although a page is available.
-/

namespace CompactFit
open Function ByteMemory AddressPool LawfulAddressPool

/-- The heap, the suspended call of each thread, and the live objects. -/
structure System (π : Type) where
  heap : Heap π
  calls : Nat → Option Suspended
  live : Live

/-- A step: a call of thread `t`, or a write of the application through the
abstract address of an object. -/
inductive Action where
  | malloc (t size : Nat)
  | free (t address : Nat)
  | resume (t : Nat)
  | write (address j : Nat) (x : UInt8)

section
variable {π : Type} [AddressPool π]

def System.init (cfg : Config) (addresses : π) : System π :=
  { heap := initHeap cfg addresses, calls := fun _ => none, live := fun _ => none }

def System.malloc (cfg : Config) (S : System π) (t size : Nat) : Except Fault (System π) := do
  match ← cfMalloc cfg t size S.heap with
  | (none, h) => return { S with heap := h }
  | (some a, h) => return { S with
      heap := h
      live := update S.live a (some (newObj cfg a (requestClass cfg size) size h)) }

def System.free (cfg : Config) (S : System π) (t a : Nat) : Except Fault (System π) := do
  let (call, h) ← cfFree cfg t a S.heap
  return { heap := h, calls := update S.calls t call, live := update S.live a none }

def System.resume (cfg : Config) (S : System π) (t : Nat) : Except Fault (System π) :=
  match S.calls t with
  | none => .ok S
  | some call => do
      let (call, h) ← resumeFree cfg t call S.heap
      return { S with heap := h, calls := update S.calls t call }

def System.write (cfg : Config) (S : System π) (a j : Nat) (x : UInt8) :
    Except Fault (System π) :=
  match S.live a with
  | none => .ok S
  | some o => do
      let byte ← cfDereference cfg a j S.heap
      return { S with
        heap := { S.heap with memory := writeByte S.heap.memory byte x }
        live := update S.live a (some { o with bytes := update o.bytes j x }) }

def perform (cfg : Config) (S : System π) : Action → Except Fault (System π)
  | .malloc t size => S.malloc cfg t size
  | .free t a => S.free cfg t a
  | .resume t => S.resume cfg t
  | .write a j x => S.write cfg a j x

/-- What the application may do: a thread whose call is suspended makes no other
call, only live objects are freed, and an object that a suspended call is moving is
not written. -/
def Enabled (cfg : Config) (T : Nat) (S : System π) : Action → Prop
  | .malloc t _ => t < T ∧ S.calls t = none
  | .free t a => t < T ∧ S.calls t = none ∧ S.live a ≠ none
  | .resume t => S.calls t ≠ none
  | .write a j _ => (∀ t call, S.calls t = some call → call.comp.srcAa ≠ a) ∧
      ∃ o, S.live a = some o ∧ j < o.size ∧ j < View.userBytes cfg (blockSize o.sc)

/-- `cf_malloc` finds a page but no abstract address. -/
def AddressExhausted (cfg : Config) (t size : Nat) (h : Heap π) : Prop :=
  (getFreeAa cfg.toAddressConfig t h.addresses).1 = none ∧
    ∃ p g, getNfullPage cfg t (requestClass cfg size) h = .ok (some p, g)

/-- The step is not an allocation that runs out of addresses. -/
def Clean (cfg : Config) (S : System π) : Action → Prop
  | .malloc t size => ¬ AddressExhausted cfg t size S.heap
  | _ => True

/-- The compaction of a suspended call was aborted: its target word has changed. -/
def Compaction.Aborted (cfg : Config) (comp : Compaction) (h : Heap π) : Prop :=
  h.aaWord cfg comp.targetAa ≠ comp.targetAaVal

/-- No aborted compaction is resumed with a further round of its outer loop to come. -/
def AbortsFinal (cfg : Config) (S : System π) : Action → Prop
  | .resume t => ∀ call, S.calls t = some call → call.comp.Aborted cfg S.heap →
      cfg.memcpyMultiplicator = 1
  | _ => True

/-- The states of the runs whose steps are all `allowed`. -/
inductive Run (cfg : Config) (T : Nat) (allowed : System π → Action → Prop) (addresses : π) :
    System π → Prop where
  | init : Run cfg T allowed addresses (System.init cfg addresses)
  | step {S S' : System π} (a : Action) : Run cfg T allowed addresses S → Enabled cfg T S a →
      allowed S a → perform cfg S a = .ok S' → Run cfg T allowed addresses S'

/-- The states that can be reached without running out of abstract addresses. -/
abbrev Reachable (cfg : Config) (T : Nat) (addresses : π) : System π → Prop :=
  Run cfg T (Clean cfg) addresses

theorem Run.mono {cfg : Config} {T : Nat} {allowed allowed' : System π → Action → Prop}
    {addresses : π} {S : System π} (run : Run cfg T allowed addresses S)
    (sub : ∀ S a, allowed S a → allowed' S a) : Run cfg T allowed' addresses S := by
  induction run with
  | init => exact .init
  | step a _ enabled ok perform ih => exact .step a ih enabled (sub _ _ ok) perform

/-- The source entries that the step gives up find room below the bound. -/
def RoomLeft (cfg : Config) (S : System π) : Action → Prop
  | .free _ a =>
      let returned := pagesReturned (freeGivesUp cfg a S.heap) S.heap
      returned = 0 ∨ (S.heap.classes (freeClass cfg a S.heap)).nfullentries +
        freeFromFull cfg a S.heap + returned ≤ cfg.k
  | .resume t =>
      match S.calls t with
      | none => True
      | some call =>
          let returned := pagesReturned (call.givesUp cfg S.heap) S.heap
          returned = 0 ∨ (S.heap.classes call.comp.sc).nfullentries + returned ≤ cfg.k
  | _ => True

/-! ### One step -/

variable [LawfulAddressPool π]

def Action.Starts : Action → Prop
  | .malloc .. | .free .. => True
  | _ => False

/-- What a step leaves. A new call may raise the not-full and source pages of a class
to `k` and its source pages; other steps do not raise them. -/
structure Stepped (cfg : Config) (T : Nat) (S : System π) (a : Action) (S' : System π)
    (F' : Frames) : Prop where
  good : Good cfg T S'.heap S'.live F'
  answers : ∀ t, Answers (S'.calls t) (F' t)
  started : ∀ c, (S'.heap.classes c).nfullentries + (S'.heap.classes c).sourceentries ≤
    max ((S.heap.classes c).nfullentries + (S.heap.classes c).sourceentries)
      (cfg.k + (S.heap.classes c).sourceentries)
  resumed : ¬ a.Starts →
    ∀ c, (S'.heap.classes c).nfullentries + (S'.heap.classes c).sourceentries ≤
      (S.heap.classes c).nfullentries + (S.heap.classes c).sourceentries
  room : RoomLeft cfg S a →
    ∀ c, (S'.heap.classes c).nfullentries ≤ max (S.heap.classes c).nfullentries cfg.k

section Step
variable {cfg : Config} {T t : Nat} {S : System π} {F : Frames}

omit [AddressPool π] [LawfulAddressPool π] in
theorem answers_idle (answers : ∀ t, Answers (S.calls t) (F t)) (idle : S.calls t = none) :
    F t = none := by
  have ans := answers t
  rw [idle] at ans
  cases hF : F t with
  | none => rfl
  | some f =>
      rw [hF] at ans
      cases ans

omit [AddressPool π] [LawfulAddressPool π] in
theorem answers_frame (answers : ∀ t, Answers (S.calls t) (F t)) {f : Frame} (hF : F t = some f) :
    ∃ call, S.calls t = some call ∧ Waiting call f := by
  have ans := answers t
  rw [hF] at ans
  cases hc : S.calls t with
  | none =>
      rw [hc] at ans
      cases ans
  | some call =>
      rw [hc] at ans
      exact ⟨call, rfl, ans⟩

omit [AddressPool π] [LawfulAddressPool π] in
theorem answers_call (answers : ∀ t, Answers (S.calls t) (F t)) {call : Suspended}
    (hc : S.calls t = some call) : ∃ f, F t = some f ∧ Waiting call f := by
  have ans := answers t
  rw [hc] at ans
  cases hF : F t with
  | none =>
      rw [hF] at ans
      cases ans
  | some f =>
      rw [hF] at ans
      exact ⟨f, rfl, ans⟩

theorem calls_none (good : Good cfg T S.heap S.live F) (answers : ∀ t, Answers (S.calls t) (F t))
    (ge : T ≤ t) : S.calls t = none := by
  cases hc : S.calls t with
  | none => rfl
  | some call =>
      have ans := answers t
      rw [hc] at ans
      cases hF : F t with
      | none =>
          rw [hF] at ans
          cases ans
      | some f =>
          have := good.owns.thread t f hF
          omega

/-- The object that a frame is moving is the source of the suspended call. -/
theorem moving_call (good : Good cfg T S.heap S.live F)
    (answers : ∀ t, Answers (S.calls t) (F t)) {a : Nat} (moving : Moving F a) :
    ∃ t call, S.calls t = some call ∧ call.comp.srcAa = a := by
  obtain ⟨t, f, s, hF, source, rfl⟩ := moving
  obtain ⟨call, hc, waiting⟩ := answers_frame answers hF
  refine ⟨t, call, hc, ?_⟩
  cases waiting with
  | copying target source' =>
      rw [source] at source'
      cases source'
      rfl
  | aborted target =>
      rw [((good.owns.frame t f hF).lost target).2] at source
      cases source

/-- A call without a target block was aborted. -/
theorem Good.aborted_of_lost {h : Heap π} {live : Live} {f : Frame} {call : Suspended}
    (good : Good cfg T h live F) (hF : F t = some f) (waiting : Waiting call f)
    (none : f.target = none) : call.comp.Aborted cfg h := by
  cases waiting with
  | copying target =>
      rw [target] at none
      cases none
  | aborted target _ targetAa _ _ lost =>
      have isAa := good.isAa _ (Good.out_call hF)
      have word := ((good.owns.frame t f hF).lost target).1
      simp only [Heap.view, isAa, if_true] at word
      simp only [Compaction.Aborted, targetAa, word]
      omega

/-- A call with a target block goes on copying. -/
theorem Good.running {h : Heap π} {live : Live} {f : Frame} {call : Suspended} {B : Block}
    (good : Good cfg T h live F) (hF : F t = some f) (waiting : Waiting call f)
    (target : f.target = some B) : ¬ call.comp.Aborted cfg h := by
  cases waiting with
  | copying target' =>
      obtain ⟨_, _, word, sc⟩ := good.target_facts hF target'
      have isAa := good.isAa _ (Good.out_call hF)
      simp only [Heap.view, isAa, if_true, View.start, View.size, sc] at word
      simp only [Compaction.Aborted, Frame.compaction, word, ne_eq, not_true, not_false_eq_true]
  | aborted none =>
      rw [target] at none
      cases none

omit [AddressPool π] [LawfulAddressPool π] in
/-- Every suspended call waits with its partition fields set. -/
theorem answers_parked (answers : ∀ t, Answers (S.calls t) (F t)) (t : Nat) : Parked t F := by
  intro u g X _ hG target
  obtain ⟨call, _, waiting⟩ := answers_frame answers hG
  cases waiting with
  | copying _ source linked => exact ⟨_, source, linked⟩
  | aborted none =>
      rw [target] at none
      cases none

omit [AddressPool π] [LawfulAddressPool π] in
theorem answers_others {F' : Frames} {r : Option Suspended}
    (answers : ∀ t, Answers (S.calls t) (F t)) (others : OthersKept t F F')
    (mine : Answers r (F' t)) (u : Nat) : Answers (update S.calls t r u) (F' u) := by
  by_cases hu : u = t
  · subst hu
    rw [update_self]
    exact mine
  · rw [update_of_ne hu]
    rcases others u hu with same | ⟨g, g', hG, hG', aborted⟩
    · rw [same]
      exact answers u
    · obtain ⟨call, hc, waiting⟩ := answers_frame answers hG
      rw [hc, hG']
      exact waiting.abort aborted

variable (good : Good cfg T S.heap S.live F) (answers : ∀ t, Answers (S.calls t) (F t))
  (config : cfg.Compacting)

include good answers config

omit answers in
theorem malloc_result (size : Nat) (ht : t < T) : (∃ S', S.malloc cfg t size = .ok S') ∨
    S.malloc cfg t size = .error .noSizeClass ∧ adjustedSize cfg size = largestSc := by
  have outcome := cfMalloc_spec good ht config size
  generalize hr : cfMalloc cfg t size S.heap = r at outcome
  simp only [System.malloc, hr]
  cases outcome with
  | noClass hc => exact .inr ⟨rfl, (requestClass_lt cfg size).resolve_left hc⟩
  | noPage | noAddress | named => exact .inl ⟨_, rfl⟩

theorem malloc_stepped {size : Nat} (ht : t < T)
    (clean : ¬ AddressExhausted cfg t size S.heap) :
    (∃ S', S.malloc cfg t size = .ok S' ∧ Stepped cfg T S (.malloc t size) S' F) ∨
      S.malloc cfg t size = .error .noSizeClass ∧ adjustedSize cfg size = largestSc := by
  have pos : 1 ≤ cfg.k := by have := config.bound; simp only [Config.k]; omega
  have outcome := cfMalloc_spec good ht config size
  have none_ : ∀ {h}, cfMalloc cfg t size S.heap = .ok (none, h) →
      S.malloc cfg t size = .ok { S with heap := h } := fun run => by
    rw [System.malloc, run]
    rfl
  have some_ : ∀ {a h}, cfMalloc cfg t size S.heap = .ok (some a, h) →
      S.malloc cfg t size = .ok { S with
        heap := h
        live := update S.live a (some (newObj cfg a (requestClass cfg size) size h)) } :=
    fun run => by
      rw [System.malloc, run]
      rfl
  generalize hr : cfMalloc cfg t size S.heap = r at outcome
  cases outcome with
  | noClass hc =>
      refine .inr ⟨?_, (requestClass_lt cfg size).resolve_left hc⟩
      rw [System.malloc, hr]
      rfl
  | noPage =>
      exact .inl ⟨S, none_ hr, good, answers, fun _ => (by omega), fun old => absurd trivial old,
        fun _ _ => (by omega)⟩
  | noAddress _ page _ empty =>
      obtain ⟨g, page⟩ := page
      exact absurd ⟨empty, _, g, page⟩ clean
  | @named _ p i a h2 h' taken _ made =>
      have counters : ∀ c, (h'.classes c).sourceentries = (S.heap.classes c).sourceentries ∧
          (h'.classes c).nfullentries ≤ max (S.heap.classes c).nfullentries 1 := by
        intro c
        rw [made.classes]
        by_cases hc : c = requestClass cfg size
        · subst hc
          exact ⟨taken.sourceentries, taken.nfullentries⟩
        · rw [taken.classes c hc]
          exact ⟨rfl, by omega⟩
      refine .inl ⟨_, some_ hr, made.good, answers, fun c => ?_, fun old => absurd trivial old,
        fun _ c => ?_⟩
      · obtain ⟨s, n⟩ := counters c
        simp only [s]
        omega
      · obtain ⟨_, n⟩ := counters c
        simp only
        omega

theorem free_stepped {a : Nat} (ht : t < T) (idle : S.calls t = none) (alive : S.live a ≠ none) :
    Succeeds π cfg T (S.free cfg t a) fun S' => ∃ F', Stepped cfg T S (.free t a) S' F' ∧
      Answering (S'.calls t) (F' t) ∧ ∀ u, u ≠ t → S'.calls u = S.calls u := by
  obtain ⟨o, hlive⟩ := Option.ne_none_iff_exists'.mp alive
  refine (cfFree_spec good (answers_idle answers idle) ht (answers_parked answers t) config
    hlive).bind ?_
  rintro ⟨call, h⟩ ⟨F', freed⟩
  obtain ⟨other, kept, n, total⟩ := freed.charged
  refine .ok ⟨F', ⟨freed.good, answers_others answers freed.others freed.answers.answers,
    fun c => ?_, fun old => absurd trivial old, fun room c => ?_⟩, ?_,
    fun u hu => update_of_ne hu _ _⟩
  · by_cases hc : c = freeClass cfg a S.heap
    · subst hc
      exact total
    · rw [show h.classes c = _ from other c hc]
      omega
  · by_cases hc : c = freeClass cfg a S.heap
    · subst hc
      rcases room with none | room
      · exact kept none
      · simp only at n ⊢
        omega
    · rw [show h.classes c = _ from other c hc]
      omega
  · simp only [update_self]
    exact freed.answers

/-- A resumed call has less left to copy, and the other calls wait on. -/
def Shorter (t : Nat) (S S' : System π) : Prop :=
  (∀ u, u ≠ t → S'.calls u = S.calls u) ∧ S'.live = S.live ∧
    ∀ call', S'.calls t = some call' →
      ∃ call, S.calls t = some call ∧ call'.comp.remSize < call.comp.remSize

theorem resume_stepped (suspended : S.calls t ≠ none)
    (once : ∀ f, F t = some f → f.target = none → cfg.memcpyMultiplicator = 1) :
    Succeeds π cfg T (S.resume cfg t) fun S' => ∃ F', Stepped cfg T S (.resume t) S' F' ∧
      Answering (S'.calls t) (F' t) ∧ Shorter t S S' := by
  obtain ⟨call, hc⟩ := Option.ne_none_iff_exists'.mp suspended
  have ans := answers t
  rw [hc] at ans
  cases hF : F t with
  | none =>
      rw [hF] at ans
      cases ans
  | some f =>
      rw [hF] at ans
      have run : S.resume cfg t = resumeFree cfg t call S.heap >>= fun r =>
          .ok { S with heap := r.2, calls := update S.calls t r.1 } := by
        rw [System.resume, hc]
        rfl
      rw [run]
      refine (resumeFree_spec good hF ans config (once f hF)).bind ?_
      rintro ⟨call', h⟩ ⟨g, resumed⟩
      obtain ⟨other, n, total⟩ := resumed.returned
      have bound : ∀ c, (h.classes c).nfullentries + (h.classes c).sourceentries ≤
          (S.heap.classes c).nfullentries + (S.heap.classes c).sourceentries := by
        intro c
        by_cases eq : c = call.comp.sc
        · subst eq
          exact total
        · rw [show h.classes c = _ from other c eq]
      refine .ok ⟨_, ⟨resumed.good, answers_others answers (othersKept_update F g)
        (by rw [update_self]; exact resumed.answers.answers), fun c => ?_, fun _ => bound,
        fun room c => ?_⟩, ?_, fun u hu => update_of_ne hu _ _, rfl, fun call' eq => ?_⟩
      · have := bound c
        simp only
        omega
      · simp only [RoomLeft, hc] at room
        by_cases eq : c = call.comp.sc
        · subst eq
          simp only at n ⊢
          omega
        · rw [show h.classes c = _ from other c eq]
          omega
      · simp only [update_self]
        exact resumed.answers
      · simp only [update_self] at eq
        exact ⟨call, hc, resumed.shorter call' eq⟩

theorem write_stepped {a j : Nat} {x : UInt8}
    (still : ∀ t call, S.calls t = some call → call.comp.srcAa ≠ a) {o : Obj}
    (hlive : S.live a = some o) (user : j < View.userBytes cfg (blockSize o.sc)) :
    ∃ S', S.write cfg a j x = .ok S' ∧ Stepped cfg T S (.write a j x) S' F := by
  have still : ¬ Moving F a := fun moving => by
    obtain ⟨t, call, hc, source⟩ := moving_call good answers moving
    exact still t call hc source
  obtain ⟨B, ok⟩ := good.owns.still a o hlive still
  have alive : S.live a ≠ none := by rw [hlive]; simp
  have isAa := good.isAa a (.inl alive)
  have placed := ok.carries.placed
  have size : (S.heap.view cfg).size B = blockSize o.sc := by rw [View.size, ok.sc]
  have bound : View.userBytes cfg (blockSize o.sc) ≤ blockSize o.sc := by
    simp only [View.userBytes]
    split <;> omega
  have load : cfDereference cfg a j S.heap = .ok ((S.heap.view cfg).word a + j) := by
    have moving : ¬ cfg.partialCompactionBound = -1 := by have := config.bound; omega
    rw [cfDereference, if_neg moving, S.heap.loadAa_ok isAa]
    rfl
  have run : S.write cfg a j x = .ok { S with
      heap := { S.heap with
        memory := writeByte S.heap.memory ((S.heap.view cfg).word a + j) x }
      live := update S.live a (some { o with bytes := update o.bytes j x }) } := by
    rw [System.write, hlive]
    simp only [load, ok_bind]
    rfl
  refine ⟨_, run, ⟨?_, ?_, ?_, ?_⟩, answers, fun _ => (by simp only; omega),
    fun _ _ => (by simp only; omega), fun _ _ => (by simp only; omega)⟩
  · refine good.heap.congr (sameHeaders_memory S.heap fun y free => ?_)
    have inUse : (S.heap.view cfg).InUse B.page := View.used_inUse ok.used
    have ne : y ≠ (S.heap.view cfg).word a + j := by
      rintro rfl
      rw [ok.word] at free
      have page : ((S.heap.view cfg).start B + j) / pageSize = B.page :=
        placed.pageOfBlock (by omega) (by omega)
      rw [page] at free
      exact good.heap.notFree inUse free
    simp only [writeByte, ne, if_false]
  · exact good.owns.write hlive still ok (size ▸ user) rfl rfl rfl rfl rfl
  · refine valid_congr good.valid fun id => ?_
    rw [out_alloc]
    refine or_iff_left_of_imp ?_
    rintro rfl
    exact .inl alive
  · intro b out
    rcases (out_alloc b).mp out with out | rfl
    · exact good.isAa b out
    · exact isAa

/-- Every enabled step succeeds, but for a request whose size lookup leaves the table
and for the lack of an address bucket. -/
theorem perform_stepped (a : Action)
    (once : ∀ t f, a = .resume t → F t = some f → f.target = none →
      cfg.memcpyMultiplicator = 1)
    (enabled : Enabled cfg T S a) (clean : Clean cfg S a) :
    (∃ S' F', perform cfg S a = .ok S' ∧ Stepped cfg T S a S' F') ∨
      (perform cfg S a = .error .noSizeClass ∧
        ∃ t size, a = .malloc t size ∧ adjustedSize cfg size = largestSc) ∨
      (perform cfg S a = .error .emptyBucket ∧ ¬ Robust (π := π) cfg.toAddressConfig T) := by
  cases a with
  | malloc t size =>
      rcases malloc_stepped good answers config enabled.1 clean with
        ⟨S', run, step⟩ | ⟨run, adjusted⟩
      · exact .inl ⟨S', F, run, step⟩
      · exact .inr (.inl ⟨run, t, size, rfl, adjusted⟩)
  | free t a =>
      rcases free_stepped good answers config enabled.1 enabled.2.1 enabled.2.2 with
        ⟨S', run, F', step, _⟩ | lacks
      · exact .inl ⟨S', F', run, step⟩
      · exact .inr (.inr lacks)
  | resume t =>
      rcases resume_stepped good answers config enabled (fun f => once t f rfl) with
        ⟨S', run, F', step, _⟩ | lacks
      · exact .inl ⟨S', F', run, step⟩
      · exact .inr (.inr lacks)
  | write a j x =>
      obtain ⟨still, o, hlive, _, user⟩ := enabled
      obtain ⟨S', run, step⟩ := write_stepped (T := T) (x := x) good answers config still hlive user
      exact .inl ⟨S', F, run, step⟩

end Step

/-! ### All runs -/

section Run
variable {cfg : Config} {T : Nat} {addresses : π} {S : System π}

omit [AddressPool π] [LawfulAddressPool π] in
/-- After `cf_init` no block is used, no page is a source page, and all pages are free. -/
theorem initHeap_ok (cfg : Config) (addresses : π) :
    (∀ p i, ¬ ((initHeap cfg addresses).pages p).usedPageBlockBitmap.Used i) ∧
      (∀ p, ((initHeap cfg addresses).pages p).sourceentries = 0) ∧
      HeapOk cfg (initHeap cfg addresses) := by
  obtain ⟨pool, flags, pages, classes, _⟩ := initHeap_spec cfg addresses
  generalize hh : initHeap cfg addresses = h at pool flags pages classes ⊢
  have unused : ∀ p i, ¬ (h.pages p).usedPageBlockBitmap.Used i := by
    intro p i
    obtain ⟨f, _, eq⟩ := pages p
    rw [eq]
    exact UsedBitmap.used_empty i
  have entries : ∀ p, (h.pages p).sourceentries = 0 := by
    intro p
    obtain ⟨f, _, eq⟩ := pages p
    rw [eq]
  refine ⟨unused, entries, ⟨?_, ?_, ?_, ?_, ?_⟩, pool, ?_, ?_⟩
  · intro c f
    rw [classes]
    exact List.nodup_nil
  · intro c f p
    obtain ⟨g, kind, eq⟩ := pages p
    rw [classes, eq]
    refine ⟨fun mem => (by cases mem), ?_⟩
    rintro ⟨notNone, notFree, rfl, _⟩
    exact absurd kind (by simp [notNone, notFree])
  · intro c
    rw [classes]
    rfl
  · intro c
    rw [classes]
    rfl
  · intro c
    rw [classes]
    rfl
  · intro p
    obtain ⟨g, kind, eq⟩ := pages p
    have none : (h.pages p).usedPageBlockBitmap.usedBlocks = ∅ :=
      Finset.eq_empty_of_forall_notMem fun i mem => unused p i (UsedBitmap.mem_usedBlocks.mp mem)
    refine ⟨?_, fun i used => absurd used (unused p i), ?_, ?_⟩
    · rw [none, eq]
      rfl
    · rw [eq]
      exact (by decide : 0 < sizeClasses)
    · rw [eq]
      rcases kind with rfl | rfl <;> exact ⟨rfl, rfl⟩
  · intro p
    obtain ⟨g, kind, eq⟩ := pages p
    refine Iff.trans ?_ (flags p)
    rw [eq]
    rcases kind with rfl | rfl <;> simp

theorem good_init (cfg : Config) (T : Nat)
    (valid : Valid cfg.toAddressConfig T (fun _ => False) addresses) :
    Good cfg T (initHeap cfg addresses) (fun _ => none) (fun _ => none) := by
  obtain ⟨unused, entries, ok⟩ := initHeap_ok cfg addresses
  have notOut : ∀ a, ¬ Out (fun _ => none) (fun _ => none) a := by
    rintro a (alive | ⟨t, f, hF, _⟩)
    · exact alive rfl
    · cases hF
  refine ⟨ok, ⟨?_, ?_, ?_, ?_, ?_, ?_, ?_, ?_⟩, ?_, fun a out => absurd out (notOut a)⟩
  · rintro t f hF
    cases hF
  · rintro a o hlive
    cases hlive
  · exact fun B used => absurd used (unused B.page B.index)
  · intro p
    refine (entries p).trans (Finset.sum_eq_zero fun t _ => ?_).symm
    rfl
  · rintro t f hF
    cases hF
  · rintro t f hF
    cases hF
  · rintro t t' f f' hF
    cases hF
  · rintro t t' f f' s s' hF
    cases hF
  · rw [(initHeap_spec cfg addresses).2.2.2.2]
    exact valid_congr valid fun id => ⟨fun out => absurd out (notOut _), fun h => h.elim⟩

/-- The invariant of the runs: the frames of the suspended calls make the heap good. -/
def Sound (cfg : Config) (T : Nat) (S : System π) : Prop :=
  ∃ F, Good cfg T S.heap S.live F ∧ ∀ t, Answers (S.calls t) (F t)

theorem Sound.step {S' : System π} {a : Action} {F : Frames} (good : Good cfg T S.heap S.live F)
    (answers : ∀ t, Answers (S.calls t) (F t)) (config : cfg.Compacting)
    (final : AbortsFinal cfg S a) (enabled : Enabled cfg T S a) (clean : Clean cfg S a)
    (run : perform cfg S a = .ok S') : ∃ F', Stepped cfg T S a S' F' := by
  have once : ∀ t f, a = .resume t → F t = some f → f.target = none →
      cfg.memcpyMultiplicator = 1 := by
    rintro t f rfl hF none
    obtain ⟨call, hc, waiting⟩ := answers_frame answers hF
    exact final call hc (good.aborted_of_lost hF waiting none)
  rcases perform_stepped good answers config a once enabled clean with
    ⟨S', F', run', step⟩ | ⟨run', _⟩ | ⟨run', _⟩
  · rw [run] at run'
    cases run'
    exact ⟨F', step⟩
  · rw [run] at run'
    cases run'
  · rw [run] at run'
    cases run'

theorem Run.sound {allowed : System π → Action → Prop} (run : Run cfg T allowed addresses S)
    (config : cfg.Compacting)
    (orderly : ∀ S a, allowed S a → Clean cfg S a ∧ AbortsFinal cfg S a)
    (valid : Valid cfg.toAddressConfig T (fun _ => False) addresses) : Sound cfg T S := by
  induction run with
  | init => exact ⟨_, good_init cfg T valid, fun _ => trivial⟩
  | @step S S' a _ enabled ok run ih =>
      obtain ⟨F, good, answers⟩ := ih
      obtain ⟨clean, final⟩ := orderly S a ok
      obtain ⟨F', step⟩ := Sound.step good answers config final enabled clean run
      exact ⟨F', step.good, step.answers⟩

omit [LawfulAddressPool π] in
theorem abortsFinal_once (once : cfg.memcpyMultiplicator = 1) (a : Action) :
    AbortsFinal cfg S a := by
  cases a with
  | resume t => exact fun _ _ _ => once
  | malloc | free | write => trivial

theorem Reachable.sound (reachable : Reachable cfg T addresses S) (config : cfg.Compacting)
    (once : cfg.memcpyMultiplicator = 1)
    (valid : Valid cfg.toAddressConfig T (fun _ => False) addresses) : Sound cfg T S :=
  Run.sound reachable config (fun _ a clean => ⟨clean, abortsFinal_once once a⟩) valid

end Run
end
end CompactFit
