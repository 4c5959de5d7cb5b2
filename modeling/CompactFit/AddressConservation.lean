import CompactFit.BucketShortage
import CompactFit.Library.BucketPlaces

/-!
Conservation of abstract addresses, read off the links: in every run an identifier is
handed out or in one of the lists the links form, and a bucket structure is full or empty
in one list.
-/

namespace CompactFit
open LinkedChain

namespace AddressBuckets

/-- The identifiers of a thread: `aas_count` links from `aas`. -/
def localAas (σ : AddressBuckets) (t : Nat) : List Nat :=
  follow σ.aaSpace (σ.threads t).aasCount (σ.threads t).aas

def localAbuckets (σ : AddressBuckets) (t : Nat) : List Nat :=
  follow σ.nextOf (σ.threads t).abucketsCount (σ.threads t).abuckets

def bucketAas (cfg : AddressConfig) (σ : AddressBuckets) (b : Nat) : List Nat :=
  follow σ.aaSpace cfg.nrLocalAas (σ.localOf b)

def localFreeAbuckets (σ : AddressBuckets) (t : Nat) : List Nat :=
  follow σ.localOf (σ.threads t).freeAbucketsCount (σ.threads t).freeAbuckets

/-- The chain of empty buckets that starts at `b`. -/
def freeAbucketChain (cfg : AddressConfig) (σ : AddressBuckets) (b : Nat) : List Nat :=
  follow σ.localOf cfg.nrLocalFreeAbuckets b

end AddressBuckets

inductive AddressPlace where
  | out
  | local (t : Nat)
  | bucket (t b : Nat)
  | stack (b : Nat)

/-- Where a bucket structure can be; `freeStack b` is the chain that starts at `b`. -/
inductive AbucketPlace where
  | full (t : Nat)
  | fullStack
  | free (t : Nat)
  | freeStack (b : Nat)

namespace Exchange
open AddressBuckets

def Holds (cfg : AddressConfig) (T : Nat) (S : Exchange) (full : List Nat) (id : Nat) :
    AddressPlace → Prop
  | .out => id ∈ S.out
  | .local t => t < T ∧ id ∈ S.pool.localAas t
  | .bucket t b => t < T ∧ b ∈ S.pool.localAbuckets t ∧ id ∈ S.pool.bucketAas cfg b
  | .stack b => b ∈ full ∧ id ∈ S.pool.bucketAas cfg b

/-- The bucket structure is in the place; `free` is the global stack of empty ones. -/
def Lists (cfg : AddressConfig) (T : Nat) (S : Exchange) (full free : List Nat) (m : Nat) :
    AbucketPlace → Prop
  | .full t => t < T ∧ m ∈ S.pool.localAbuckets t
  | .fullStack => m ∈ full
  | .free t => t < T ∧ m ∈ S.pool.localFreeAbuckets t
  | .freeStack b => b ∈ free ∧ m ∈ S.pool.freeAbucketChain cfg b

/-- Every identifier and every bucket structure is in one place, and once; `full` and
`free` are the global stacks. -/
structure Conserved (cfg : AddressConfig) (T : Nat) (S : Exchange) (full free : List Nat) :
    Prop where
  fullStack : Chain S.pool.nextOf S.pool.freeAaHead full 0
  freeStack : Chain S.pool.nextOf S.pool.freeAaBucketsHead free 0
  place : ∀ id, id < cfg.nrAas → ∃! p, S.Holds cfg T full id p
  range : ∀ id p, S.Holds cfg T full id p → id < cfg.nrAas
  localNodup : ∀ t, t < T → (S.pool.localAas t).Nodup
  bucketNodup : ∀ b, b ∈ full ∨ (∃ t, t < T ∧ b ∈ S.pool.localAbuckets t) →
    (S.pool.bucketAas cfg b).Nodup ∧ (S.pool.bucketAas cfg b).length = cfg.nrLocalAas
  abucketPlace : ∀ m, 1 ≤ m → m ≤ cfg.nrAaBuckets → ∃! p, S.Lists cfg T full free m p
  abucketRange : ∀ m p, S.Lists cfg T full free m p → 1 ≤ m ∧ m ≤ cfg.nrAaBuckets
  listNodup : full.Nodup ∧ free.Nodup ∧ ∀ t, t < T → (S.pool.localAbuckets t).Nodup ∧
    (S.pool.localFreeAbuckets t).Nodup
  chainNodup : ∀ b, b ∈ free → (S.pool.freeAbucketChain cfg b).Nodup ∧
    (S.pool.freeAbucketChain cfg b).length = cfg.nrLocalFreeAbuckets

end Exchange

section
open AddressBuckets BucketPool
variable {cfg : AddressConfig} {T t : Nat} {σ : AddressBuckets} {P Q : Ids}
  {cell : List Nat → Nat}

namespace AddressBuckets

theorem Rep.localAas_eq (rep : Rep cfg T σ P Q cell) (t : Nat) :
    σ.localAas t = (P.locals t).items := by
  obtain ⟨e, chain⟩ := (rep.full.locals t).aas
  rw [localAas, (rep.full.locals t).aasCount, follow_chain chain]

theorem Rep.localAbuckets_eq (rep : Rep cfg T σ P Q cell) (t : Nat) :
    σ.localAbuckets t = (P.locals t).buckets.map cell := by
  obtain ⟨e, chain⟩ := (rep.full.locals t).abuckets
  have visited := follow_chain chain
  rwa [List.length_map, ← (rep.full.locals t).abucketsCount] at visited

theorem Rep.bucketAas_eq (rep : Rep cfg T σ P Q cell) {b : List Nat} (hb : P.IsBucket b) :
    σ.bucketAas cfg (cell b) = b := by
  obtain ⟨e, chain⟩ := rep.full.bucket b hb
  have visited := follow_chain chain
  rwa [isBucket_length rep.ledger.full hb] at visited

theorem Rep.localFreeAbuckets_eq (rep : Rep cfg T σ P Q cell) (t : Nat) :
    σ.localFreeAbuckets t = (Q.locals t).items := by
  obtain ⟨e, chain⟩ := (rep.empty.locals t).chain
  rw [localFreeAbuckets, (rep.empty.locals t).count, follow_chain chain]

theorem Rep.freeAbucketChain_eq (rep : Rep cfg T σ P Q cell) {b : List Nat} (hb : b ∈ Q.shared) :
    σ.freeAbucketChain cfg (firstOf b) = b := by
  obtain ⟨e, chain⟩ := rep.empty.bucket b hb
  have visited := follow_chain chain
  rwa [rep.ledger.empty.shared_length b hb] at visited

theorem Ledger.client_lt (ledger : Ledger cfg T P Q cell) {x : Nat}
    (mem : x ∈ (P.locals t).elems ∨ x ∈ (Q.locals t).elems) : t < T := by
  by_contra le
  obtain ⟨noIds, noCells⟩ := ledger.idle t (Nat.le_of_not_lt le)
  rw [noIds, noCells] at mem
  rcases mem with mem | mem <;> cases mem

/-- A full bucket is not empty, so its owner is a thread. -/
theorem Ledger.bucket_at (ledger : Ledger cfg T P Q cell) {b : List Nat}
    (hb : P.IsBucket b) : ∃ x, x ∈ b := by
  have len := isBucket_length ledger.full hb
  cases b with
  | nil => exact absurd len (Nat.ne_of_lt cfg.nrLocalAas_pos)
  | cons x b => exact ⟨x, List.mem_cons_self⟩

end AddressBuckets

def addressPlace (cell : List Nat → Nat) : Place Nat Nat → AddressPlace
  | .items t => .local t
  | .bucket t b => .bucket t (cell b)
  | .shared b => .stack (cell b)

namespace Exchange
variable {S : Exchange}

theorem Tracked.holds_iff (ok : S.Tracked cfg T P Q cell) (id : Nat) (p : AddressPlace) :
    S.Holds cfg T (P.shared.map cell) id p ↔
      (p = .out ∧ id ∈ S.out) ∨ ∃ q, P.At id q ∧ p = addressPlace cell q := by
  have rep := ok.rep
  constructor
  · intro h
    cases p with
    | out => exact .inl ⟨rfl, h⟩
    | «local» t =>
        obtain ⟨_, mem⟩ := h
        rw [rep.localAas_eq t] at mem
        exact .inr ⟨.items t, mem, rfl⟩
    | bucket t m =>
        obtain ⟨_, listed, mem⟩ := h
        rw [rep.localAbuckets_eq t] at listed
        obtain ⟨b, hb, rfl⟩ := List.mem_map.mp listed
        rw [rep.bucketAas_eq (.inl ⟨t, hb⟩)] at mem
        exact .inr ⟨.bucket t b, ⟨hb, mem⟩, rfl⟩
    | stack m =>
        obtain ⟨listed, mem⟩ := h
        obtain ⟨b, hb, rfl⟩ := List.mem_map.mp listed
        rw [rep.bucketAas_eq (.inr hb)] at mem
        exact .inr ⟨.shared b, ⟨hb, mem⟩, rfl⟩
  · rintro (⟨rfl, h⟩ | ⟨q, h, rfl⟩)
    · exact h
    · cases q with
      | items t =>
          refine ⟨rep.ledger.client_lt (.inl (List.mem_append_left _ h)), ?_⟩
          rw [rep.localAas_eq t]
          exact h
      | bucket t b =>
          refine ⟨rep.ledger.client_lt (.inl (List.mem_append_right _ (at_bucket_mem h))), ?_, ?_⟩
          · rw [rep.localAbuckets_eq t]
            exact List.mem_map_of_mem h.1
          · rw [rep.bucketAas_eq (.inl ⟨t, h.1⟩)]
            exact h.2
      | shared b =>
          refine ⟨List.mem_map_of_mem h.1, ?_⟩
          rw [rep.bucketAas_eq (.inr h.1)]
          exact h.2

theorem Tracked.place (ok : S.Tracked cfg T P Q cell) {id : Nat} (lt : id < cfg.nrAas) :
    ∃! p, S.Holds cfg T (P.shared.map cell) id p := by
  by_cases out : id ∈ S.out
  · have notAt : ∀ q, ¬ P.At id q :=
      fun q h => (ok.free id lt).mp (exists_at.mp ⟨q, h⟩) out
    refine ⟨.out, (ok.holds_iff id _).mpr (.inl ⟨rfl, out⟩), fun p h => ?_⟩
    rcases (ok.holds_iff id p).mp h with ⟨eq, _⟩ | ⟨q, h, _⟩
    · exact eq
    · exact absurd h (notAt q)
  · obtain ⟨q, at_⟩ := exists_at.mpr ((ok.free id lt).mpr out)
    refine ⟨addressPlace cell q, (ok.holds_iff id _).mpr (.inr ⟨q, at_, rfl⟩), fun p h => ?_⟩
    rcases (ok.holds_iff id p).mp h with ⟨_, mem⟩ | ⟨q', at', rfl⟩
    · exact absurd mem out
    · rw [at_unique ok.rep.ledger.full at' at_]

theorem Tracked.range (ok : S.Tracked cfg T P Q cell) {id : Nat} {p : AddressPlace}
    (h : S.Holds cfg T (P.shared.map cell) id p) : id < cfg.nrAas := by
  rcases (ok.holds_iff id p).mp h with ⟨_, mem⟩ | ⟨q, at_, _⟩
  · exact ok.bound id mem
  · exact ok.rep.ledger.held id (exists_at.mp ⟨q, at_⟩)

def fullPlace : Place Nat Nat → Option (List Nat × AbucketPlace)
  | .items _ => none
  | .bucket t b => some (b, .full t)
  | .shared b => some (b, .fullStack)

def freePlace : Place Nat Nat → AbucketPlace
  | .items t => .free t
  | .bucket _ b => .freeStack (firstOf b)
  | .shared b => .freeStack (firstOf b)

/-- A listed bucket structure is a free one or holds the identifiers of a place. -/
theorem Tracked.lists_iff (ok : S.Tracked cfg T P Q cell) (m : Nat) (p : AbucketPlace) :
    S.Lists cfg T (P.shared.map cell) (Q.shared.map firstOf) m p ↔
      (∃ id q b, P.At id q ∧ fullPlace q = some (b, p) ∧ cell b = m) ∨
      ∃ q, Q.At m q ∧ p = freePlace q := by
  have rep := ok.rep
  constructor
  · intro h
    cases p with
    | full t =>
        obtain ⟨_, mem⟩ := h
        rw [rep.localAbuckets_eq t] at mem
        obtain ⟨b, hb, rfl⟩ := List.mem_map.mp mem
        obtain ⟨x, hx⟩ := rep.ledger.bucket_at (.inl ⟨t, hb⟩)
        exact .inl ⟨x, .bucket t b, b, ⟨hb, hx⟩, rfl, rfl⟩
    | fullStack =>
        obtain ⟨b, hb, rfl⟩ := List.mem_map.mp h
        obtain ⟨x, hx⟩ := rep.ledger.bucket_at (.inr hb)
        exact .inl ⟨x, .shared b, b, ⟨hb, hx⟩, rfl, rfl⟩
    | free t =>
        obtain ⟨_, mem⟩ := h
        rw [rep.localFreeAbuckets_eq t] at mem
        exact .inr ⟨.items t, mem, rfl⟩
    | freeStack c =>
        obtain ⟨listed, mem⟩ := h
        obtain ⟨b, hb, rfl⟩ := List.mem_map.mp listed
        rw [rep.freeAbucketChain_eq hb] at mem
        exact .inr ⟨.shared b, ⟨hb, mem⟩, rfl⟩
  · rintro (⟨id, q, b, at_, eq, rfl⟩ | ⟨q, at_, rfl⟩)
    · cases q with
      | items t => cases eq
      | bucket t c =>
          cases eq
          refine ⟨rep.ledger.client_lt (.inl (List.mem_append_right _ (at_bucket_mem at_))), ?_⟩
          rw [rep.localAbuckets_eq t]
          exact List.mem_map_of_mem at_.1
      | shared c =>
          cases eq
          exact List.mem_map_of_mem at_.1
    · cases q with
      | items t =>
          refine ⟨rep.ledger.client_lt (.inr (List.mem_append_left _ at_)), ?_⟩
          rw [rep.localFreeAbuckets_eq t]
          exact at_
      | bucket t c =>
          obtain ⟨listed, _⟩ := at_
          rw [(rep.empty.locals t).noBuckets] at listed
          cases listed
      | shared c =>
          refine ⟨List.mem_map_of_mem at_.1, ?_⟩
          rw [rep.freeAbucketChain_eq at_.1]
          exact at_.2

theorem fullPlace_isBucket {q : Place Nat Nat} {id : Nat} {b : List Nat} {p : AbucketPlace}
    (at_ : P.At id q) (eq : fullPlace q = some (b, p)) : P.IsBucket b ∧ id ∈ b := by
  cases q with
  | items t => cases eq
  | bucket t c =>
      cases eq
      exact ⟨.inl ⟨t, at_.1⟩, at_.2⟩
  | shared c =>
      cases eq
      exact ⟨.inr at_.1, at_.2⟩

theorem fullPlace_at {q : Place Nat Nat} {x y : Nat} {b : List Nat} {p : AbucketPlace}
    (at_ : P.At x q) (eq : fullPlace q = some (b, p)) (mem : y ∈ b) : P.At y q := by
  cases q with
  | items t => cases eq
  | bucket t c =>
      cases eq
      exact ⟨at_.1, mem⟩
  | shared c =>
      cases eq
      exact ⟨at_.1, mem⟩

theorem Tracked.abucketPlace (ok : S.Tracked cfg T P Q cell) {m : Nat} (pos : 1 ≤ m)
    (le : m ≤ cfg.nrAaBuckets) :
    ∃! p, S.Lists cfg T (P.shared.map cell) (Q.shared.map firstOf) m p := by
  have ledger := ok.rep.ledger
  rcases ledger.complete m pos le with held | ⟨b, hb, rfl⟩
  · obtain ⟨q, at_⟩ := exists_at.mpr held
    refine ⟨freePlace q, (ok.lists_iff m _).mpr (.inr ⟨q, at_, rfl⟩), fun p h => ?_⟩
    rcases (ok.lists_iff m p).mp h with ⟨id, q', b, at', eq, rfl⟩ | ⟨q', at', rfl⟩
    · exact absurd held (ledger.apart b (fullPlace_isBucket at' eq).1)
    · rw [at_unique ledger.empty at' at_]
  · obtain ⟨x, hx⟩ := ledger.bucket_at hb
    have listed : ∃ q p, P.At x q ∧ fullPlace q = some (b, p) := by
      rcases hb with ⟨t, mem⟩ | mem
      · exact ⟨.bucket t b, .full t, ⟨mem, hx⟩, rfl⟩
      · exact ⟨.shared b, .fullStack, ⟨mem, hx⟩, rfl⟩
    obtain ⟨q, p, at_, eq⟩ := listed
    refine ⟨p, (ok.lists_iff _ _).mpr (.inl ⟨x, q, b, at_, eq, rfl⟩), fun p' h => ?_⟩
    rcases (ok.lists_iff _ p').mp h with ⟨y, q', c, at', eq', same⟩ | ⟨q', at', rfl⟩
    · have isBucket := (fullPlace_isBucket at' eq').1
      have eqB := ledger.inj c b isBucket hb same
      subst eqB
      have eqQ := at_unique ledger.full (fullPlace_at at' eq' hx) at_
      subst eqQ
      rw [eq] at eq'
      cases eq'
      rfl
    · exact absurd (exists_at.mp ⟨q', at'⟩) (ledger.apart b hb)

theorem Tracked.abucketRange (ok : S.Tracked cfg T P Q cell) {m : Nat} {p : AbucketPlace}
    (h : S.Lists cfg T (P.shared.map cell) (Q.shared.map firstOf) m p) :
    1 ≤ m ∧ m ≤ cfg.nrAaBuckets := by
  rcases (ok.lists_iff m p).mp h with ⟨id, q, b, at_, eq, rfl⟩ | ⟨q, at_, _⟩
  · exact ok.rep.ledger.cell_range b (fullPlace_isBucket at_ eq).1
  · exact ok.rep.ledger.empty_range m (exists_at.mp ⟨q, at_⟩)

/-- Different buckets have different structures. -/
theorem Tracked.cells_nodup (ok : S.Tracked cfg T P Q cell) {bs : List (List Nat)}
    (sub : ∀ b, b ∈ bs → P.IsBucket b) (nodup : bs.flatten.Nodup) : (bs.map cell).Nodup := by
  have ledger := ok.rep.ledger
  refine List.Nodup.map_on (fun b hb c hc eq => ledger.inj b c (sub b hb) (sub c hc) eq) ?_
  exact nodup_of_flatten cfg.nrLocalAas_pos
    (fun b hb => isBucket_length ledger.full (sub b hb)) nodup

theorem Tracked.conserved (ok : S.Tracked cfg T P Q cell) :
    S.Conserved cfg T (P.shared.map cell) (Q.shared.map firstOf) where
  fullStack := ok.rep.full.shared
  freeStack := ok.rep.empty.shared
  place _ := ok.place
  range _ _ := ok.range
  localNodup t _ := by
    rw [ok.rep.localAas_eq t]
    exact (List.nodup_append.mp (ok.rep.ledger.full.nodup_local t)).1
  bucketNodup m listed := by
    have isBucket : ∃ b, P.IsBucket b ∧ cell b = m := by
      rcases listed with mem | ⟨t, _, mem⟩
      · obtain ⟨b, hb, rfl⟩ := List.mem_map.mp mem
        exact ⟨b, .inr hb, rfl⟩
      · rw [ok.rep.localAbuckets_eq t] at mem
        obtain ⟨b, hb, rfl⟩ := List.mem_map.mp mem
        exact ⟨b, .inl ⟨t, hb⟩, rfl⟩
    obtain ⟨b, hb, rfl⟩ := isBucket
    rw [ok.rep.bucketAas_eq hb]
    exact ⟨isBucket_nodup ok.rep.ledger.full hb, isBucket_length ok.rep.ledger.full hb⟩
  abucketPlace _ := ok.abucketPlace
  abucketRange _ _ := ok.abucketRange
  listNodup := by
    have full := ok.rep.ledger.full
    have empty := ok.rep.ledger.empty
    refine ⟨ok.cells_nodup (fun b hb => .inr hb) full.nodup_shared, ?_, fun t _ => ⟨?_, ?_⟩⟩
    · refine List.Nodup.map_on (fun b hb c hc eq => ?_)
        (nodup_of_flatten cfg.nrLocalFreeAbuckets_pos empty.shared_length empty.nodup_shared)
      have inB := firstOf_mem cfg.nrLocalFreeAbuckets_pos (empty.shared_length b hb)
      have inC := firstOf_mem cfg.nrLocalFreeAbuckets_pos (empty.shared_length c hc)
      exact eq_of_mem_flatten empty.nodup_shared hb hc inB (eq ▸ inC)
    · rw [ok.rep.localAbuckets_eq t]
      exact ok.cells_nodup (fun b hb => .inl ⟨t, hb⟩)
        (List.nodup_append.mp (full.nodup_local t)).2.1
    · rw [ok.rep.localFreeAbuckets_eq t]
      exact (List.nodup_append.mp (empty.nodup_local t)).1
  chainNodup m mem := by
    obtain ⟨b, hb, rfl⟩ := List.mem_map.mp mem
    rw [ok.rep.freeAbucketChain_eq hb]
    exact ⟨isBucket_nodup ok.rep.ledger.empty (.inr hb), ok.rep.ledger.empty.shared_length b hb⟩

end Exchange

/-- In every run the identifiers and the bucket structures are conserved, and `get_free_aa`
returns an identifier of the table that is not handed out. -/
theorem addresses_conserved {S : Exchange} (run : Exchange.Run cfg T S) :
    (∃ full free, S.Conserved cfg T full free) ∧
    ∀ t id σ', t < T → getFreeAa cfg t S.pool = (some id, σ') → id ∉ S.out ∧ id < cfg.nrAas := by
  obtain ⟨P, Q, cell, ok⟩ := run.tracked
  refine ⟨⟨_, _, ok.conserved⟩, fun t id σ' ht got => ?_⟩
  rcases getFreeAa_rep ok.rep ht with ⟨none, _⟩ | ⟨id', items, σ1, P1, Q', some, _, _, held, _⟩
  · rw [got] at none
    cases none
  · rw [got] at some
    cases some
    have lt := ok.rep.ledger.held id held
    exact ⟨(ok.free id lt).mp held, lt⟩

/-- Thread 1 takes both identifiers and thread 0 gets one of them back. -/
theorem addresses_conserved_shared : ∃ S : Exchange, S.out = {0} ∧
    (∃ full free, S.Conserved shortageConfig 2 full free) ∧
    ∀ t id σ', t < 2 → getFreeAa shortageConfig t S.pool = (some id, σ') →
      id ∉ S.out ∧ id < shortageConfig.nrAas :=
  have taken : Exchange.Run shortageConfig 2 _ := .step (.get 1) .init (by decide) rfl
  have both : Exchange.Run shortageConfig 2 _ := .step (.get 1) taken (by decide) rfl
  have written : Exchange.Run shortageConfig 2 _ := .step (.write 1 7) both (by decide +kernel) rfl
  have back : Exchange.Run shortageConfig 2 _ := .step (.put 0 1) written (by decide +kernel) rfl
  ⟨_, by decide +kernel, addresses_conserved back⟩

end
end CompactFit
