import CompactFit.AddressBucketPool

/-!
Runs of `get_free_aa` and `put_free_aa` in which every thread may return what another
has taken, and the table words of what is taken hold anything. `put_free_aa` finds an
empty bucket in all of them when the other threads can hoard one bucket at most; else one
thread that allocates and one that frees are enough to use the empty buckets up.
-/

namespace CompactFit
open Function AddressBuckets

structure Exchange where
  pool : AddressBuckets
  out : Finset Nat

inductive ExchangeAction where
  | get (t : Nat)
  | put (t id : Nat)
  | write (id w : Nat)

namespace Exchange

def init (cfg : AddressConfig) : Exchange :=
  { pool := initFreeAaList cfg, out := ∅ }

def perform (cfg : AddressConfig) (S : Exchange) : ExchangeAction → Except Fault Exchange
  | .get t =>
      match getFreeAa cfg t S.pool with
      | (none, σ) => .ok { S with pool := σ }
      | (some id, σ) => .ok { pool := σ, out := insert id S.out }
  | .put t id => do
      let σ ← putFreeAa cfg t id S.pool
      return { pool := σ, out := S.out.erase id }
  | .write id w => .ok { S with pool := S.pool.setWord id w }

/-- Only what is handed out is returned, or has its word written. -/
def Enabled (T : Nat) (S : Exchange) : ExchangeAction → Prop
  | .get t => t < T
  | .put t id => t < T ∧ id ∈ S.out
  | .write id _ => id ∈ S.out

instance (T : Nat) (S : Exchange) : (a : ExchangeAction) → Decidable (Enabled T S a)
  | .get t => inferInstanceAs (Decidable (t < T))
  | .put t id => inferInstanceAs (Decidable (t < T ∧ id ∈ S.out))
  | .write id _ => inferInstanceAs (Decidable (id ∈ S.out))

inductive Run (cfg : AddressConfig) (T : Nat) : Exchange → Prop where
  | init : Run cfg T (Exchange.init cfg)
  | step {S S' : Exchange} (a : ExchangeAction) : Run cfg T S → Enabled T S a →
      S.perform cfg a = .ok S' → Run cfg T S'

/-- A `put_free_aa` with a full local bucket finds an empty one, so its assertion holds. -/
def BucketFound (cfg : AddressConfig) (T : Nat) (S : Exchange) : Prop :=
  ∀ t id, t < T → id ∈ S.out →
    ((S.pool.threads t).aasCount = cfg.nrLocalAas → (S.pool.threads t).freeAbucketsCount = 0 →
      S.pool.freeAaBucketsHead ≠ 0) ∧
    putFreeAa cfg t id S.pool ≠ .error .emptyBucket

end Exchange

section
variable {cfg : AddressConfig} {T : Nat} {S : Exchange}

structure Exchange.Tracked (cfg : AddressConfig) (T : Nat) (S : Exchange) (P Q : Ids)
    (cell : List Nat → Nat) : Prop where
  rep : Rep cfg T S.pool P Q cell
  free : ∀ id, id < cfg.nrAas → (P.Holds id ↔ id ∉ S.out)
  bound : ∀ id, id ∈ S.out → id < cfg.nrAas

namespace Exchange

theorem tracked_get {P Q : Ids} {cell : List Nat → Nat} (ok : S.Tracked cfg T P Q cell) {t : Nat}
    (ht : t < T) : (S.perform cfg (.get t) = .ok S ∧ (P.locals t).items = [] ∧
        BucketPool.refill t P = none ∧ getFreeAa cfg t S.pool = (none, S.pool)) ∨
      ∃ id items S' P1 Q', S.perform cfg (.get t) = .ok S' ∧ Opened cfg t cell P Q P1 Q' ∧
        (P1.locals t).items = id :: items ∧ id ∉ S.out ∧ S'.out = insert id S.out ∧
        S'.Tracked cfg T (P1.setLocal t { P1.locals t with items := items }) Q' cell ∧
        getFreeAa cfg t S.pool = (some id, S'.pool) := by
  rcases getFreeAa_rep ok.rep ht with ⟨run, none⟩ |
    ⟨id, items, σ', P1, Q', run, opened, hi, held, holds, rep, _⟩
  · exact .inl ⟨by simp only [perform, run], none.1, none.2, run⟩
  · have lt := ok.rep.ledger.held id held
    refine .inr ⟨id, items, ⟨σ', insert id S.out⟩, P1, Q', by simp only [perform, run], opened, hi,
      (ok.free id lt).mp held, rfl, ⟨rep, fun a ha => ?_, fun a ha => ?_⟩, run⟩
    · rw [holds, ok.free a ha, Finset.mem_insert, not_or, and_comm]
    · rcases Finset.mem_insert.mp ha with rfl | ha
      · exact lt
      · exact ok.bound a ha

theorem tracked_put {P Q : Ids} {cell : List Nat → Nat} (ok : S.Tracked cfg T P Q cell)
    {t id : Nat} (ht : t < T) (hid : id ∈ S.out) :
    (putFreeAa cfg t id S.pool = .error .emptyBucket ∧
      (P.locals t).items.length = cfg.nrLocalAas ∧ (Q.locals t).items = [] ∧ Q.shared = []) ∨
    ∃ S' Q' cell', S.perform cfg (.put t id) = .ok S' ∧ S'.out = S.out.erase id ∧
      (∃ σ, putFreeAa cfg t id S.pool = .ok σ) ∧
      S'.Tracked cfg T (BucketPool.put cfg.nrLocalAas cfg.nrLocalAbuckets t id P) Q' cell' ∧
      ((P.locals t).items.length ≠ cfg.nrLocalAas → Q' = Q) := by
  have lt := ok.bound id hid
  have fresh : ¬ P.Holds id := fun held => (ok.free id lt).mp held hid
  rcases putFreeAa_rep ok.rep ht fresh lt with lacks | ⟨σ', Q', cell', run, rep, _, same⟩
  · exact .inl lacks
  · obtain ⟨_, holds⟩ := BucketPool.put_spec cfg.nrLocalAbuckets cfg.nrLocalAas_pos
      (t := t) ok.rep.ledger.full fresh
    refine .inr ⟨⟨σ', S.out.erase id⟩, Q', cell', by rw [perform, run]; rfl, rfl, ⟨σ', run⟩,
      ⟨rep, fun a ha => ?_, fun a ha => ok.bound a (Finset.mem_of_mem_erase ha)⟩, same⟩
    rw [holds, ok.free a ha, Finset.mem_erase, not_and, ne_eq]
    by_cases eq : a = id
    · simp [eq]
    · simp [eq]

theorem tracked_write {P Q : Ids} {cell : List Nat → Nat} (ok : S.Tracked cfg T P Q cell)
    {id : Nat} (hid : id ∈ S.out) (w : Nat) :
    Tracked cfg T { S with pool := S.pool.setWord id w } P Q cell :=
  ⟨ok.rep.setWord (fun held => (ok.free id (ok.bound id hid)).mp held hid) w, ok.free, ok.bound⟩

theorem tracked_init : (init cfg).Tracked cfg T (initialIds cfg) noIds (homeCell cfg) :=
  ⟨rep_init cfg T, fun id lt => iff_of_true ((initialIds_holds cfg id).mpr lt)
    (Finset.notMem_empty id), fun id mem => absurd mem (Finset.notMem_empty id)⟩

theorem Run.tracked (run : Run cfg T S) : ∃ P Q cell, S.Tracked cfg T P Q cell := by
  induction run with
  | init => exact ⟨_, _, _, tracked_init⟩
  | @step S S' a _ enabled run ih =>
      obtain ⟨P, Q, cell, ok⟩ := ih
      cases a with
      | get t =>
          rcases tracked_get ok enabled with ⟨run', _⟩ |
            ⟨_, _, _, P1, Q', run', _, _, _, _, ok', _⟩
          · rw [run] at run'
            cases run'
            exact ⟨P, Q, cell, ok⟩
          · rw [run] at run'
            cases run'
            exact ⟨_, Q', cell, ok'⟩
      | put t id =>
          rcases tracked_put ok enabled.1 enabled.2 with
            ⟨fault, _⟩ | ⟨_, Q', cell', run', _, _, ok', _⟩
          · rw [perform, fault] at run
            cases run
          · rw [run] at run'
            cases run'
            exact ⟨_, Q', cell', ok'⟩
      | write id w =>
          cases run
          exact ⟨P, Q, cell, tracked_write ok enabled w⟩

/-- Where the others can hoard one bucket at most, an empty bucket is found in every run. -/
theorem Run.bucketFound (run : Run cfg T S)
    (few : (T - 1) * cfg.nrLocalFreeAbuckets ≤ 1 ∨ cfg.nrAaBuckets ≤ 1) :
    S.BucketFound cfg T := by
  obtain ⟨P, Q, cell, ok⟩ := run.tracked
  intro t id ht hid
  have lt := ok.bound id hid
  have fresh : ¬ P.Holds id := fun held => (ok.free id lt).mp held hid
  have found : ¬ ((P.locals t).items.length = cfg.nrLocalAas ∧ (Q.locals t).items = [] ∧
      Q.shared = []) := by
    rintro ⟨full, none, shared⟩
    have := ok.rep.ledger.shortage ht fresh lt full none shared
      (fun s => (ok.rep.empty.locals s).noBuckets)
    omega
  constructor
  · intro full none head
    have count := (ok.rep.full.locals t).aasCount
    have empties := (ok.rep.empty.locals t).count
    have shared := ok.rep.empty.shared
    rw [head] at shared
    refine found ⟨count.symm.trans full, List.length_eq_zero_iff.mp (empties.symm.trans none), ?_⟩
    cases hs : Q.shared with
    | nil => rfl
    | cons b rest =>
        rw [hs, List.map_cons] at shared
        have len := ok.rep.ledger.empty.shared_length b (by simp [hs])
        have held : Q.Holds (firstOf b) := BucketPool.isBucket_holds (.inr (by simp [hs]))
          (firstOf_mem cfg.nrLocalFreeAbuckets_pos len)
        have := (ok.rep.ledger.empty_range _ held).1
        have := shared.1
        omega
  · intro fault
    rcases tracked_put ok ht hid with ⟨_, lacks⟩ | ⟨_, _, _, _, _, ⟨σ, run⟩, _⟩
    · exact found lacks
    · rw [run] at fault
      cases fault

/-! ### A run that uses the empty buckets up -/

/-- A state of a run in which `got` identifiers are out, `shared` full buckets are on the
global stack and no empty one, and the threads have no full buckets but these numbers of
identifiers and of empty buckets. -/
def Stage (cfg : AddressConfig) (T got shared : Nat) (items empties : Nat → Nat) : Prop :=
  ∃ S P Q cell, Run cfg T S ∧ S.Tracked cfg T P Q cell ∧ S.out.card = got ∧
    P.shared.length = shared ∧ Q.shared = [] ∧
    ∀ s, (P.locals s).items.length = items s ∧ (P.locals s).buckets = [] ∧
      (Q.locals s).items.length = empties s

variable {got shared : Nat} {items empties : Nat → Nat} {t : Nat}

variable (cfg T) in
theorem stage_init : Stage cfg T 0 cfg.nrAaBuckets (fun _ => 0) (fun _ => 0) :=
  ⟨_, _, _, _, .init, tracked_init, rfl, by simp [initialIds], rfl, fun _ => ⟨rfl, rfl, rfl⟩⟩

/-- A thread without identifiers opens a bucket, takes one, and keeps the bucket. -/
theorem Stage.opens (stage : Stage cfg T got (shared + 1) items empties) (ht : t < T)
    (none : items t = 0) (room : empties t < cfg.nrLocalFreeAbuckets) :
    Stage cfg T (got + 1) shared (update items t (cfg.nrLocalAas - 1))
      (update empties t (empties t + 1)) := by
  obtain ⟨S, P, Q, cell, run, ok, card, len, noChain, locals⟩ := stage
  have hi : (P.locals t).items = [] := List.length_eq_zero_iff.mp ((locals t).1.trans none)
  rcases tracked_get ok ht with ⟨_, _, refill, _⟩ |
    ⟨id, rest, S', P1, Q', run', opened, hid, fresh, out, ok', _⟩
  · rw [(BucketPool.refill_none refill).2.2] at len
    cases len
  · cases opened with
    | has ne => exact absurd hi ne
    | opens _ refill =>
        rcases BucketPool.refill_cases refill with ⟨_, ne⟩ |
          ⟨_, b, ⟨buckets, hb, _⟩ | ⟨rest', _, hs, rfl⟩⟩
        · exact absurd hi ne
        · rw [(locals t).2.1] at hb
          cases hb
        · simp only [BucketPool.setLocal_same] at hid ok'
          have full := ok.rep.ledger.full.shared_length b (by simp [hs])
          rw [hid, List.length_cons] at full
          have notFull : (Q.locals t).items.length ≠ cfg.nrLocalFreeAbuckets := by
            rw [(locals t).2.2]
            omega
          have put : BucketPool.put cfg.nrLocalFreeAbuckets 1 t (cell b) Q =
              BucketPool.push t (cell b) Q := by
            simp [BucketPool.put, BucketPool.spill, notFull]
          rw [put] at ok'
          refine ⟨S', _, _, cell, .step (.get t) run ht run', ok', ?_, ?_, noChain, fun s => ?_⟩
          · rw [out, Finset.card_insert_of_notMem fresh, card]
          · rw [hs] at len
            simpa using len
          · by_cases eq : s = t
            · subst eq
              simp only [BucketPool.setLocal_same, update_self, BucketPool.push, List.length_cons,
                (locals s).2.2, and_true]
              omega
            · simp only [BucketPool.push, BucketPool.setLocal_other _ _ eq, update_of_ne eq]
              exact locals s

theorem Stage.pop {m : Nat} (stage : Stage cfg T got shared items empties) (ht : t < T)
    (some : items t = m + 1) :
    Stage cfg T (got + 1) shared (update items t m) empties := by
  obtain ⟨S, P, Q, cell, run, ok, card, len, noChain, locals⟩ := stage
  have count := (locals t).1
  rcases tracked_get ok ht with ⟨_, hi, _⟩ |
    ⟨id, rest, S', P1, Q', run', opened, hid, fresh, out, ok', _⟩
  · rw [hi, some] at count
    cases count
  · cases opened with
    | opens hi =>
        rw [hi, some] at count
        cases count
    | has =>
        rw [hid, some, List.length_cons] at count
        refine ⟨S', _, _, cell, .step (.get t) run ht run', ok', ?_, len, noChain, fun s => ?_⟩
        · rw [out, Finset.card_insert_of_notMem fresh, card]
        · by_cases eq : s = t
          · subst eq
            simp only [BucketPool.setLocal_same, update_self]
            exact ⟨Nat.succ.inj count, (locals s).2⟩
          · rw [BucketPool.setLocal_other _ _ eq, update_of_ne eq]
            exact locals s

theorem Stage.fill {m : Nat} (stage : Stage cfg T (got + 1) shared items empties) (ht : t < T)
    (some : items t = m) (room : m < cfg.nrLocalAas) :
    Stage cfg T got shared (update items t (m + 1)) empties := by
  obtain ⟨S, P, Q, cell, run, ok, card, len, noChain, locals⟩ := stage
  obtain ⟨id, hid⟩ : S.out.Nonempty := Finset.card_pos.mp (by omega)
  have notFull : (P.locals t).items.length ≠ cfg.nrLocalAas := by
    rw [(locals t).1]
    omega
  rcases tracked_put ok ht hid with ⟨_, full, _⟩ | ⟨S', Q', cell', run', out, _, ok', same⟩
  · exact absurd full notFull
  · rw [same notFull] at ok'
    have put : BucketPool.put cfg.nrLocalAas cfg.nrLocalAbuckets t id P =
        BucketPool.push t id P := by
      simp [BucketPool.put, BucketPool.spill, notFull]
    rw [put] at ok'
    refine ⟨S', _, _, cell', .step (.put t id) run ⟨ht, hid⟩ run', ok', ?_, len, noChain,
      fun s => ?_⟩
    · rw [out, Finset.card_erase_of_mem hid, card, Nat.add_sub_cancel]
    · by_cases eq : s = t
      · subst eq
        simp only [BucketPool.push, BucketPool.setLocal_same, update_self, List.length_cons,
          (locals s).1, some, true_and]
        exact (locals s).2
      · simp only [BucketPool.push, BucketPool.setLocal_other _ _ eq, update_of_ne eq]
        exact locals s

theorem Stage.drain (m : Nat) (stage : Stage cfg T got shared items empties) (ht : t < T)
    (count : items t = m) : Stage cfg T (got + m) shared (update items t 0) empties := by
  induction m generalizing got items with
  | zero =>
      rw [← count, update_eq_self]
      rwa [count]
  | succ m ih =>
      have rest := ih (stage.pop ht count) (update_self t m items)
      rwa [update_idem, Nat.add_assoc, Nat.add_comm 1 m] at rest

/-- A thread without identifiers returns as many as it can keep. -/
theorem Stage.refill (m : Nat) (stage : Stage cfg T (got + m) shared items empties) (ht : t < T)
    (none : items t = 0) (room : m ≤ cfg.nrLocalAas) :
    Stage cfg T got shared (update items t m) empties := by
  induction m generalizing got with
  | zero => rwa [← none, update_eq_self]
  | succ m ih =>
      have more : Stage cfg T (got + 1 + m) shared items empties := by
        rwa [Nat.add_assoc, Nat.add_comm 1 m]
      have before := ih more (by omega)
      have after := before.fill (t := t) (m := m) ht (update_self t m items) (by omega)
      rwa [update_idem] at after

/-- Thread 1 takes one bucketful and one identifier more, alone or with thread 2, and
thread 0 gets a bucketful of them back. -/
theorem stage_full (many : 2 ≤ (T - 1) * cfg.nrLocalFreeAbuckets) (buckets : 2 ≤ cfg.nrAaBuckets) :
    ∃ shared items empties, Stage cfg T 1 shared items empties ∧ items 0 = cfg.nrLocalAas ∧
      empties 0 = 0 := by
  have pos := cfg.nrLocalAas_pos
  have posF := cfg.nrLocalFreeAbuckets_pos
  obtain ⟨n, hn⟩ : ∃ n, cfg.nrAaBuckets = n + 2 := ⟨cfg.nrAaBuckets - 2, by omega⟩
  have two : 2 ≤ T := by
    by_contra lt
    have : T - 1 = 0 := by omega
    rw [this, Nat.zero_mul] at many
    omega
  obtain ⟨w, hw, other, room⟩ : ∃ w, w < T ∧ w ≠ 0 ∧
      (w = 1 ∧ 2 ≤ cfg.nrLocalFreeAbuckets ∨ w = 2) := by
    by_cases one : 2 ≤ cfg.nrLocalFreeAbuckets
    · exact ⟨1, by omega, by omega, .inl ⟨rfl, one⟩⟩
    · have f : cfg.nrLocalFreeAbuckets = 1 := by omega
      rw [f, Nat.mul_one] at many
      exact ⟨2, by omega, by omega, .inr rfl⟩
  have stage := stage_init cfg T
  rw [hn] at stage
  have first := (stage.opens (t := 1) (by omega) rfl posF).drain (t := 1) (cfg.nrLocalAas - 1)
    (by omega) (update_self ..)
  have second := first.opens (t := w) hw
    (by rcases room with ⟨rfl, _⟩ | rfl <;> simp)
    (by rcases room with ⟨rfl, h⟩ | rfl <;> simp <;> omega)
  have total : 0 + 1 + (cfg.nrLocalAas - 1) + 1 = 1 + cfg.nrLocalAas := by omega
  rw [total] at second
  refine ⟨_, _, _, second.refill (t := 0) cfg.nrLocalAas (by omega) ?_ le_rfl, update_self .., ?_⟩
  · rw [update_of_ne other.symm, update_of_ne (by decide), update_of_ne (by decide)]
  · rw [update_of_ne other.symm, update_of_ne (by decide)]

/-- Where the others can hoard two buckets, thread 0 can need an empty one and have none. -/
theorem exists_stuck (cfg : AddressConfig) (T : Nat) (many : 2 ≤ (T - 1) * cfg.nrLocalFreeAbuckets)
    (buckets : 2 ≤ cfg.nrAaBuckets) : ∃ S id, Run cfg T S ∧ 0 < T ∧ id ∈ S.out ∧
      (S.pool.threads 0).aasCount = cfg.nrLocalAas ∧ (S.pool.threads 0).freeAbucketsCount = 0 ∧
      S.pool.freeAaBucketsHead = 0 := by
  obtain ⟨_, items, empties, ⟨S, P, Q, cell, run, ok, card, _, noChain, locals⟩, full, none⟩ :=
    stage_full many buckets
  obtain ⟨id, hid⟩ : S.out.Nonempty := Finset.card_pos.mp (by omega)
  have two : 0 < T := by
    by_contra zero
    have : T = 0 := by omega
    subst this
    simp at many
  have head := ok.rep.empty.shared
  rw [noChain] at head
  refine ⟨S, id, run, two, hid, ?_, ?_, head⟩
  · rw [(ok.rep.full.locals 0).aasCount, (locals 0).1, full]
  · rw [(ok.rep.empty.locals 0).count, (locals 0).2.2, none]

/-- Where the others can hoard two buckets, some run has no empty bucket to be found. -/
theorem exists_shortage (cfg : AddressConfig) (T : Nat)
    (many : 2 ≤ (T - 1) * cfg.nrLocalFreeAbuckets)
    (buckets : 2 ≤ cfg.nrAaBuckets) : ∃ S, Run cfg T S ∧ ¬ S.BucketFound cfg T := by
  obtain ⟨S, id, run, pos, hid, full, none, head⟩ := exists_stuck cfg T many buckets
  exact ⟨S, run, fun found => (found 0 id pos hid).1 full none head⟩

end Exchange

/-- `put_free_aa` finds an empty bucket in every run exactly if the other threads can hoard
at most one, or there is only one. -/
theorem bucketFound_iff (cfg : AddressConfig) (T : Nat) :
    (∀ S, Exchange.Run cfg T S → S.BucketFound cfg T) ↔
      (T - 1) * cfg.nrLocalFreeAbuckets ≤ 1 ∨ cfg.nrAaBuckets ≤ 1 := by
  constructor
  · intro all
    by_contra few
    obtain ⟨S, run, lacks⟩ := Exchange.exists_shortage cfg T
      (by omega) (by omega)
    exact lacks (all S run)
  · exact fun few S run => run.bucketFound few

/-- Two buckets of one identifier each, and chains of two empty buckets. -/
def shortageConfig : AddressConfig where
  nrAaBuckets := 2
  nrLocalAas := 1
  nrLocalAbuckets := 1
  nrLocalFreeAbuckets := 2
  nrAaBuckets_pos := Nat.two_pos
  nrLocalAas_pos := Nat.one_pos
  nrLocalAbuckets_pos := Nat.one_pos
  nrLocalFreeAbuckets_pos := Nat.two_pos

/-- Thread 1 takes both identifiers and keeps both buckets; thread 0 returns the first
identifier and has no bucket for it when it returns the second. -/
theorem bucket_not_found :
    ¬ ∀ S, Exchange.Run shortageConfig 2 S → S.BucketFound shortageConfig 2 := by
  intro all
  have one : 1 < 2 := Nat.one_lt_two
  have found := all _ (.step (.put 0 1) (.step (.get 1) (.step (.get 1) .init one rfl) one rfl)
    ⟨Nat.two_pos, by decide +kernel⟩ rfl)
  exact (found 0 0 Nat.two_pos (by decide +kernel)).2 rfl

end
end CompactFit
