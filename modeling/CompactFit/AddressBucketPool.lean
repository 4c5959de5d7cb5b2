import CompactFit.AddressBucketLaws
import Mathlib.Algebra.Order.BigOperators.Group.List
import Mathlib.Algebra.Order.Group.Nat
import Mathlib.Data.Nat.Cast.Basic
import Mathlib.Order.Interval.Finset.Nat

/-!
The bucketed pool of abstract addresses is a lawful address pool. After `cf_init` all
identifiers are in full buckets on the global stack, and an empty bucket is missing
only when the other threads hold at least two.
-/

namespace CompactFit
open Function LinkedChain

namespace AddressBuckets

/-! ### Counting the empty buckets -/

section Shortage
variable {cfg : AddressConfig} {T t : Nat} {P Q : Ids} {cell : List Nat → Nat}

theorem Ledger.bucket_mem (ledger : Ledger cfg T P Q cell) {ts : List Nat}
    (all : ∀ s, s < T → s ∈ ts) {b : List Nat} (hb : P.IsBucket b) : b ∈ P.bucketsOf ts := by
  rcases hb with ⟨s, mem⟩ | mem
  · refine List.mem_append_left _ (List.mem_flatMap.mpr ⟨s, all s ?_, mem⟩)
    by_contra ge
    have len := ledger.full.bucket_length s b mem
    have elems := (ledger.idle s (by omega)).1
    rw [BucketPool.Local.elems, List.append_eq_nil_iff, List.flatten_eq_nil_iff] at elems
    rw [elems.2 b mem] at len
    exact absurd len (Nat.ne_of_lt cfg.nrLocalAas_pos)
  · exact List.mem_append_right _ mem

theorem Ledger.empty_mem (ledger : Ledger cfg T P Q cell) {ts : List Nat}
    (all : ∀ s, s < T → s ∈ ts) {m : Nat} (held : Q.Holds m) : m ∈ Q.heldBy ts := by
  rcases held with ⟨s, mem⟩ | mem
  · refine List.mem_append_left _ (List.mem_flatMap.mpr ⟨s, all s ?_, mem⟩)
    by_contra ge
    rw [(ledger.idle s (by omega)).2] at mem
    cases mem
  · exact List.mem_append_right _ mem

/-- The identifiers in the pool are fewer than the table has. -/
theorem Ledger.length_ids (ledger : Ledger cfg T P Q cell) {ts : List Nat} (nodup : ts.Nodup)
    {id : Nat} (fresh : ¬ P.Holds id) (lt : id < cfg.nrAas) :
    (ts.map fun s => (P.locals s).items.length).sum + (P.bucketsOf ts).length * cfg.nrLocalAas + 1 ≤
      cfg.nrAaBuckets * cfg.nrLocalAas := by
  have few : (P.heldBy ts).length ≤ cfg.nrAas - 1 := by
    rw [← List.toFinset_card_of_nodup (BucketPool.heldBy_nodup ledger.full nodup)]
    refine (Finset.card_le_card (t := (Finset.range cfg.nrAas).erase id) fun a ha => ?_).trans
      (by rw [Finset.card_erase_of_mem (Finset.mem_range.mpr lt), Finset.card_range])
    have held := BucketPool.heldBy_holds (List.mem_toFinset.mp ha)
    exact Finset.mem_erase.mpr ⟨fun eq => fresh (eq ▸ held),
      Finset.mem_range.mpr (ledger.held a held)⟩
  rw [BucketPool.length_heldBy ledger.full] at few
  simp only [AddressConfig.nrAas] at few lt
  omega

theorem Ledger.le_buckets (ledger : Ledger cfg T P Q cell) {ts : List Nat}
    (all : ∀ s, s < T → s ∈ ts) :
    cfg.nrAaBuckets ≤ (P.bucketsOf ts).length + (Q.heldBy ts).length := by
  calc cfg.nrAaBuckets = (Finset.Icc 1 cfg.nrAaBuckets).card := by simp
    _ ≤ (((P.bucketsOf ts).map cell).toFinset ∪ (Q.heldBy ts).toFinset).card := by
        refine Finset.card_le_card fun m hm => ?_
        obtain ⟨pos, le⟩ := Finset.mem_Icc.mp hm
        rw [Finset.mem_union, List.mem_toFinset, List.mem_toFinset]
        rcases ledger.complete m pos le with held | ⟨b, hb, rfl⟩
        · exact .inr (ledger.empty_mem all held)
        · exact .inl (List.mem_map_of_mem (ledger.bucket_mem all hb))
    _ ≤ _ := (Finset.card_union_le _ _).trans (Nat.add_le_add
        ((List.toFinset_card_le _).trans (by rw [List.length_map])) (List.toFinset_card_le _))

/-- A thread that needs an empty bucket and finds none leaves two of them with the others. -/
theorem Ledger.shortage (ledger : Ledger cfg T P Q cell) (ht : t < T) {id : Nat}
    (fresh : ¬ P.Holds id) (lt : id < cfg.nrAas)
    (full : (P.locals t).items.length = cfg.nrLocalAas) (none : (Q.locals t).items = [])
    (shared : Q.shared = []) (noBuckets : ∀ s, (Q.locals s).buckets = []) :
    2 ≤ (T - 1) * cfg.nrLocalFreeAbuckets ∧ 2 ≤ cfg.nrAaBuckets := by
  generalize hr : (List.range T).erase t = rest
  have nodup : (t :: rest).Nodup := by
    rw [← hr]
    exact List.nodup_cons.mpr ⟨List.nodup_range.not_mem_erase, List.nodup_range.erase t⟩
  have all : ∀ s, s < T → s ∈ t :: rest := by
    intro s hs
    by_cases eq : s = t
    · exact eq ▸ List.mem_cons_self
    · rw [← hr]
      exact List.mem_cons_of_mem _ ((List.mem_erase_of_ne eq).mpr (List.mem_range.mpr hs))
  have others : rest.length = T - 1 := by
    rw [← hr, List.length_erase_of_mem (List.mem_range.mpr ht), List.length_range]
  have ids := ledger.length_ids nodup fresh lt
  rw [List.map_cons, List.sum_cons, full] at ids
  have filled : (P.bucketsOf (t :: rest)).length + 1 < cfg.nrAaBuckets := by
    refine Nat.lt_of_mul_lt_mul_right (a := cfg.nrLocalAas) ?_
    rw [Nat.succ_mul]
    omega
  -- every other bucket is empty, and in the hands of the other threads
  have cover := ledger.le_buckets all
  have empty : (Q.heldBy (t :: rest)).length ≤ (T - 1) * cfg.nrLocalFreeAbuckets := by
    have noBucket : Q.bucketsOf (t :: rest) = [] := by
      simp [BucketPool.Pool.bucketsOf, noBuckets, shared]
    rw [BucketPool.length_heldBy ledger.empty, noBucket, List.map_cons, List.sum_cons, none,
      ← others]
    have few := List.sum_le_card_nsmul (rest.map fun s => (Q.locals s).items.length)
      cfg.nrLocalFreeAbuckets (fun x hx => by
        obtain ⟨s, _, rfl⟩ := List.mem_map.mp hx
        exact ledger.empty.items_le s)
    simpa [Nat.cast_id] using few
  omega

end Shortage

/-! ### The state after `cf_init` -/

section Init
variable (cfg : AddressConfig)

def bucketIds (b : Nat) : List Nat :=
  (List.range cfg.nrLocalAas).reverse.map (b * cfg.nrLocalAas + ·)

def initialIds : Ids :=
  { locals := fun _ => { items := [], buckets := [] }
    shared := (List.range cfg.nrAaBuckets).reverse.map (bucketIds cfg) }

def noIds : Ids := { locals := fun _ => { items := [], buckets := [] }, shared := [] }

/-- The bucket that `init_free_aa_list` fills with the identifiers of a list. -/
def homeCell (b : List Nat) : Nat := b.headD 0 / cfg.nrLocalAas + 1

theorem bucketIds_cell (b : Nat) : homeCell cfg (bucketIds cfg b) = b + 1 := by
  have pos := cfg.nrLocalAas_pos
  obtain ⟨n, hn⟩ : ∃ n, cfg.nrLocalAas = n + 1 := ⟨cfg.nrLocalAas - 1, by omega⟩
  have first : (bucketIds cfg b).headD 0 = b * cfg.nrLocalAas + n := by
    simp [bucketIds, hn, List.range_succ]
  rw [homeCell, first, Nat.mul_comm, Nat.mul_add_div pos, Nat.div_eq_of_lt (by omega)]

theorem flatten_bucketIds (n : Nat) :
    ((List.range n).reverse.map (bucketIds cfg)).flatten =
      (List.range (n * cfg.nrLocalAas)).reverse := by
  induction n with
  | zero => simp
  | succ n ih =>
      rw [List.range_succ, List.reverse_append, List.reverse_singleton, List.singleton_append,
        List.map_cons, List.flatten_cons, ih, Nat.succ_mul, List.range_add, List.reverse_append,
        bucketIds, List.map_reverse]

theorem initialIds_holds (id : Nat) : (initialIds cfg).Holds id ↔ id < cfg.nrAas := by
  have shared : id ∈ (initialIds cfg).shared.flatten ↔ id < cfg.nrAas := by
    rw [initialIds, flatten_bucketIds, List.mem_reverse, List.mem_range]
    rfl
  rw [← shared, BucketPool.Pool.Holds]
  refine or_iff_right_of_imp ?_
  rintro ⟨t, mem⟩
  simp [initialIds, BucketPool.Local.elems] at mem

theorem initialIds_bucket (b : List Nat) :
    (initialIds cfg).IsBucket b ↔ ∃ n, n < cfg.nrAaBuckets ∧ b = bucketIds cfg n := by
  simp only [BucketPool.Pool.IsBucket, initialIds, List.not_mem_nil, exists_const, false_or,
    List.mem_map, List.mem_reverse, List.mem_range]
  exact exists_congr fun n => and_congr_right fun _ => eq_comm

theorem wellFormed_initialIds : BucketPool.WellFormed cfg.nrLocalAas (initialIds cfg) := by
  refine BucketPool.wellFormed_of_shared (fun _ => ⟨rfl, rfl⟩) (fun b mem => ?_) ?_
  · obtain ⟨n, _, rfl⟩ := (initialIds_bucket cfg b).mp (.inr mem)
    simp [bucketIds]
  · rw [initialIds, flatten_bucketIds]
    exact List.nodup_reverse.mpr List.nodup_range

theorem noIds_holds (m : Nat) : ¬ noIds.Holds m := by
  rintro (⟨t, mem⟩ | mem) <;> simp [noIds, BucketPool.Local.elems] at mem

theorem ledger_init (T : Nat) : Ledger cfg T (initialIds cfg) noIds (homeCell cfg) := by
  have buckets := initialIds_bucket cfg
  refine ⟨wellFormed_initialIds cfg, BucketPool.wellFormed_of_shared (fun _ => ⟨rfl, rfl⟩)
    (fun _ mem => (by cases mem)) List.nodup_nil, fun t _ => ⟨rfl, rfl⟩,
    fun id => (initialIds_holds cfg id).mp, fun b hb => ?_,
    fun m held => absurd held (noIds_holds m), fun b _ => noIds_holds _,
    fun b c hb hc eq => ?_, fun m pos le => ?_⟩
  · obtain ⟨n, lt, rfl⟩ := (buckets b).mp hb
    rw [bucketIds_cell]
    omega
  · obtain ⟨n, _, rfl⟩ := (buckets b).mp hb
    obtain ⟨k, _, rfl⟩ := (buckets c).mp hc
    rw [bucketIds_cell, bucketIds_cell] at eq
    rw [Nat.succ.inj eq]
  · refine .inr ⟨bucketIds cfg (m - 1), (buckets _).mpr ⟨m - 1, by omega, rfl⟩, ?_⟩
    rw [bucketIds_cell]
    omega

/-- What the loop of `init_free_aa_list` leaves for the counter values below `i`. -/
structure Filled (cfg : AddressConfig) (i : Nat) (σ : AddressBuckets) : Prop where
  links : ∀ x, x < i → x % cfg.nrLocalAas ≠ 0 → σ.aaSpace x = x - 1
  firsts : ∀ b, b < (i - 1) / cfg.nrLocalAas →
    σ.localOf (b + 1) = b * cfg.nrLocalAas + (cfg.nrLocalAas - 1)
  chain : Chain σ.nextOf σ.freeAaHead
    ((List.range ((i - 1) / cfg.nrLocalAas)).reverse.map (· + 1)) 0
  noEmpty : σ.freeAaBucketsHead = 0
  threads : ∀ t, σ.threads t =
    { aasCount := 0, aas := 0, abucketsCount := 0, abuckets := 0, lastAbucket := 0,
      freeAbucketsCount := 0, freeAbuckets := 0 }

/-- Between two multiples the quotient stays. -/
theorem pred_div {i n : Nat} (hn : 0 < n) (h : i % n ≠ 0) : (i - 1) / n = i / n := by
  have split := Nat.div_add_mod i n
  have lt := Nat.mod_lt i hn
  refine Nat.div_eq_of_lt_le ?_ ?_
  · rw [Nat.mul_comm]
    omega
  · rw [Nat.succ_mul, Nat.mul_comm]
    omega

theorem filled_link {cfg : AddressConfig} {i : Nat} {σ : AddressBuckets} (pos : 0 < i)
    (ok : Filled cfg i σ) (h : i % cfg.nrLocalAas ≠ 0) :
    Filled cfg (i + 1) (σ.setWord i (i - 1)) := by
  have same := pred_div cfg.nrLocalAas_pos h
  refine ⟨fun x lt hx => ?_, ?_, ?_, ok.noEmpty, ok.threads⟩
  · by_cases eq : x = i
    · subst eq
      simp [setWord]
    · simp only [setWord, ne_eq, eq, not_false_eq_true, update_of_ne]
      exact ok.links x (by omega) hx
  · rw [Nat.add_sub_cancel, ← same]
    exact ok.firsts
  · rw [Nat.add_sub_cancel, ← same]
    exact ok.chain

theorem filled_bucket {cfg : AddressConfig} {i : Nat} {σ : AddressBuckets} (pos : 0 < i)
    (ok : Filled cfg i σ) (h : i % cfg.nrLocalAas = 0) {b : Nat}
    (hb : b = (i - 1) / cfg.nrLocalAas + 1) :
    Filled cfg (i + 1) (aaPut b b (σ.modifyBucket b fun m => { m with localWord := i - 1 })) := by
  have posN := cfg.nrLocalAas_pos
  obtain ⟨q, hq⟩ := Nat.dvd_of_mod_eq_zero h
  have posQ : 0 < q := Nat.pos_of_ne_zero (by rintro rfl; omega)
  obtain ⟨p, rfl⟩ : ∃ p, q = p + 1 := ⟨q - 1, by omega⟩
  have value : i - 1 = p * cfg.nrLocalAas + (cfg.nrLocalAas - 1) := by
    rw [hq, Nat.mul_succ, Nat.mul_comm]
    omega
  have before : (i - 1) / cfg.nrLocalAas = p := by
    rw [value, Nat.mul_comm, Nat.mul_add_div posN, Nat.div_eq_of_lt (by omega), Nat.add_zero]
  have after : i / cfg.nrLocalAas = p + 1 := by
    rw [hq, Nat.mul_div_cancel_left _ posN]
  rw [before] at hb
  subst hb
  refine ⟨fun x lt hx => ?_, fun c lt => ?_, ?_, ok.noEmpty, ok.threads⟩
  · exact ok.links x (by have : x ≠ i := by rintro rfl; exact hx h
                         omega) hx
  · rw [Nat.add_sub_cancel, after] at lt
    by_cases eq : c = p
    · subst eq
      simpa [localOf, aaPut] using value
    · have ne : c + 1 ≠ p + 1 := by omega
      have old := ok.firsts c (by omega)
      simpa [localOf, aaPut, ne, eq] using old
  · rw [Nat.add_sub_cancel, after, List.range_succ, List.reverse_append, List.reverse_singleton,
      List.singleton_append, List.map_cons]
    refine ⟨rfl, ?_⟩
    have old := ok.chain
    rw [before] at old
    have link : nextOf (aaPut (p + 1) (p + 1)
        (σ.modifyBucket (p + 1) fun m => { m with localWord := i - 1 })) (p + 1) =
        σ.freeAaHead := by
      simp [nextOf, aaPut]
    rw [link]
    refine chain_congr (fun x hx => ?_) old
    simp only [List.mem_map, List.mem_reverse, List.mem_range] at hx
    obtain ⟨c, lt, rfl⟩ := hx
    have ne : c ≠ p := by omega
    simp [nextOf, aaPut, ne]

theorem filled_loop {cfg : AddressConfig} (n : Nat) {i : Nat} {σ : AddressBuckets} (pos : 0 < i)
    (ok : Filled cfg i σ) : Filled cfg (i + n) (initFreeAaLoop cfg n i σ) := by
  induction n generalizing i σ with
  | zero => exact ok
  | succ n ih =>
      rw [initFreeAaLoop, show i + (n + 1) = i + 1 + n by omega]
      split
      next h => exact ih (by omega) (filled_link pos ok h)
      next h => exact ih (by omega) (filled_bucket pos ok (not_not.mp h) rfl)

theorem filled_init : Filled cfg (1 + cfg.nrAas) (initFreeAaList cfg) := by
  refine filled_loop cfg.nrAas Nat.one_pos ⟨fun x lt h => ?_, fun b lt => ?_, ?_, rfl,
    fun _ => rfl⟩
  · have : x = 0 := by omega
    subst this
    exact absurd (Nat.zero_mod _) h
  · simp at lt
  · simp

theorem chain_bucketIds {σ : AddressBuckets} (ok : Filled cfg (1 + cfg.nrAas) σ) {b : Nat}
    (hb : b < cfg.nrAaBuckets) (n : Nat) (hn : n < cfg.nrLocalAas) :
    ∃ e, Chain σ.aaSpace (b * cfg.nrLocalAas + n)
      ((List.range (n + 1)).reverse.map (b * cfg.nrLocalAas + ·)) e := by
  induction n with
  | zero => exact ⟨_, rfl, rfl⟩
  | succ n ih =>
      rw [List.range_succ, List.reverse_append, List.reverse_singleton, List.singleton_append,
        List.map_cons]
      obtain ⟨e, chain⟩ := ih (by omega)
      refine ⟨e, rfl, ?_⟩
      have mod : (b * cfg.nrLocalAas + (n + 1)) % cfg.nrLocalAas = n + 1 := by
        rw [Nat.mul_comm, Nat.mul_add_mod, Nat.mod_eq_of_lt hn]
      have bound : (b + 1) * cfg.nrLocalAas ≤ cfg.nrAas := Nat.mul_le_mul_right _ hb
      rw [Nat.succ_mul] at bound
      rw [ok.links _ (by omega) (by omega), Nat.add_succ, Nat.succ_sub_one]
      exact chain

theorem rep_init (T : Nat) :
    Rep cfg T (initFreeAaList cfg) (initialIds cfg) noIds (homeCell cfg) := by
  have ok := filled_init cfg
  have quotient : (1 + cfg.nrAas - 1) / cfg.nrLocalAas = cfg.nrAaBuckets := by
    rw [Nat.add_sub_cancel_left, AddressConfig.nrAas, Nat.mul_div_cancel _ cfg.nrLocalAas_pos]
  refine ⟨ledger_init cfg T, ⟨fun t => ?_, ?_, fun b hb => ?_⟩, ⟨fun t => ?_, ?_, ?_⟩⟩
  · rw [ok.threads t]
    exact ⟨rfl, ⟨_, rfl⟩, rfl, ⟨_, rfl⟩, fun bs b eq => by simp [initialIds] at eq⟩
  · have chain := ok.chain
    rw [quotient] at chain
    simp only [initialIds, List.map_map]
    rwa [show homeCell cfg ∘ bucketIds cfg = (· + 1) from funext (bucketIds_cell cfg)]
  · obtain ⟨n, lt, rfl⟩ := (initialIds_bucket cfg b).mp hb
    have pos := cfg.nrLocalAas_pos
    have chain := chain_bucketIds cfg ok lt (cfg.nrLocalAas - 1) (by omega)
    rw [Nat.sub_add_cancel pos] at chain
    rw [bucketIds_cell, ok.firsts n (by rw [quotient]; exact lt)]
    exact chain
  · rw [ok.threads t]
    exact ⟨rfl, ⟨_, rfl⟩, rfl⟩
  · rw [ok.noEmpty]
    rfl
  · intro b mem
    cases mem

end Init

/-! ### The laws -/

/-- A table word of an identifier that is out is nobody's link. -/
theorem Rep.setWord {cfg : AddressConfig} {T : Nat} {σ : AddressBuckets} {P Q : Ids}
    {cell : List Nat → Nat} (rep : Rep cfg T σ P Q cell) {id : Nat} (out : ¬ P.Holds id) (w : Nat) :
    Rep cfg T (σ.setWord id w) P Q cell := by
  refine ⟨rep.ledger, rep.full.congr (fun a held => ?_) (fun _ _ => rfl) rfl
    (fun _ => ⟨rfl, rfl, rfl, rfl, rfl⟩), rep.empty.congr cfg.nrLocalFreeAbuckets_pos
    rep.ledger.empty (fun _ _ => rfl) rfl fun _ => ⟨rfl, rfl⟩⟩
  have ne : a ≠ id := fun eq => out (eq ▸ held)
  simp [AddressBuckets.setWord, ne]

instance : LawfulAddressPool AddressBuckets where
  Valid cfg T out σ := ∃ P Q cell, Rep cfg T σ P Q cell ∧
    (∀ id, id < cfg.nrAas → (P.Holds id ↔ ¬ out id)) ∧ ∀ id, out id → id < cfg.nrAas
  Robust cfg T := (T - 1) * cfg.nrLocalFreeAbuckets ≤ 1 ∨ cfg.nrAaBuckets ≤ 1
  valid_lt := fun ⟨_, _, _, _, _, bound⟩ held => bound _ held
  valid_congr := by
    rintro cfg T out out' σ ⟨P, Q, cell, rep, free, bound⟩ same
    exact ⟨P, Q, cell, rep, fun id lt => (free id lt).trans (not_congr (same id).symm),
      fun id held => bound id ((same id).mp held)⟩
  valid_setWord := by
    rintro cfg T out σ id w ⟨P, Q, cell, rep, free, bound⟩ held
    have notHeld : ¬ P.Holds id := fun h => (free id (bound id held)).mp h held
    exact ⟨P, Q, cell, rep.setWord notHeld w, free, bound⟩
  word_setWord_same := by
    intro σ id w
    exact update_self id w σ.aaSpace
  word_setWord_other := by
    intro σ id id' w ne
    exact update_of_ne ne w σ.aaSpace
  getFreeAa_spec := by
    rintro cfg T out t σ ⟨P, Q, cell, rep, free, bound⟩ ht
    rcases getFreeAa_rep rep ht with ⟨run, _⟩ |
      ⟨id, items, σ', P1, Q', run, _, _, held, holds, rep', space⟩
    · exact .inl run
    · have lt := rep.ledger.held id held
      refine .inr ⟨id, σ', run, (free id lt).mp held, lt, ⟨_, Q', cell, rep', fun a ha => ?_, ?_⟩,
        fun a _ => congrFun space a⟩
      · rw [holds a, free a ha, not_or]
      · rintro a (ha | rfl)
        · exact bound a ha
        · exact lt
  putFreeAa_spec := by
    rintro cfg T out t id σ ⟨P, Q, cell, rep, free, bound⟩ ht held
    have lt := bound id held
    have fresh : ¬ P.Holds id := fun h => (free id lt).mp h held
    rcases putFreeAa_rep rep ht fresh lt with ⟨run, full, none, shared⟩ |
      ⟨σ', Q', cell', run, rep', words, _⟩
    · refine .inl ⟨run, ?_⟩
      have := rep.ledger.shortage ht fresh lt full none shared
        (fun s => (rep.empty.locals s).noBuckets)
      omega
    · obtain ⟨_, holds⟩ := BucketPool.put_spec cfg.nrLocalAbuckets cfg.nrLocalAas_pos
        (t := t) rep.ledger.full fresh
      refine .inr ⟨σ', run, ⟨_, Q', cell', rep', fun a ha => ?_, fun a ha => bound a ha.1⟩,
        fun a _ ne => words a ne⟩
      rw [holds a, free a ha]
      exact ⟨fun h => h.elim (fun h k => h k.1) (fun h k => k.2 h), fun h => by
        by_cases eq : a = id
        · exact .inr eq
        · exact .inl fun k => h ⟨k, eq⟩⟩

theorem valid_init (cfg : AddressConfig) (T : Nat) :
    LawfulAddressPool.Valid cfg T (fun _ => False) (initFreeAaList cfg) :=
  ⟨_, _, _, rep_init cfg T, fun id lt => iff_of_true ((initialIds_holds cfg id).mpr lt) not_false,
    fun _ h => h.elim⟩

end AddressBuckets
end CompactFit
