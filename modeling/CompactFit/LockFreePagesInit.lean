import CompactFit.LockFreePagesAccess

/-!
The pool that `init_free_pages_list` leaves to the threads: all pages, in full buckets on the
lock-free stack.
-/

namespace CompactFit
open Function NbStack LinkedChain BucketPool LifoStack

/-! ### Page addresses as words -/

section PageElem
variable {cfg : Config} {p q : Nat}

theorem toNat_pageElem (hp : cfg.firstPage ≤ p ∧ p < cfg.firstPage + cfg.nrPages) :
    (pageElem p).toNat = pageAddress p := by
  have bounds := pageAddress_bounds hp
  rw [pageElem, BitVec.toNat_ofNat]
  exact Nat.mod_eq_of_lt (by simp only [pageSize] at bounds; omega)

variable (cfg) in
theorem pageElem_inj (hp : cfg.firstPage ≤ p ∧ p < cfg.firstPage + cfg.nrPages)
    (hq : cfg.firstPage ≤ q ∧ q < cfg.firstPage + cfg.nrPages) (eq : pageElem p = pageElem q) :
    p = q := by
  have same := congrArg BitVec.toNat eq
  rw [toNat_pageElem hp, toNat_pageElem hq] at same
  exact pageAddress_inj same

theorem mem_pageElems {x : Elem} : x ∈ pageElems cfg ↔
    ∃ p, (cfg.firstPage ≤ p ∧ p < cfg.firstPage + cfg.nrPages) ∧ pageElem p = x := by
  simp only [pageElems, List.mem_toFinset, List.mem_map, List.mem_range'_1]

/-- A page is neither NULL nor stopped by the assertion of `nb_stack_put`. -/
theorem pageElem_usable (hp : cfg.firstPage ≤ p ∧ p < cfg.firstPage + cfg.nrPages) :
    pageElem p ≠ 0 ∧ aligned pageLayout (pageElem p) = true := by
  have word := toNat_pageElem hp
  have bounds := pageAddress_bounds hp
  refine ⟨fun zero => ?_, aligned_iff.mpr fun i low => ?_⟩
  · rw [zero] at word
    exact absurd word (Nat.ne_of_lt bounds.1)
  · have low : i < 14 := low
    rw [BitVec.getLsbD, word, pageAddress, pageSize]
    rw [show p * 16384 = p <<< 14 from (Nat.shiftLeft_eq p 14).symm, Nat.testBit_shiftLeft]
    simp only [Nat.not_le.mpr low, decide_false, Bool.false_and]

end PageElem

namespace LockFreePages

/-- The loop of `init_free_pages_list` at page number `p`: `bs` are the buckets on the stack
and `cur` the pages linked so far for the next one. -/
private structure Stacking (cfg : Config) (S : LockFreePages) (bs : List (List Elem))
    (cur : List Elem) (p : Nat) (mp : Elem) : Prop where
  stack : Refines pageLayout (pageElems cfg) S.stack ⟨bs.map bucketElem, S.stack.held⟩
  locals : ∀ t, S.stack.locals t = .idle
  held : ∀ t, S.stack.held (some t) = ∅
  bucket : ∀ b, b ∈ bs → b.length = cfg.nrLocalPages ∧ Chain S.localPages (bucketElem b) b 0
  current : Chain S.localPages mp cur 0
  order : cur ++ bs.flatten = (List.range' cfg.firstPage (p - cfg.firstPage)).reverse.map pageElem
  flags : ∀ q, cfg.firstPage ≤ q → q < p → S.listFlags (pageElem q) = .free
  threads : S.threads = (blank cfg).threads
  calls : S.calls = (blank cfg).calls
  out : S.out = ∅

section Loop
variable {cfg : Config} {S : LockFreePages} {bs : List (List Elem)} {cur : List Elem} {p : Nat}
  {mp : Elem}

private theorem Stacking.done (ok : Stacking cfg S bs cur p mp) {x : Elem}
    (mem : x ∈ cur ++ bs.flatten) : ∃ q, (cfg.firstPage ≤ q ∧ q < p) ∧ pageElem q = x := by
  rw [ok.order, List.mem_map] at mem
  obtain ⟨q, mem, eq⟩ := mem
  rw [List.mem_reverse, List.mem_range'_1] at mem
  exact ⟨q, ⟨mem.1, by omega⟩, eq⟩

private theorem Stacking.nodup (ok : Stacking cfg S bs cur p mp)
    (hi : p ≤ cfg.firstPage + cfg.nrPages) : (cur ++ bs.flatten).Nodup := by
  rw [ok.order]
  refine (List.nodup_reverse.mpr List.nodup_range').map_on fun q hq r hr eq => ?_
  rw [List.mem_reverse, List.mem_range'_1] at hq hr
  exact pageElem_inj cfg ⟨hq.1, by omega⟩ ⟨hr.1, by omega⟩ eq

/-- One round links page `p` in front of the open bucket. -/
private theorem Stacking.link (ok : Stacking cfg S bs cur p mp) (lo : cfg.firstPage ≤ p)
    (hi : p < cfg.firstPage + cfg.nrPages) :
    Stacking cfg
      { S with
        listFlags := update S.listFlags (pageElem p) .free
        localPages := update S.localPages (pageElem p) mp }
      bs (pageElem p :: cur) (p + 1) (pageElem p) := by
  have fresh : ∀ x, x ∈ cur ++ bs.flatten →
      update S.localPages (pageElem p) mp x = S.localPages x := by
    intro x mem
    obtain ⟨q, ⟨lo', lt⟩, rfl⟩ := ok.done mem
    refine update_of_ne (fun eq => ?_) _ _
    have same := pageElem_inj cfg ⟨lo', by omega⟩ ⟨lo, hi⟩ eq
    omega
  refine ⟨ok.stack, ok.locals, ok.held, fun b mem => ⟨(ok.bucket b mem).1, ?_⟩, ?_, ?_,
    fun q lo' lt => ?_, ok.threads, ok.calls, ok.out⟩
  · exact chain_congr (fun x here => fresh x (List.mem_append_right _
      (List.mem_flatten.mpr ⟨b, mem, here⟩))) (ok.bucket b mem).2
  · simp only [chain_cons, update_self]
    exact ⟨trivial, chain_congr (fun x mem => fresh x (List.mem_append_left _ mem)) ok.current⟩
  · rw [List.cons_append, ok.order, show p + 1 - cfg.firstPage = p - cfg.firstPage + 1 by omega,
      List.range'_concat, List.reverse_append, show cfg.firstPage + 1 * (p - cfg.firstPage) = p by
        omega]
    rfl
  · by_cases same : q = p
    · simp only [same, update_self]
    · have ne : pageElem q ≠ pageElem p := fun eq =>
        same (pageElem_inj cfg ⟨lo', by omega⟩ ⟨lo, hi⟩ eq)
      have before : q < p := by omega
      simp only [update_of_ne ne]
      exact ok.flags q lo' before

/-- A complete bucket goes onto the stack. -/
private theorem Stacking.push {x : Elem} (ok : Stacking cfg S bs (x :: cur) p x)
    (full : (x :: cur).length = cfg.nrLocalPages) (hi : p ≤ cfg.firstPage + cfg.nrPages) :
    Stacking cfg (S.putAlone x) ((x :: cur) :: bs) [] p 0 := by
  obtain ⟨q, ⟨lo, lt⟩, eq⟩ := ok.done (List.mem_append_left _ List.mem_cons_self)
  have page : x ∈ pageElems cfg := mem_pageElems.mpr ⟨q, ⟨lo, by omega⟩, eq⟩
  have mine : x ∈ S.stack.held none := by
    rcases (ok.stack.exclusive.placed x).mp page with mem | ⟨_ | t, mem⟩
    · obtain ⟨b, hb, eq⟩ := List.mem_map.mp mem
      have inB : x ∈ b := eq ▸ bucketElem_mem (ok.bucket b hb).1
      have inRest : x ∈ bs.flatten := List.mem_flatten.mpr ⟨b, hb, inB⟩
      exact absurd rfl ((List.nodup_append.mp (ok.nodup hi)).2.2 x List.mem_cons_self x inRest)
    · exact mem
    · exact absurd (ok.held t ▸ mem : x ∈ (∅ : Finset Elem)) (Finset.notMem_empty x)
  have fits := (ok.stack.usable x page).2
  have pushed := ok.stack.putAlone mine
  have eq := putAlone_eq (S := S.stack) (t := none) fits
  have held : (S.putAlone x).stack.held = release S.stack.held none [x] :=
    congrArg NbStack.System.held eq
  have locals : (S.putAlone x).stack.locals = update S.stack.locals none .idle :=
    congrArg NbStack.System.locals eq
  refine ⟨?_, fun t => ?_, fun t => ?_, fun b mem => ?_, rfl, ?_, ok.flags, ok.threads, ok.calls,
    ok.out⟩
  · rw [held]
    exact pushed
  · rw [locals]
    by_cases none : t = none
    · rw [none, update_self]
    · rw [update_of_ne none]
      exact ok.locals t
  · rw [held, release_of_ne (Option.some_ne_none t)]
    exact ok.held t
  · rcases List.mem_cons.mp mem with rfl | mem
    · exact ⟨full, ok.current⟩
    · exact ok.bucket b mem
  · exact ok.order

private theorem initFreePagesLoop_stacking (n : Nat) (ok : Stacking cfg S bs cur p mp)
    (lo : cfg.firstPage ≤ p) (last : p + n = cfg.firstPage + cfg.nrPages)
    (open_lt : cur.length < cfg.nrLocalPages) (whole : cfg.nrLocalPages ∣ cur.length + n) :
    ∃ bs', Stacking cfg (initFreePagesLoop cfg n p cur.length mp S) bs' [] (p + n) 0 := by
  induction n generalizing S bs cur p mp with
  | zero =>
      have none : cur = [] := by
        rw [← List.length_eq_zero_iff]
        exact Nat.eq_zero_of_dvd_of_lt whole open_lt
      subst none
      have start : mp = 0 := ok.current
      subst start
      exact ⟨bs, ok⟩
  | succ n ih =>
      have linked := ok.link lo (by omega)
      simp only [initFreePagesLoop, open_lt, if_true]
      rw [show p + (n + 1) = p + 1 + n by omega]
      split
      next full =>
        have pushed := linked.push (by simpa using full) (by omega)
        refine ih pushed (by omega) (by omega) cfg.nrLocalPages_pos ?_
        rw [show cur.length + (n + 1) = n + cfg.nrLocalPages by omega] at whole
        simpa using (Nat.dvd_add_left (Nat.dvd_refl _)).mp whole
      next notFull =>
        refine ih linked (by omega) (by omega) ?_ ?_
        · simp only [List.length_cons]; omega
        · simpa [Nat.add_assoc, Nat.add_comm 1] using whole

end Loop

theorem blank_initial (cfg : Config) : (blank cfg).stack.Initial pageLayout (pageElems cfg) where
  head := rfl
  idle _ := rfl
  updates := rfl
  exclusive := {
    nodup := .nil
    placed := fun x => by
      refine ⟨fun page => .inr ⟨none, page⟩, ?_⟩
      rintro (mem | ⟨_ | t, mem⟩)
      · cases mem
      · exact mem
      · cases mem
    apart := fun _ _ _ => List.not_mem_nil
    single := fun t u x ht hu => by
      cases t with
      | some t => cases ht
      | none =>
          cases u with
          | some u => cases hu
          | none => rfl }
  usable x mem := by
    obtain ⟨p, inHeap, rfl⟩ := mem_pageElems.mp mem
    exact pageElem_usable inHeap

/-- All pages are in the buckets `bs` of the stack, the last page on top. -/
theorem tracked_init (cfg : Config) (T : Nat) : ∃ bs,
    Tracked cfg T (init cfg) { locals := fun _ => { items := [], buckets := [] }, shared := bs } ∧
      bs.flatten = (List.range' cfg.firstPage cfg.nrPages).reverse.map pageElem := by
  have start : Stacking cfg (blank cfg) [] [] cfg.firstPage 0 := by
    refine ⟨.init (blank_initial cfg), fun _ => rfl, fun _ => rfl, fun b mem => ?_, rfl, ?_,
      fun q lo lt => ?_, rfl, rfl, rfl⟩
    · cases mem
    · rw [Nat.sub_self]
      rfl
    · omega
  obtain ⟨bs, ok⟩ := initFreePagesLoop_stacking cfg.nrPages start le_rfl rfl cfg.nrLocalPages_pos
    (by simpa using cfg.nrPages_buckets)
  have eq : init cfg = initFreePagesLoop cfg cfg.nrPages cfg.firstPage 0 0 (blank cfg) := rfl
  have order := ok.order
  have nodup := ok.nodup le_rfl
  rw [List.length_nil, ← eq] at ok
  rw [List.nil_append, Nat.add_sub_cancel_left] at order
  rw [List.nil_append] at nodup
  have calls : ∀ t, (init cfg).calls t = .idle := fun t => congrFun ok.calls t
  let stacked : Pool Nat Elem := { locals := fun _ => { items := [], buckets := [] }, shared := bs }
  have holds : ∀ x, stacked.Holds x ↔ x ∈ bs.flatten := by
    intro x
    simp [stacked, Pool.Holds, Local.elems]
  refine ⟨bs, ⟨ok.stack, ok.locals none, wellFormed_of_shared (fun _ => ⟨rfl, rfl⟩)
    (fun b mem => (ok.bucket b mem).1) nodup, fun t => ?_, fun b mem => (ok.bucket b mem).2,
    ⟨fun x => ?_, fun x _ => ?_, fun x held => ?_, fun x out => ?_⟩, fun t u p adding => ?_,
    fun t _ => calls t⟩, order⟩
  · refine .of_idle (calls t) (fun x => ?_) ?_ (ok.locals _) ⟨_, rfl⟩
    · rw [ok.held t]
      exact iff_of_false (Finset.notMem_empty x) List.not_mem_nil
    · rw [ok.threads]
      exact ⟨rfl, rfl, rfl, fun bs b split => absurd split.symm (by simp),
        fun b mem => absurd mem List.not_mem_nil⟩
  · rw [ok.out, holds, order, mem_pageElems]
    simp
  · rw [ok.out]
    exact Finset.notMem_empty x
  · rw [holds, order, List.mem_map] at held
    obtain ⟨q, mem, rfl⟩ := held
    rw [List.mem_reverse, List.mem_range'_1] at mem
    exact ok.flags q mem.1 mem.2
  · rw [ok.out] at out
    exact absurd out (Finset.notMem_empty x)
  · rw [calls t] at adding
    cases adding

end LockFreePages
end CompactFit
