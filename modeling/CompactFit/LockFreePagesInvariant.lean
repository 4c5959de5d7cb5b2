import CompactFit.LockFreePages

/-!
What the words of the shared pool mean: the heads of the shared buckets are the elements of
the lock-free stack, and the lists of a thread hold what the bucketed pool says, except that
a thread that puts its buckets has made its pages one of them already.
-/

namespace CompactFit
open Function NbStack LinkedChain BucketPool

namespace LockFreePages

/-- The address of a bucket is that of its first page. -/
def bucketElem (b : List Elem) : Elem := b.headD 0

/-- The lists of a thread once its pages are a bucket. -/
def closed (l : Local Elem) : Local Elem := { items := [], buckets := l.items :: l.buckets }

/-- The lists of a thread as they are in memory. -/
def inMemory (l : Local Elem) : PoolCall → Local Elem
  | .adding _ => closed l
  | _ => l

theorem inMemory_elems (l : Local Elem) (c : PoolCall) : (inMemory l c).elems = l.elems := by
  cases c <;> rfl

/-- The words of a thread and the second words of the pages spell the lists `l`. -/
structure Lists (link : Elem → Elem) (d : PoolData) (l : Local Elem) : Prop where
  pagesCount : d.pagesCount = l.items.length
  pages : Chain link d.pages l.items 0
  pbucketsCount : d.pbucketsCount = l.buckets.length
  lastPbucket : ∀ bs b, l.buckets = bs ++ [b] → d.lastPbucket = bucketElem b
  bucket : ∀ b, b ∈ l.buckets → Chain link (bucketElem b) b 0

theorem Lists.congr {link link' : Elem → Elem} {d : PoolData} {l : Local Elem}
    (ok : Lists link d l) (same : ∀ x, x ∈ l.elems → link' x = link x) : Lists link' d l where
  pagesCount := ok.pagesCount
  pages := chain_congr (fun x mem => same x (List.mem_append_left _ mem)) ok.pages
  pbucketsCount := ok.pbucketsCount
  lastPbucket := ok.lastPbucket
  bucket b mem := chain_congr (fun x here =>
    same x (List.mem_append_right _ (List.mem_flatten.mpr ⟨b, mem, here⟩))) (ok.bucket b mem)

/-- What holds of a thread with the lists `l` during each call. -/
def CallOk (cfg : Config) (S : LockFreePages) (t : Nat) (l : Local Elem) : PoolCall → Prop
  | .idle => S.stack.locals (some t) = .idle ∧
      ∃ e, Chain S.stack.memory.next (S.threads t).pbuckets (l.buckets.map bucketElem) e
  | .getting => (S.stack.locals (some t)).InGet ∧ l.items = [] ∧ l.buckets = []
  | .adding p => (S.stack.locals (some t)).InPut ∧
      S.stack.chain (some t) = (closed l).buckets.map bucketElem ∧
      l.items.length = cfg.nrLocalPages ∧ cfg.nrLocalPbuckets ≤ l.buckets.length + 1 ∧
      p ∈ S.out

structure ThreadOk (cfg : Config) (S : LockFreePages) (t : Nat) (l : Local Elem) : Prop where
  held : ∀ x, x ∈ S.stack.held (some t) ↔ x ∈ (inMemory l (S.calls t)).buckets.map bucketElem
  lists : Lists S.localPages (S.threads t) (inMemory l (S.calls t))
  call : CallOk cfg S t l (S.calls t)

/-- A page is in the pool or handed out, and its flag tells which. -/
structure Places (cfg : Config) (S : LockFreePages) (P : Pool Nat Elem) : Prop where
  mem_iff : ∀ p, p ∈ pageElems cfg ↔ P.Holds p ∨ p ∈ S.out
  apart : ∀ p, P.Holds p → p ∉ S.out
  free : ∀ p, P.Holds p → S.listFlags p = .free
  out : ∀ p, p ∈ S.out → S.listFlags p = .none

/-- No two threads return one page. -/
def Single (calls : Nat → PoolCall) : Prop :=
  ∀ t u p, calls t = .adding p → calls u = .adding p → t = u

theorem Single.update {t : Nat} {calls : Nat → PoolCall} {c : PoolCall} (single : Single calls)
    (fresh : ∀ p, c = .adding p → ∀ u, calls u ≠ .adding p) : Single (update calls t c) := by
  intro u v p hu hv
  by_cases atU : u = t <;> by_cases atV : v = t
  · exact atU.trans atV.symm
  · rw [atU, update_self] at hu
    rw [update_of_ne atV] at hv
    exact absurd hv (fresh p hu v)
  · rw [atV, update_self] at hv
    rw [update_of_ne atU] at hu
    exact absurd hu (fresh p hv u)
  · rw [update_of_ne atU] at hu
    rw [update_of_ne atV] at hv
    exact single u v p hu hv

structure Tracked (cfg : Config) (T : Nat) (S : LockFreePages) (P : Pool Nat Elem) : Prop where
  stack : Refines pageLayout (pageElems cfg) S.stack ⟨P.shared.map bucketElem, S.stack.held⟩
  owner : S.stack.locals none = .idle
  wellFormed : WellFormed cfg.nrLocalPages P
  threads : ∀ t, ThreadOk cfg S t (P.locals t)
  shared : ∀ b, b ∈ P.shared → Chain S.localPages (bucketElem b) b 0
  places : Places cfg S P
  single : Single S.calls
  idle : ∀ t, T ≤ t → S.calls t = .idle

/-- A step of another thread leaves the words of `t` alone. -/
structure Still (S S' : LockFreePages) (t : Nat) : Prop where
  call : S'.calls t = S.calls t
  data : S'.threads t = S.threads t
  place : S'.stack.locals (some t) = S.stack.locals (some t)
  chain : S'.stack.chain (some t) = S.stack.chain (some t)
  held : S'.stack.held (some t) = S.stack.held (some t)
  next : ∀ x, x ∈ S.stack.held (some t) → S'.stack.memory.next x = S.stack.memory.next x
  out : ∀ p, S.calls t = .adding p → p ∈ S.out → p ∈ S'.out

section Frames
variable {cfg : Config} {T t : Nat} {S S' : LockFreePages} {P P' : Pool Nat Elem} {l : Local Elem}

theorem ThreadOk.still (ok : ThreadOk cfg S t l) (still : Still S S' t)
    (links : ∀ x, x ∈ l.elems → S'.localPages x = S.localPages x) : ThreadOk cfg S' t l where
  held x := by
    rw [still.held, still.call]
    exact ok.held x
  lists := by
    rw [still.call, still.data]
    exact ok.lists.congr fun x mem => links x (inMemory_elems l _ ▸ mem)
  call := by
    have call := ok.call
    have held := ok.held
    rw [still.call]
    cases eq : S.calls t with
    | idle =>
        rw [eq] at call held
        obtain ⟨place, e, chain⟩ := call
        refine ⟨still.place.trans place, e, ?_⟩
        rw [still.data]
        exact chain_congr (fun x mem => still.next x ((held x).mpr mem)) chain
    | getting =>
        rw [eq] at call
        exact ⟨still.place ▸ call.1, call.2⟩
    | adding p =>
        rw [eq] at call
        obtain ⟨place, chain, full, enough, out⟩ := call
        exact ⟨still.place ▸ place, still.chain.trans chain, full, enough, still.out p eq out⟩

theorem Places.congr (places : Places cfg S P) (holds : ∀ p, P'.Holds p ↔ P.Holds p)
    (out : S'.out = S.out) (flags : S'.listFlags = S.listFlags) : Places cfg S' P' where
  mem_iff p := by rw [holds, out]; exact places.mem_iff p
  apart p held := by rw [out]; exact places.apart p ((holds p).mp held)
  free p held := by rw [flags]; exact places.free p ((holds p).mp held)
  out p mem := by rw [flags]; exact places.out p (out ▸ mem)

end Frames

section Elements
variable {cfg : Config} {T t : Nat} {S : LockFreePages} {P : Pool Nat Elem} {x : Elem}
  {b : List Elem}

theorem bucketElem_mem (full : b.length = cfg.nrLocalPages) : bucketElem b ∈ b := by
  cases b with
  | nil => exact absurd full (Nat.ne_of_lt cfg.nrLocalPages_pos)
  | cons x b => exact List.mem_cons_self

/-- Full buckets without a page in common have different addresses. -/
theorem bucketElems_nodup {bs : List (List Elem)} (full : ∀ b, b ∈ bs → b.length = cfg.nrLocalPages)
    (nodup : bs.flatten.Nodup) : (bs.map bucketElem).Nodup := by
  refine (nodup_of_flatten cfg.nrLocalPages_pos full nodup).map_on fun b hb c hc eq => ?_
  refine eq_of_mem_flatten nodup hb hc (bucketElem_mem (full b hb)) ?_
  rw [eq]
  exact bucketElem_mem (full c hc)

namespace Tracked

/-- The buckets of a thread are full, also the one it has just closed. -/
theorem bucket_length (tracked : Tracked cfg T S P)
    (mem : b ∈ (inMemory (P.locals t) (S.calls t)).buckets) : b.length = cfg.nrLocalPages := by
  have call := (tracked.threads t).call
  cases eq : S.calls t with
  | adding p =>
      rw [eq] at call mem
      rcases List.mem_cons.mp mem with rfl | mem
      · exact call.2.2.1
      · exact tracked.wellFormed.bucket_length t b mem
  | _ =>
      rw [eq] at mem
      exact tracked.wellFormed.bucket_length t b mem

/-- What a thread owns on the stack is in its lists. -/
theorem held_mem (tracked : Tracked cfg T S P) (held : x ∈ S.stack.held (some t)) :
    x ∈ (P.locals t).elems := by
  obtain ⟨b, mem, rfl⟩ := List.mem_map.mp (((tracked.threads t).held x).mp held)
  rw [← inMemory_elems _ (S.calls t)]
  exact List.mem_append_right _
    (List.mem_flatten.mpr ⟨b, mem, bucketElem_mem (tracked.bucket_length mem)⟩)

theorem shared_mem (tracked : Tracked cfg T S P) (mem : x ∈ P.shared.map bucketElem) :
    x ∈ P.shared.flatten := by
  obtain ⟨b, listed, rfl⟩ := List.mem_map.mp mem
  exact List.mem_flatten.mpr
    ⟨b, listed, bucketElem_mem (tracked.wellFormed.shared_length b listed)⟩

/-- A page that is no bucket of the stack or of a thread is the application's. -/
theorem held_none (tracked : Tracked cfg T S P) (page : x ∈ pageElems cfg)
    (shared : x ∉ P.shared.flatten) (threads : ∀ t, x ∉ S.stack.held (some t)) :
    x ∈ S.stack.held none := by
  rcases (tracked.stack.exclusive.placed x).mp page with mem | ⟨_ | t, mem⟩
  · exact absurd (tracked.shared_mem mem) shared
  · exact mem
  · exact absurd mem (threads t)

theorem out_held (tracked : Tracked cfg T S P) (out : x ∈ S.out) : x ∈ S.stack.held none := by
  have away : ¬ P.Holds x := fun held => tracked.places.apart x held out
  exact tracked.held_none ((tracked.places.mem_iff x).mpr (.inr out))
    (fun mem => away (.inr mem)) fun t held => away (.inl ⟨t, tracked.held_mem held⟩)

/-- A page of a thread, outside its buckets. -/
theorem item_held (tracked : Tracked cfg T S P) (quiet : ∀ p, S.calls t ≠ .adding p)
    (mem : x ∈ (P.locals t).items) : x ∈ S.stack.held none := by
  have wf := tracked.wellFormed
  have mine : x ∈ (P.locals t).elems := List.mem_append_left _ mem
  refine tracked.held_none ((tracked.places.mem_iff x).mpr (.inl (.inl ⟨t, mine⟩)))
    (wf.apart_shared t x mine) fun u held => ?_
  by_cases same : u = t
  · subst same
    obtain ⟨b, inB, rfl⟩ := List.mem_map.mp (((tracked.threads u).held x).mp held)
    have full := tracked.bucket_length inB
    have listed : b ∈ (P.locals u).buckets := by
      cases eq : S.calls u with
      | adding p => exact absurd eq (quiet p)
      | _ =>
          rw [eq] at inB
          exact inB
    exact not_mem_bucket wf mem (.inl ⟨u, listed⟩) (bucketElem_mem full)
  · exact wf.apart_local t u (Ne.symm same) x mine (tracked.held_mem held)

theorem usable (tracked : Tracked cfg T S P) (holds : P.Holds x) : x ≠ 0 :=
  (tracked.stack.usable x ((tracked.places.mem_iff x).mpr (.inl holds))).1

end Tracked
end Elements
end LockFreePages
end CompactFit
