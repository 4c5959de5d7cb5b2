import CompactFit.LockPageInvariant

/-!
The steps of `cf_malloc` in the build with page locks: the choice of a page, the bit of a block
under the lock of its page, the abstract address, and the return of the object.
-/

namespace CompactFit
namespace LockPage
open Function ByteMemory AddressPool LawfulAddressPool

section
variable {π : Type} [AddressPool π] [LawfulAddressPool π]

section Naming
variable {cfg : Config} {T t c p i : Nat} {out : Nat → Prop} {h h' : Heap π}

/-- What the last step of `cf_malloc` leaves: the page is in the list it belongs to, and the
block has an address that was not out. -/
structure NamedBlock (cfg : Config) (T c p i a : Nat) (out : Nat → Prop) (h h' : Heap π) :
    Prop where
  registered : Registered cfg h'
  page : h'.pages p = { h.pages p with
    listFlags := if (h.pages p).nrUsedPageBlocks = capacity c then .full else .nfull }
  others : ∀ q, q ≠ p → h'.pages q = h.pages q
  memory : ∀ C, C ≠ ⟨p, i⟩ → (h.view cfg).Placed C →
    AgreeOn h.memory h'.memory ((h.view cfg).start C) ((h.view cfg).size C)
  back : (h'.view cfg).back ⟨p, i⟩ = a
  isAa : IsAa cfg a
  fresh : ¬ out a
  word : (h'.view cfg).word a = (h.view cfg).start ⟨p, i⟩
  words : ∀ b, out b → IsAa cfg b → (h'.view cfg).word b = (h.view cfg).word b
  valid : ∀ out' : Nat → Prop, (∀ b, out' b ↔ out b ∨ b = a) →
    Valid cfg.toAddressConfig T (fun id => out' (aaPointer cfg id)) h'.addresses

theorem code_name (size : Nat) (registered : Registered cfg h) (filled : Filled c (h.pages p))
    (placed : (h.view cfg).Placed ⟨p, i⟩) (ht : t < T) (moving : compactionOn cfg)
    (valid : Valid cfg.toAddressConfig T (fun id => out (aaPointer cfg id)) h.addresses)
    (some : (getFreeAa cfg.toAddressConfig t h.addresses).1 ≠ none) :
    ∃ a h', code cfg t h (.mallocName size c p i) = .ok (.mallocUnlock size c (.some a), h') ∧
      NamedBlock cfg T c p i a out h h' := by
  obtain ⟨h1, run1, registered1, quiet, same1, _⟩ :=
    regroupTaken_spec registered filled.sc filled.flag
  rcases getFreeAa_spec valid ht with get | ⟨id, σ, get, fresh, lt, valid, words⟩
  · rw [get] at some
    exact absurd rfl some
  have naming := nameBlock_some (c := c) (p := p) (i := i) moving
    (by rw [quiet.addresses]; exact get) lt
  rw [← aaPointer_id cfg id] at valid
  have isAa := isAa_aaPointer lt
  generalize aaPointer cfg id = a at naming fresh valid isAa
  generalize hg : Heap.setAa cfg a (blockStart p i (blockSize c)) { h1 with addresses := σ } = g
    at naming
  have pagesG : g.pages = h1.pages := by rw [← hg]; rfl
  have memoryG : g.memory = h.memory := by rw [← hg]; exact quiet.memory
  have sc : ∀ q, (g.pages q).sc = (h.pages q).sc := fun q => by
    rw [pagesG]
    exact quiet.sc_eq q
  have listed : (g.pages p).listFlags ≠ .free := by
    rw [pagesG, same1]
    dsimp only
    split <;> simp
  have made : Named cfg c p i a g (g.name cfg c p i a) :=
    name_spec (placed.congr (sc p)) ((sc p).trans filled.sc) listed isAa.bounds.2
  generalize hn : g.name cfg c p i a = h' at naming made
  have pages : h'.pages = h1.pages := made.headers.pages.trans pagesG
  refine ⟨a, h', by simp only [code, run1, ok_bind, naming]; rfl, ?_, by rw [pages, same1],
    fun q hq => by rw [pages, quiet.pages q hq], fun C ne placedC => ?_, made.back, isAa, fresh,
    ?_, fun b hb isAaB => ?_, fun out' after => ?_⟩
  · refine Registered.congr ?_ made.headers
    exact registered1.congr (hg ▸ ⟨rfl, rfl, rfl, rfl, fun _ _ => .refl _ _ _⟩)
  · have scC : (g.view cfg).sc C.page = (h.view cfg).sc C.page := sc C.page
    have agree := made.memory C ne (placedC.congr scC)
    rw [View.start_congr scC, View.size_congr scC, memoryG] at agree
    exact agree
  · rw [Good.word_congr made.addresses, ← hg, Heap.setAa_word_same _ isAa]
    simp only [View.start, View.size, Heap.view, filled.sc]
  · have ne : b ≠ a := fun eq => fresh (eq ▸ hb)
    rw [Good.word_congr made.addresses, ← hg, Heap.setAa_word_other _ isAa ne]
    simp only [Heap.view, isAaB, if_true, Heap.aaWord]
    exact words _ (by rw [isAaB.pointer]; exact hb)
  · rw [show h'.addresses = _ from made.addresses, ← hg]
    exact valid_named isAa valid after

end Naming

namespace Invariant
variable {cfg : Config} {T t p c a : Nat} {S : System π}

theorem call_malloc {size : Nat} (inv : Invariant cfg T S) (ht : t < T)
    (hP : S.places t = .idle) (hc : c < sizeClasses) :
    Invariant cfg T { S with places := update S.places t (.mallocLock size c) } := by
  refine inv.still ht (inv.owner_same (by rw [hP]; rfl)) hc (fun q loose => ?_) (by rw [hP]; rfl)
    (by rw [hP]; exact ⟨rfl, rfl, rfl, rfl⟩) (.none rfl)
  rw [hP] at loose
  cases loose

theorem code_mallocPage {size : Nat} (inv : Invariant cfg T S)
    (hP : S.places t = .mallocPage size c) :
    ∃ r, code cfg t S.heap (.mallocPage size c) = .ok r ∧ Coded cfg T t S r := by
  have ht := inv.not_idle (t := t) (by simp [hP])
  have hc : c < sizeClasses := by
    have header := inv.headers.header t
    rw [hP] at header
    exact header
  have lock : .sizeClass c ∈ (S.places t).locks := by
    rw [hP]
    exact List.mem_singleton_self _
  rcases getNfullPage_step (c := c) t inv.headers.registered with ⟨run, _⟩ |
    ⟨p, h', run, registered, others, memory, addresses, _, _, _, kind⟩
  · refine ⟨(.mallocUnlock size c none, S.heap), by simp only [code, run, ok_bind]; rfl, ?_⟩
    refine inv.read ht ?_ trivial ?_ ?_ ?_ (.none rfl) <;> rw [hP]
    · rfl
    · rfl
    · rfl
    · exact ⟨rfl, rfl, rfl, rfl⟩
  · have chosen : Chosen c (h'.pages p) ∧ (h'.pages p).usedPageBlockBitmap =
          (S.heap.pages p).usedPageBlockBitmap ∧
        (h'.pages p).sourceentries = (S.heap.pages p).sourceentries ∧
        ((S.heap.pages p).listFlags = .free ∨
          (S.heap.pages p).listFlags = .nfull ∧ (S.heap.pages p).sc = c ∧ h' = S.heap) := by
      rcases kind with ⟨free, same⟩ | ⟨nfull, sc, rfl⟩
      · obtain ⟨page, empty, entries⟩ := inv.headers.free_empty free
        rw [same]
        exact ⟨Chosen.of_free page empty entries hc, rfl, rfl, .inl free⟩
      · have page := inv.headers.page_of_class (p := p) (sc ▸ inv.mine lock)
          (by simp [hP, Place.loosens])
        exact ⟨Chosen.of_nfull page nfull sc, rfl, rfl, .inr ⟨nfull, sc, rfl⟩⟩
    obtain ⟨chosen, bitmap, entries, was⟩ := chosen
    refine ⟨(.mallocLockPage size c p, h'), by simp only [code, run, ok_bind]; rfl, ?_⟩
    refine inv.regroup ht lock ?_ registered others ?_ ⟨?_, by simp [chosen.flag]⟩ (.inr rfl)
      (fun q _ loose => by rw [hP] at loose; cases loose) chosen (fun _ _ pin => by cases pin)
      (fun q => ?_) bitmap
      (fun a _ => by rw [memory]) addresses (by rw [hP]; rfl)
      (by rw [hP]; exact ⟨rfl, rfl, rfl, rfl⟩) (.none rfl)
    · exact was.symm.imp_left fun h => h.2.1
    · refine was.symm.imp (fun h => ?_) fun free => ⟨free, chosen.entries⟩
      rw [h.2.2]
    · rcases was with free | ⟨nfull, _⟩
      · simp [free]
      · simp [nfull]
    · rw [hP]
      by_cases hq : q = p
      · rw [hq, entries]
        rfl
      · rw [others q hq]
        rfl

theorem code_mallocBlock {size : Nat} (inv : Invariant cfg T S)
    (hP : S.places t = .mallocBlock size c p) :
    ∃ r, code cfg t S.heap (.mallocBlock size c p) = .ok r ∧ Coded cfg T t S r := by
  have ht := inv.not_idle (t := t) (by simp [hP])
  have chosen : Chosen c (S.heap.pages p) := by
    have header := inv.headers.header t
    rw [hP] at header
    exact header
  have lock : .sizeClass c ∈ (S.places t).locks := by
    rw [hP]
    exact List.mem_cons_self
  have room : (S.heap.pages p).usedPageBlockBitmap.usedBlocks.card < capacity c := by
    rw [← chosen.page.used]
    exact chosen.room
  have hc : c < sizeClasses := chosen.sc ▸ chosen.page.sc_lt
  obtain ⟨i, run, i1024, unused, inside⟩ := getFreePageBlock_ok hc room
  generalize hh : S.heap.modifyPage p (Page.take i) = h' at run
  have same : h'.pages p = (S.heap.pages p).take i := by rw [← hh, Heap.modifyPage_same]
  have others : ∀ q, q ≠ p → h'.pages q = S.heap.pages q :=
    fun q hq => by rw [← hh, Heap.modifyPage_other _ _ hq]
  have entries : ∀ q, (h'.pages q).sourceentries = (S.heap.pages q).sourceentries :=
    field_same Page.sourceentries others (by rw [same]; rfl)
  have sc : ∀ q, (h'.pages q).sc = (S.heap.pages q).sc :=
    field_same Page.sc others (by rw [same]; rfl)
  have used : ∀ C, (h'.view cfg).used C ↔ (S.heap.view cfg).used C ∨ C = ⟨p, i⟩ := by
    refine used_marked others fun j => ?_
    rw [same]
    exact UsedBitmap.used_mark i1024
  have headers : HeadersOk cfg T h' (update S.places t (.mallocUnlockPage size c p i)) := by
    refine inv.headers.step ht (inv.mine lock) (.inl chosen.sc) ?_ others (.inl (sc p))
      ⟨by simp [chosen.flag], ?_⟩ (.inr rfl) (fun q _ loose => ?_) ?_
      (fun _ _ pin => by cases pin) fun q => ?_
    · exact hh ▸ inv.headers.registered.modifyPage rfl (.inl rfl)
    · simp [same, show ((S.heap.pages p).take i).listFlags = .nfull from chosen.flag]
    · rw [hP] at loose
      exact loose
    · simp only [HeaderOk, same]
      exact chosen.take i1024 unused inside
    · rw [hP, entries]
      rfl
  have owners : Owners cfg (h'.view cfg) S.live
      (update S.places t (.mallocUnlockPage size c p i)) := by
    refine inv.owners.take (by rw [hP]; exact ⟨rfl, rfl, rfl⟩) ⟨rfl, rfl, rfl⟩
      ⟨by simpa only [Heap.view, chosen.sc] using hc,
        by simpa only [Heap.view, chosen.sc] using inside⟩
      unused chosen.entries (fun u f m copying => inv.source_pinned copying) used
      (funext entries) (funext sc) (by rw [← hh]; rfl) (by rw [← hh]; rfl)
  refine ⟨(.mallocUnlockPage size c p i, h'), by simp only [code, run, ok_bind]; rfl, ?_, ?_⟩
  · refine inv.inside headers (inv.owner_same (by rw [hP]; rfl)) owners (fun u a c B _ _ _ _ => ?_)
      (.none rfl) (fun u a c _ _ => ?_) (by rw [hP]; rfl) (by rw [← hh]; exact inv.valid)
    · exact ⟨sc _, by rw [← hh]; rfl⟩
    · exact (copied_update (by rw [hP]; rfl) a).mp
  · intro q ne
    have eq : q = p := by
      by_contra hq
      exact ne (by rw [others q hq])
    rw [eq, hP]
    simp [Place.locks]

/-- The block of the page gets the address of a free entry of the address space. -/
theorem code_mallocName {size i : Nat} (inv : Invariant cfg T S)
    (moving : compactionOn cfg) (hP : S.places t = .mallocName size c p i)
    (some : (getFreeAa cfg.toAddressConfig t S.heap.addresses).1 ≠ none) :
    ∃ r, code cfg t S.heap (.mallocName size c p i) = .ok r ∧ Coded cfg T t S r := by
  have ht := inv.not_idle (t := t) (by simp [hP])
  have filled : Filled c (S.heap.pages p) := by
    have header := inv.headers.header t
    rw [hP] at header
    exact header
  have lock : .sizeClass c ∈ (S.places t).locks := by
    rw [hP]
    exact List.mem_singleton_self _
  have active : Holder.Active S.live S.places (.thread t) := by
    simp [Holder.Active, hP, Place.taken]
  obtain ⟨B, _, has⟩ := inv.owners.has (.thread t) active
  have block : B = ⟨p, i⟩ := by
    have names := has.names
    simp only [Holder.Names, hP, Place.taken, Option.some.injEq] at names
    exact names.symm
  subst block
  obtain ⟨a, h', run, named⟩ := code_name size inv.headers.registered filled has.placed ht moving
    inv.valid some
  have same := named.page
  have sc : ∀ q, (h'.pages q).sc = (S.heap.pages q).sc :=
    field_same Page.sc named.others (by rw [same])
  have entries : ∀ q, (h'.pages q).sourceentries = (S.heap.pages q).sourceentries :=
    field_same Page.sourceentries named.others (by rw [same])
  have bitmaps : ∀ q, (h'.pages q).usedPageBlockBitmap = (S.heap.pages q).usedPageBlockBitmap :=
    field_same Page.usedPageBlockBitmap named.others (by rw [same])
  have notKept : ¬ Kept S.live S.places a := fun kept => named.fresh (kept_out kept)
  have words : ∀ b, Out S.live S.places b → (h'.view cfg).word b = (S.heap.view cfg).word b :=
    fun b out => named.words b out (inv.isAa b out)
  have headers : HeadersOk cfg T h' (update S.places t (.mallocUnlock size c (.some a))) := by
    refine inv.headers.step ht (inv.mine lock) (.inl filled.sc) named.registered named.others
      (.inl (sc p)) ⟨by simp [filled.flag], ?_⟩ (.inl (same ▸ filled.page))
      (fun q hq loose => ?_) trivial (fun _ _ pin => by cases pin) fun q => ?_
    · rw [same]
      dsimp only
      split <;> simp
    · rw [hP] at loose
      exact absurd (Option.some.inj loose).symm hq
    · rw [hP, entries]
      rfl
  have owners : Owners cfg (h'.view cfg) S.live
      (update S.places t (.mallocUnlock size c (.some a))) := by
    exact inv.owners.name (by rw [hP]; exact ⟨rfl, rfl, rfl⟩) ⟨rfl, rfl, rfl⟩ notKept
      (fun u f m copying => inv.source_pinned copying)
      (funext fun C => by simp only [Heap.view, bitmaps]) (funext entries) (funext sc)
      named.memory named.back named.word fun b kept => words b (kept_out kept)
  have out' : ∀ b, Out S.live (update S.places t (.mallocUnlock size c (.some a))) b ↔
      Out S.live S.places b ∨ b = a := by
    intro b
    rw [out_after, out_split S.live S.places t, hP]
    simp only [Place.address, reduceCtorEq, or_false, Option.some.injEq, or_right_comm, eq_comm]
  have hasA : Holder.Has (h'.view cfg) (update S.places t (.mallocUnlock size c (.some a)))
      (.address a) ⟨p, i⟩ :=
    ⟨has.placed.congr (sc p), named.word.trans (View.start_congr (sc p)).symm⟩
  have still : ¬ Copied (update S.places t (.mallocUnlock size c (.some a))) a := by
    intro copied
    obtain ⟨u, f, m, copying, rfl⟩ := (copied_update (by rw [hP]; rfl) _).mp copied
    exact notKept (inv.owners.copy u f m copying).1
  refine ⟨(.mallocUnlock size c (.some a), h'), run, ?_, fun q ne => absurd (bitmaps q) ne⟩
  refine inv.advance rfl headers (inv.owner_same (by rw [hP]; rfl)) owners
    (fun u b d C _ hs _ _ => ⟨sc _, words b (.inr ⟨u, (Place.locks_of_settled hs).2.1⟩)⟩)
    (.of_returns hasA ((sc p).trans filled.sc) still)
    (fun u b d _ _ => (copied_update (by rw [hP]; rfl) b).mp) (fun b hb => ?_)
    (fun u b _ hu => inv.dead u b hu) (named.valid _ out') (fun b out => ?_)
  · cases hb
    refine ⟨?_, fun u _ hu => named.fresh (.inr ⟨u, hu⟩)⟩
    by_contra alive
    exact named.fresh (.inl alive)
  · rcases (out' b).mp out with out | rfl
    · exact inv.isAa b out
    · exact named.isAa

/-- `cf_malloc` gives the lock of the class back and returns its object. -/
theorem return_object {size : Nat} (inv : Invariant cfg T S) (moving : compactionOn cfg)
    (hP : S.places t = .mallocUnlock size c (some a)) : Invariant cfg T { S with
      owner := update S.owner (.sizeClass c) none, places := update S.places t .idle
      live := update S.live a (some (newObj cfg a c size S.heap)) } := by
  have ht := inv.not_idle (t := t) (by simp [hP])
  have settled : (S.places t).settled = some (a, c) := by rw [hP]; rfl
  have mine : (S.places t).address = some a := by rw [hP]; rfl
  have isAa := inv.isAa a (.inr ⟨t, mine⟩)
  have still := (inv.relies t).fresh size c a hP
  have kept : Kept S.live S.places a := .inr ⟨t, by rw [hP]; rfl⟩
  obtain ⟨B, has, sc⟩ := (inv.relies t).settled a c settled
  have word : S.heap.pageBlock cfg a = (S.heap.view cfg).start B := by
    rw [← has.names, Heap.pageBlock, if_pos moving]
    simp only [Heap.view, isAa, if_true]
  have owner : ∀ m u, update S.owner (.sizeClass c) none m = some u ↔
      m ∈ (update S.places t .idle u).locks := by
    have owner := inv.owner_released (t := t) (m := .sizeClass c) (by rw [hP]; rfl)
    rw [hP] at owner
    exact owner
  have headers : HeadersOk cfg T S.heap (update S.places t .idle) := by
    refine inv.headers.move ht trivial (fun q loose => ?_) (by rw [hP]; rfl)
    rw [hP] at loose
    cases loose
  have owners : Owners cfg (S.heap.view cfg) (update S.live a (some (newObj cfg a c size S.heap)))
      (update S.places t .idle) := by
    refine inv.owners.give (by rw [hP]; exact ⟨rfl, rfl, rfl⟩) ⟨rfl, rfl, rfl⟩ still
      (fun u f m copying => inv.source_pinned copying) fun C hasC => ?_
    rw [hasC.unique has]
    refine ⟨(inv.owners.complete a B kept still has).back, fun o now => ?_⟩
    rw [update_self] at now
    cases now
    exact ⟨sc, fun j _ _ => by simp only [newObj, word]; rfl⟩
  have copied : ∀ b, Copied (update S.places t .idle) b → Copied S.places b :=
    fun b => (copied_update (by rw [hP]; rfl) b).mp
  have out : ∀ b, Out (update S.live a (some (newObj cfg a c size S.heap)))
      (update S.places t .idle) b ↔ Out S.live S.places b := by
    intro b
    by_cases eq : b = a
    · subst eq
      exact iff_of_true (.inl (by rw [update_self]; simp)) (.inr ⟨t, mine⟩)
    · refine out_congr ?_
      rw [update_of_ne eq, mine]
      simp [Place.address, Ne.symm eq]
  refine inv.advance rfl headers owner owners (fun _ _ _ _ _ _ _ _ => ⟨rfl, rfl⟩) (.none rfl)
    (fun _ b _ _ _ => copied b) (fun _ eq => by cases eq) (fun u b hu hb => ?_)
    (valid_congr inv.valid fun id => out _) fun b hb => inv.isAa b ((out b).mp hb)
  have ne : b ≠ a := by
    rintro rfl
    exact hu (inv.single u t b hb mine)
  simp only [update_of_ne ne]
  exact inv.dead u b hb

end Invariant

end
end LockPage
end CompactFit
