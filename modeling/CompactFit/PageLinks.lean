import CompactFit.ListHead
import CompactFit.Scripts

/-!
The page lists as they lie in memory: the four `list_head`s of every size class and the
`list` member of every page are nodes of one link memory. A `LinkedHeap` runs the list
functions of the source on the links, and `LinkedTo` relates it to a heap with the same
lists as Lean lists.
-/

namespace CompactFit
open Function LinkedRing ListHead

/-- The lists of a size class. -/
inductive ClassList where
  | full | nfull | source | emptying
deriving DecidableEq

def ClassList.flag : ClassList → ListFlag
  | .full => .full
  | .nfull => .nfull
  | .source => .source
  | .emptying => .emptying

/-- A `struct list_head`: a list head of a size class, or the `list` member of a page. -/
inductive ListNode where
  | head (c : Nat) (l : ClassList)
  | page (p : Nat)
deriving DecidableEq

/-- A heap whose page lists are in `links`; the lists of its classes are not used. -/
structure LinkedHeap (π : Type) where
  heap : Heap π
  links : ListMemory ListNode

/-- An access to a link faults on poison. -/
def accessed {α : Type} (r : Option α) : Except Fault α := r.elim (.error .wildAddress) .ok

def listEntry : Ptr ListNode → Except Fault Nat
  | .node (.page p) => .ok p
  | .node (.head ..) => .error .emptyList
  | _ => .error .wildAddress

namespace LinkedHeap
variable {π : Type}

def addPageToList (c : Nat) (l : ClassList) (p : Nat) (H : LinkedHeap π) :
    Except Fault (LinkedHeap π) := do
  let links ← accessed (listAdd (.node (.head c l)) (.node (.page p)) H.links)
  return {
    heap := H.heap.modifyClass c fun sc => { sc with
      nrPages := sc.nrPages + 1
      maxNrPages :=
        if sc.nrPages + 1 > sc.maxNrPages then sc.maxNrPages + 1 else sc.maxNrPages }
    links := links }

def removePageFromList (c p : Nat) (H : LinkedHeap π) : Except Fault (LinkedHeap π) := do
  let links ← accessed (listDel (.node (.page p)) H.links)
  return {
    heap := H.heap.modifyClass c fun sc => { sc with nrPages := sc.nrPages - 1 }
    links := links }

/-- `add_page_to_nfull_list` and its siblings. -/
def addPage (l : ClassList) (c p : Nat) (H : LinkedHeap π) : Except Fault (LinkedHeap π) := do
  ensure ((H.heap.pages p).listFlags = .none) .listFlags
  let H ← H.addPageToList c l p
  let h := H.heap.modifyClass c fun sc => sc.countIn l.flag
  return { H with heap := h.modifyPage p fun pg => { pg with listFlags := l.flag } }

/-- `remove_page_from_nfull_list` and its siblings. -/
def removePage (l : ClassList) (c p : Nat) (H : LinkedHeap π) : Except Fault (LinkedHeap π) := do
  ensure ((H.heap.pages p).listFlags = l.flag) .listFlags
  let H ← H.removePageFromList c p
  let h := H.heap.modifyClass c fun sc => sc.countOut l.flag
  return { H with heap := h.modifyPage p fun pg => { pg with listFlags := .none } }

def isEmpty (l : ClassList) (c : Nat) (H : LinkedHeap π) : Except Fault Bool :=
  accessed (listEmpty (.node (.head c l)) H.links)

def firstPage (l : ClassList) (c : Nat) (H : LinkedHeap π) : Except Fault Nat := do
  listEntry (← accessed (loadNext H.links (.node (.head c l))))

def getNfullPagesTail (c : Nat) (H : LinkedHeap π) : Except Fault Nat := do
  listEntry (← accessed (loadPrev H.links (.node (.head c .nfull))))

def modifyPage (p : Nat) (f : Page → Page) (H : LinkedHeap π) : LinkedHeap π :=
  { H with heap := H.heap.modifyPage p f }

def dropUsed (p : Nat) (H : LinkedHeap π) : LinkedHeap π := { H with heap := H.heap.dropUsed p }

/-- The two branches of `get_source_page`. -/
def takeSourcePage (c : Nat) (H : LinkedHeap π) : Except Fault (Nat × LinkedHeap π) := do
  if ← H.isEmpty .source c then
    let p ← H.firstPage .nfull c
    let H ← H.removePage .nfull c p
    let H := H.dropUsed p
    if (H.heap.pages p).nrUsedPageBlocks = 0 then
      let H ← H.addPage .emptying c p
      return (p, H)
    else
      let H ← H.addPage .source c p
      return (p, H)
  else
    let p ← H.firstPage .source c
    let H := H.dropUsed p
    if (H.heap.pages p).nrUsedPageBlocks = 0 then
      let H ← H.removePage .source c p
      let H ← H.addPage .emptying c p
      return (p, H)
    else return (p, H)

def getSourcePage (c : Nat) (H : LinkedHeap π) : Except Fault (Nat × LinkedHeap π) := do
  let (p, H) ← H.takeSourcePage c
  return (p, H.modifyPage p fun pg => { pg with sourceentries := increment pg.sourceentries })

end LinkedHeap

/-- `INIT_LIST_HEAD` of the four lists of every size class, in the order of
`init_size_class_instance`. -/
def classHeads : List ListNode :=
  (List.range sizeClasses).flatMap fun c =>
    [.head c .full, .head c .nfull, .head c .source, .head c .emptying]

def initSizeClassLists (m : ListMemory ListNode) : Option (ListMemory ListNode) :=
  classHeads.foldlM (fun m x => initListHead (.node x) m) m

/-! ### The relation between links and lists -/

/-- The lists that exist: those of the size classes of the table. -/
abbrev ListName := Fin sizeClasses × ClassList

def ListName.head (k : ListName) : ListNode := .head k.1 k.2

section Linked
variable {π : Type}

def Heap.nodes (h : Heap π) (k : ListName) : List ListNode :=
  ((h.classes k.1).lists k.2.flag).map .page

def Heap.withoutLists (h : Heap π) : Heap π :=
  { h with classes := fun c => { h.classes c with lists := fun _ => [] } }

/-- The links hold the lists of `h`, and everything else is as in `h`. -/
structure LinkedTo (H : LinkedHeap π) (h : Heap π) : Prop where
  heap : H.heap = h.withoutLists
  links : Represents H.links ListName.head h.nodes

/-- The two runs have related results or the same fault. -/
def Agree {α β : Type} (R : α → β → Prop) : Except Fault α → Except Fault β → Prop
  | .ok x, .ok y => R x y
  | .error e, .error e' => e = e'
  | _, _ => False

theorem Agree.bind {α β α' β' : Type} {R : α → β → Prop} {R' : α' → β' → Prop}
    {r : Except Fault α} {s : Except Fault β} {f : α → Except Fault α'} {g : β → Except Fault β'}
    (agree : Agree R r s) (next : ∀ x y, R x y → Agree R' (f x) (g y)) :
    Agree R' (r >>= f) (s >>= g) := by
  cases r with
  | error e =>
      cases s with
      | error e' => exact agree
      | ok y => exact agree.elim
  | ok x =>
      cases s with
      | error e' => exact agree.elim
      | ok y => exact next x y agree

/-- The links hold the lists, and the lists hold the pages that carry their flag. -/
structure LinkedOk (H : LinkedHeap π) (h : Heap π) : Prop where
  linked : LinkedTo H h
  lists : ListsOk h

variable {H : LinkedHeap π} {h : Heap π} {c p : Nat} {l : ClassList}

theorem ClassList.flag_listed (l : ClassList) : l.flag ≠ .none ∧ l.flag ≠ .free := by
  cases l <;> decide

theorem ClassList.flag_injective : Injective ClassList.flag := by
  intro a b eq
  cases a <;> cases b <;> first | rfl | cases eq

theorem page_injective : Injective ListNode.page := fun _ _ eq => by
  cases eq
  rfl

theorem LinkedTo.pages (linked : LinkedTo H h) : H.heap.pages = h.pages := by rw [linked.heap]; rfl

theorem ListsOk.fresh (ok : ListsOk h) (off : (h.pages p).listFlags = .none) (k : ListName) :
    ListNode.page p ∉ k.head :: h.nodes k := by
  rw [List.mem_cons, not_or]
  refine ⟨fun eq => (by cases eq), fun mem => ?_⟩
  rw [Heap.nodes, List.mem_map_of_injective page_injective] at mem
  obtain ⟨listed, _, flag, _⟩ := (ok.mem _ _ _).mp mem
  exact listed (flag.symm.trans off)

theorem nodes_linkPage (hc : c < sizeClasses) :
    (h.linkPage l.flag c p).nodes =
      update h.nodes (⟨c, hc⟩, l) (.page p :: h.nodes (⟨c, hc⟩, l)) := by
  funext k
  obtain ⟨⟨d, hd⟩, g⟩ := k
  by_cases same : d = c
  · subst same
    by_cases flag : g = l
    · subst flag
      simp [Heap.nodes, Heap.linkPage, SizeClass.addPageToList]
    · have flags : g.flag ≠ l.flag := fun eq => flag (ClassList.flag_injective eq)
      simp [Heap.nodes, Heap.linkPage, SizeClass.addPageToList, flag, flags]
  · simp [Heap.nodes, Heap.linkPage, same]

theorem nodes_unlinkPage (hc : c < sizeClasses) :
    (h.unlinkPage l.flag c p).nodes =
      update h.nodes (⟨c, hc⟩, l) ((h.nodes (⟨c, hc⟩, l)).erase (.page p)) := by
  funext k
  obtain ⟨⟨d, hd⟩, g⟩ := k
  by_cases same : d = c
  · subst same
    by_cases flag : g = l
    · subst flag
      simp [Heap.nodes, Heap.unlinkPage, SizeClass.removePageFromList,
        List.map_erase page_injective]
    · have flags : g.flag ≠ l.flag := fun eq => flag (ClassList.flag_injective eq)
      simp [Heap.nodes, Heap.unlinkPage, SizeClass.removePageFromList, flag, flags]
  · simp [Heap.nodes, Heap.unlinkPage, same]

theorem withoutLists_linkPage (f : ListFlag) : (h.linkPage f c p).withoutLists =
    ((h.withoutLists.modifyClass c fun sc => { sc with
        nrPages := sc.nrPages + 1
        maxNrPages :=
          if sc.nrPages + 1 > sc.maxNrPages then sc.maxNrPages + 1 else sc.maxNrPages }).modifyClass
      c fun sc => sc.countIn f).modifyPage p fun pg => { pg with listFlags := f } := by
  have classes : ∀ d, (h.linkPage f c p).withoutLists.classes d =
      ((h.withoutLists.modifyClass c fun sc => { sc with
          nrPages := sc.nrPages + 1
          maxNrPages :=
            if sc.nrPages + 1 > sc.maxNrPages then sc.maxNrPages + 1
            else sc.maxNrPages }).modifyClass c fun sc => sc.countIn f).classes d := by
    intro d
    by_cases same : d = c
    · subst same
      cases f <;>
        simp [Heap.withoutLists, Heap.linkPage, SizeClass.addPageToList, SizeClass.countIn]
    · simp [Heap.withoutLists, Heap.linkPage, same]
  exact congrArg (fun cs => { h.linkPage f c p with classes := cs }) (funext classes)

theorem withoutLists_unlinkPage (f : ListFlag) : (h.unlinkPage f c p).withoutLists =
    ((h.withoutLists.modifyClass c fun sc => { sc with nrPages := sc.nrPages - 1 }).modifyClass c
      fun sc => sc.countOut f).modifyPage p fun pg => { pg with listFlags := .none } := by
  have classes : ∀ d, (h.unlinkPage f c p).withoutLists.classes d =
      ((h.withoutLists.modifyClass c fun sc => { sc with nrPages := sc.nrPages - 1 }).modifyClass c
        fun sc => sc.countOut f).classes d := by
    intro d
    by_cases same : d = c
    · subst same
      cases f <;>
        simp [Heap.withoutLists, Heap.unlinkPage, SizeClass.removePageFromList, SizeClass.countOut]
    · simp [Heap.withoutLists, Heap.unlinkPage, same]
  exact congrArg (fun cs => { h.unlinkPage f c p with classes := cs }) (funext classes)

theorem ensure_false {c : Prop} [Decidable c] (h : ¬ c) (fault : Fault) :
    ensure c fault = .error fault := if_neg h

theorem error_bind {α β : Type} (e : Fault) (f : α → Except Fault β) :
    (Except.error e >>= f) = .error e := rfl

theorem LinkedHeap.addPage_run {m : ListMemory ListNode} (off : (H.heap.pages p).listFlags = .none)
    (run : listAdd (.node (.head c l)) (.node (.page p)) H.links = some m)
    (heap : H.heap = h.withoutLists) :
    H.addPage l c p = .ok { heap := (h.linkPage l.flag c p).withoutLists, links := m } := by
  rw [LinkedHeap.addPage, ensure_true off, ok_bind, LinkedHeap.addPageToList, run,
    withoutLists_linkPage, ← heap]
  rfl

theorem LinkedHeap.removePage_run {m : ListMemory ListNode}
    (listed : (H.heap.pages p).listFlags = l.flag)
    (run : listDel (.node (.page p)) H.links = some m) (heap : H.heap = h.withoutLists) :
    H.removePage l c p = .ok { heap := (h.unlinkPage l.flag c p).withoutLists, links := m } := by
  rw [LinkedHeap.removePage, ensure_true listed, ok_bind, LinkedHeap.removePageFromList, run,
    withoutLists_unlinkPage, ← heap]
  rfl

theorem LinkedOk.added (ok : LinkedOk H h) (hc : c < sizeClasses) (own : (h.pages p).sc = c)
    (off : (h.pages p).listFlags = .none) :
    ∃ H', H.addPage l c p = .ok H' ∧ LinkedOk H' (h.linkPage l.flag c p) := by
  have pages := congrFun ok.linked.pages p
  obtain ⟨m, run, rep⟩ := listAdd_spec (k := (⟨c, hc⟩, l)) ok.linked.links (ok.lists.fresh off)
  refine ⟨_, LinkedHeap.addPage_run (by rw [pages, off]) run ok.linked.heap, ⟨rfl, ?_⟩,
    listsOk_linkPage ok.lists off own l.flag_listed⟩
  rw [nodes_linkPage hc]
  exact rep

theorem LinkedOk.removed (ok : LinkedOk H h) (hc : c < sizeClasses) (own : (h.pages p).sc = c)
    (listed : (h.pages p).listFlags = l.flag) :
    ∃ H', H.removePage l c p = .ok H' ∧ LinkedOk H' (h.unlinkPage l.flag c p) := by
  have pages := congrFun ok.linked.pages p
  have mem : ListNode.page p ∈ h.nodes (⟨c, hc⟩, l) := by
    rw [Heap.nodes, List.mem_map_of_injective page_injective]
    exact (ok.lists.mem _ _ _).mpr ⟨l.flag_listed.1, l.flag_listed.2, listed, own⟩
  obtain ⟨m, run, rep, _⟩ := listDel_spec ok.linked.links mem
  refine ⟨_, LinkedHeap.removePage_run (by rw [pages, listed]) run ok.linked.heap, ⟨rfl, ?_⟩,
    listsOk_unlinkPage ok.lists listed own l.flag_listed⟩
  rw [nodes_unlinkPage hc]
  exact rep

/-- Adding a page of the class: the same assertion, and the same lists afterwards. -/
theorem LinkedOk.addPage (ok : LinkedOk H h) (hc : c < sizeClasses) (own : (h.pages p).sc = c) :
    Agree LinkedOk (H.addPage l c p) (CompactFit.addPage l.flag c p h) := by
  by_cases off : (h.pages p).listFlags = .none
  · obtain ⟨H', run, ok'⟩ := ok.added (l := l) hc own off
    rw [run, addPage_ok off]
    exact ok'
  · rw [LinkedHeap.addPage, CompactFit.addPage, ok.linked.pages, ensure_false off, error_bind,
      error_bind]
    rfl

theorem LinkedOk.removePage (ok : LinkedOk H h) (hc : c < sizeClasses)
    (own : (h.pages p).sc = c) :
    Agree LinkedOk (H.removePage l c p) (CompactFit.removePage l.flag c p h) := by
  by_cases listed : (h.pages p).listFlags = l.flag
  · obtain ⟨H', run, ok'⟩ := ok.removed hc own listed
    rw [run, removePage_ok listed]
    exact ok'
  · rw [LinkedHeap.removePage, CompactFit.removePage, ok.linked.pages, ensure_false listed,
      error_bind, error_bind]
    rfl

def ListFlag.Listed (f : ListFlag) : Prop := f ≠ .none ∧ f ≠ .free

/-- The headers of pages that are on a list, or are put on one, are as before. -/
def SameListed (pages pages' : Nat → Page) : Prop :=
  ∀ p, (pages p).listFlags.Listed ∨ (pages' p).listFlags.Listed →
    (pages' p).listFlags = (pages p).listFlags ∧ (pages' p).sc = (pages p).sc

theorem ListsOk.congr_listed {h' : Heap π} (ok : ListsOk h) (classes : h'.classes = h.classes)
    (same : SameListed h.pages h'.pages) : ListsOk h' := by
  constructor
  · rw [classes]
    exact ok.nodup
  · intro c f p
    rw [classes, ok.mem]
    constructor
    · rintro ⟨notNone, notFree, rfl, rfl⟩
      obtain ⟨flag, sc⟩ := same p (.inl ⟨notNone, notFree⟩)
      exact ⟨notNone, notFree, flag, sc⟩
    · rintro ⟨notNone, notFree, rfl, rfl⟩
      obtain ⟨flag, sc⟩ := same p (.inr ⟨notNone, notFree⟩)
      exact ⟨notNone, notFree, flag.symm, sc.symm⟩
  · rw [classes]
    exact ok.nfullentries
  · rw [classes]
    exact ok.sourceentries
  · rw [classes]
    exact ok.nrPages

theorem LinkedOk.other (ok : LinkedOk H h) (g : Heap π) (same : SameListed h.pages g.pages) :
    LinkedOk { H with heap := { g with classes := H.heap.classes } }
      { g with classes := h.classes } := by
  refine ⟨⟨?_, ok.linked.links⟩, ok.lists.congr_listed rfl same⟩
  rw [ok.linked.heap]
  rfl

/-- A change of a header that leaves list flag and class alone. -/
theorem LinkedOk.modifyPage (ok : LinkedOk H h) (p : Nat) (f : Page → Page)
    (flag : ∀ pg, (f pg).listFlags = pg.listFlags) (sc : ∀ pg, (f pg).sc = pg.sc) :
    LinkedOk (H.modifyPage p f) (h.modifyPage p f) := by
  have changed := ok.other (h.modifyPage p f) fun q _ => by
    by_cases hq : q = p
    · subst hq
      simp [flag, sc]
    · simp [hq]
  have heap : H.heap.modifyPage p f = { h.modifyPage p f with classes := H.heap.classes } := by
    rw [ok.linked.heap]
    rfl
  rw [LinkedHeap.modifyPage, heap]
  exact changed

theorem LinkedOk.dropUsed (ok : LinkedOk H h) (p : Nat) :
    LinkedOk (H.dropUsed p) (h.dropUsed p) :=
  ok.modifyPage p _ (fun _ => rfl) fun _ => rfl

theorem LinkedOk.isEmpty (ok : LinkedOk H h) (hc : c < sizeClasses) :
    H.isEmpty l c = .ok ((h.classes c).lists l.flag).isEmpty := by
  have empty := listEmpty_spec ok.linked.links (⟨c, hc⟩, l)
  have nodes : decide (h.nodes (⟨c, hc⟩, l) = []) = ((h.classes c).lists l.flag).isEmpty := by
    rw [Heap.nodes]
    cases (h.classes c).lists l.flag <;> simp
  rw [nodes] at empty
  rw [LinkedHeap.isEmpty, show ListNode.head c l = ListName.head (⟨c, hc⟩, l) from rfl, empty]
  rfl

theorem LinkedOk.firstPage (ok : LinkedOk H h) (hc : c < sizeClasses) :
    H.firstPage l c = ((h.classes c).lists l.flag).head?.elim (.error .emptyList) .ok := by
  have first := (ok.linked.links.reads (⟨c, hc⟩, l)).first
  rw [LinkedHeap.firstPage, show ListNode.head c l = ListName.head (⟨c, hc⟩, l) from rfl, first,
    Heap.nodes]
  cases (h.classes c).lists l.flag <;> rfl

/-- `get_nfull_pages_tail`; of an empty list the source takes the list head for a page. -/
theorem LinkedOk.getNfullPagesTail (ok : LinkedOk H h) (hc : c < sizeClasses) :
    H.getNfullPagesTail c = (CompactFit.getNfullPagesTail c h).elim (.error .emptyList) .ok := by
  have last := (ok.linked.links.reads (⟨c, hc⟩, .nfull)).last
  rw [LinkedHeap.getNfullPagesTail,
    show ListNode.head c .nfull = ListName.head (⟨c, hc⟩, .nfull) from rfl, last, Heap.nodes,
    CompactFit.getNfullPagesTail, List.getLastD_eq_getLast?, List.getLast?_map]
  show _ = ((h.classes c).lists .nfull).getLast?.elim _ _
  cases hl : ((h.classes c).lists .nfull).getLast? with
  | none =>
      rw [show (h.classes c).lists ClassList.nfull.flag = (h.classes c).lists .nfull from rfl, hl]
      rfl
  | some p =>
      rw [show (h.classes c).lists ClassList.nfull.flag = (h.classes c).lists .nfull from rfl, hl]
      rfl

theorem ListsOk.own {f : ListFlag} (ok : ListsOk h) (mem : p ∈ (h.classes c).lists f) :
    (h.pages p).sc = c := ((ok.mem c f p).mp mem).2.2.2

def Answered {α : Type} (x : α × LinkedHeap π) (y : α × Heap π) : Prop :=
  x.1 = y.1 ∧ LinkedOk x.2 y.2

theorem Agree.ite {α β : Type} {R : α → β → Prop} {P : Prop} [Decidable P]
    {r r' : Except Fault α} {s s' : Except Fault β} (yes : P → Agree R r s)
    (no : ¬ P → Agree R r' s') :
    Agree R (if P then r else r') (if P then s else s') := by
  by_cases hP : P
  · rw [if_pos hP, if_pos hP]
    exact yes hP
  · rw [if_neg hP, if_neg hP]
    exact no hP

theorem LinkedOk.toList (ok : LinkedOk H h) (hc : c < sizeClasses) (own : (h.pages p).sc = c)
    (off : (h.pages p).listFlags = .none) (l : ClassList) :
    Agree Answered (H.addPage l c p >>= fun H => pure (p, H))
      (CompactFit.addPage l.flag c p h >>= fun h => pure (p, h)) := by
  obtain ⟨H', run, ok'⟩ := ok.added (l := l) hc own off
  rw [run, addPage_ok off]
  exact ⟨rfl, ok'⟩

/-- `get_source_page` takes the first source page, else the first not-full page. -/
theorem LinkedOk.takeSourcePage (ok : LinkedOk H h) (hc : c < sizeClasses) :
    Agree Answered (H.takeSourcePage c) (CompactFit.takeSourcePage c h) := by
  have empty := ok.isEmpty (l := .source) hc
  have first := ok.firstPage (l := .source) hc
  have firstNfull := ok.firstPage (l := .nfull) hc
  simp only [ClassList.flag] at empty first firstNfull
  cases source : (h.classes c).lists .source with
  | nil =>
      rw [source] at empty
      rw [LinkedHeap.takeSourcePage, empty, ok_bind, CompactFit.takeSourcePage, source]
      simp only [List.isEmpty_nil, if_true]
      cases nfull : (h.classes c).lists .nfull with
      | nil =>
          rw [nfull] at firstNfull
          rw [firstNfull]
          rfl
      | cons p ps =>
          have mem : p ∈ (h.classes c).lists .nfull := nfull ▸ List.mem_cons_self
          have own := ok.lists.own mem
          have flag := ((ok.lists.mem c .nfull p).mp mem).2.2.1
          obtain ⟨H1, run, ok1⟩ := ok.removed (l := .nfull) hc own flag
          have ok2 := ok1.dropUsed p
          have ownU : (((h.unlinkPage .nfull c p).dropUsed p).pages p).sc = c := by
            simpa [Heap.dropUsed, Heap.unlinkPage] using own
          have offU : (((h.unlinkPage .nfull c p).dropUsed p).pages p).listFlags = .none := by
            simp [Heap.dropUsed, Heap.unlinkPage]
          rw [nfull] at firstNfull
          rw [firstNfull]
          simp only [List.head?_cons, Option.elim_some, ok_bind, run, removePageFromNfullList,
            removePage_ok flag]
          rw [ok2.linked.pages]
          exact .ite (fun _ => ok2.toList hc ownU offU .emptying) fun _ =>
            ok2.toList hc ownU offU .source
  | cons p ps =>
      have mem : p ∈ (h.classes c).lists .source := source ▸ List.mem_cons_self
      have own := ok.lists.own mem
      have flag := ((ok.lists.mem c .source p).mp mem).2.2.1
      have ok1 := ok.dropUsed p
      have own1 : ((h.dropUsed p).pages p).sc = c := by simpa [Heap.dropUsed] using own
      have flag1 : ((h.dropUsed p).pages p).listFlags = .source := by
        simpa [Heap.dropUsed] using flag
      obtain ⟨H2, run, ok2⟩ := ok1.removed (l := .source) hc own1 flag1
      have own2 : (((h.dropUsed p).unlinkPage .source c p).pages p).sc = c := by
        simpa [Heap.unlinkPage] using own1
      have off2 : (((h.dropUsed p).unlinkPage .source c p).pages p).listFlags = .none := by
        simp [Heap.unlinkPage]
      rw [source] at empty first
      rw [LinkedHeap.takeSourcePage, empty, ok_bind, CompactFit.takeSourcePage, source]
      simp only [List.isEmpty_cons, Bool.false_eq_true, if_false, first,
        List.head?_cons, Option.elim_some, ok_bind, run, removePageFromSourceList,
        removePage_ok flag1]
      rw [ok1.linked.pages]
      exact .ite (fun _ => ok2.toList hc own2 off2 .emptying) fun _ => ⟨rfl, ok1⟩

theorem LinkedOk.getSourcePage (ok : LinkedOk H h) (hc : c < sizeClasses) :
    Agree Answered (H.getSourcePage c) (CompactFit.getSourcePage c h) := by
  refine (ok.takeSourcePage hc).bind ?_
  rintro ⟨p, H'⟩ ⟨q, h'⟩ ⟨rfl, ok'⟩
  exact ⟨rfl, ok'.modifyPage p _ (fun _ => rfl) fun _ => rfl⟩

/-! ### Runs -/

inductive PageCall where
  | add (l : ClassList) (c p : Nat)
  | remove (l : ClassList) (c p : Nat)
  | nfullTail (c : Nat)
  | isEmpty (l : ClassList) (c : Nat)
  | source (c : Nat)

inductive PageAnswer where
  | done
  | page (p : Nat)
  | empty (b : Bool)
deriving DecidableEq

def PageCall.run : PageCall → Heap π → Except Fault (PageAnswer × Heap π)
  | .add l c p, h => do return (.done, ← CompactFit.addPage l.flag c p h)
  | .remove l c p, h => do return (.done, ← CompactFit.removePage l.flag c p h)
  | .nfullTail c, h => do
      return (.page (← (CompactFit.getNfullPagesTail c h).elim (.error .emptyList) .ok), h)
  | .isEmpty l c, h => .ok (.empty ((h.classes c).lists l.flag).isEmpty, h)
  | .source c, h => do
      let (p, h) ← CompactFit.getSourcePage c h
      return (.page p, h)

def PageCall.runLinked : PageCall → LinkedHeap π → Except Fault (PageAnswer × LinkedHeap π)
  | .add l c p, H => do return (.done, ← H.addPage l c p)
  | .remove l c p, H => do return (.done, ← H.removePage l c p)
  | .nfullTail c, H => do return (.page (← H.getNfullPagesTail c), H)
  | .isEmpty l c, H => do return (.empty (← H.isEmpty l c), H)
  | .source c, H => do
      let (p, H) ← H.getSourcePage c
      return (.page p, H)

/-- Callers hand over an existing size class, and with a page the class of the page. -/
def PageCall.Proper (h : Heap π) : PageCall → Prop
  | .add _ c p | .remove _ c p => c < sizeClasses ∧ (h.pages p).sc = c
  | .nfullTail c | .isEmpty _ c | .source c => c < sizeClasses

/-- A call of a list function, or a step of the rest of the program, which leaves the heap
`g` apart from the size classes. -/
inductive PageEvent (π : Type) where
  | call (call : PageCall)
  | other (g : Heap π)

def PageEvent.run : PageEvent π → Heap π → Except Fault (PageAnswer × Heap π)
  | .call made, h => made.run h
  | .other g, h => .ok (.done, { g with classes := h.classes })

def PageEvent.runLinked : PageEvent π → LinkedHeap π → Except Fault (PageAnswer × LinkedHeap π)
  | .call made, H => made.runLinked H
  | .other g, H => .ok (.done, { H with heap := { g with classes := H.heap.classes } })

def PageEvent.Proper (h : Heap π) : PageEvent π → Prop
  | .call made => made.Proper h
  | .other g => SameListed h.pages g.pages

/-- The answers to the events and the state they leave. -/
def runEvents {ε σ : Type} (step : ε → σ → Except Fault (PageAnswer × σ)) :
    List ε → σ → Except Fault (List PageAnswer × σ)
  | [], s => .ok ([], s)
  | e :: es, s => do
      let (answer, s) ← step e s
      let (answers, s) ← runEvents step es s
      return (answer :: answers, s)

def AllProper : List (PageEvent π) → Heap π → Prop
  | [], _ => True
  | e :: es, h => e.Proper h ∧ ∀ answer h', e.run h = .ok (answer, h') → AllProper es h'

theorem LinkedOk.call (ok : LinkedOk H h) {call : PageCall} (proper : call.Proper h) :
    Agree Answered (call.runLinked H) (call.run h) := by
  cases call with
  | add l c p => exact (ok.addPage proper.1 proper.2).bind fun _ _ ok' => ⟨rfl, ok'⟩
  | remove l c p => exact (ok.removePage proper.1 proper.2).bind fun _ _ ok' => ⟨rfl, ok'⟩
  | nfullTail c =>
      rw [PageCall.runLinked, PageCall.run, ok.getNfullPagesTail proper]
      cases CompactFit.getNfullPagesTail c h with
      | none => rfl
      | some p => exact ⟨rfl, ok⟩
  | isEmpty l c =>
      rw [PageCall.runLinked, PageCall.run, ok.isEmpty proper]
      exact ⟨rfl, ok⟩
  | source c =>
      refine (ok.getSourcePage proper).bind ?_
      rintro ⟨p, H'⟩ ⟨q, h'⟩ ⟨rfl, ok'⟩
      exact ⟨rfl, ok'⟩

theorem LinkedOk.event (ok : LinkedOk H h) {e : PageEvent π} (proper : e.Proper h) :
    Agree Answered (e.runLinked H) (e.run h) := by
  cases e with
  | call call => exact ok.call proper
  | other g => exact ⟨rfl, ok.other g proper⟩

theorem LinkedOk.events (ok : LinkedOk H h) {events : List (PageEvent π)}
    (proper : AllProper events h) :
    Agree Answered (runEvents PageEvent.runLinked events H) (runEvents PageEvent.run events h) := by
  induction events generalizing H h with
  | nil => exact ⟨rfl, ok⟩
  | cons e es ih =>
      have step := ok.event proper.1
      cases hs : e.run h with
      | error fault =>
          rw [hs] at step
          rw [runEvents, runEvents, hs]
          cases hl : e.runLinked H with
          | error fault' =>
              rw [hl] at step
              exact step
          | ok r =>
              rw [hl] at step
              exact step.elim
      | ok r =>
          obtain ⟨answer, h'⟩ := r
          rw [hs] at step
          cases hl : e.runLinked H with
          | error fault =>
              rw [hl] at step
              exact step.elim
          | ok r' =>
              obtain ⟨answer', H'⟩ := r'
              rw [hl] at step
              obtain ⟨rfl, ok'⟩ := step
              rw [runEvents, runEvents, hs, hl, ok_bind, ok_bind]
              refine (ih ok' (proper.2 _ _ hs)).bind ?_
              rintro ⟨answers, H2⟩ ⟨answers', h2⟩ ⟨rfl, ok2⟩
              exact ⟨rfl, ok2⟩

/-- After `INIT_LIST_HEAD` a head is its own neighbour. -/
theorem initListHeads_run (ns : List ListNode) (m : ListMemory ListNode) :
    ∃ m', ns.foldlM (fun m x => initListHead (.node x) m) m = some m' ∧
      ∀ x, (x ∈ ns ∨ m.next (.node x) = .node x ∧ m.prev (.node x) = .node x) →
        m'.next (.node x) = .node x ∧ m'.prev (.node x) = .node x := by
  induction ns generalizing m with
  | nil => exact ⟨m, rfl, fun x self => self.resolve_left (List.not_mem_nil)⟩
  | cons n ns ih =>
      obtain ⟨m', run, self⟩ := ih ((m.setNext (.node n) (.node n)).setPrev (.node n) (.node n))
      refine ⟨m', run, fun x before => self x ?_⟩
      by_cases same : x = n
      · subst same
        exact .inr (by simp)
      · have apart : Ptr.node x ≠ Ptr.node n := fun eq => same (Ptr.node_injective eq)
        rcases before with mem | before
        · exact .inl ((List.mem_cons.mp mem).resolve_left same)
        · exact .inr (by simpa [apart] using before)

theorem head_injective : Injective ListName.head := by
  rintro ⟨⟨c, hc⟩, l⟩ ⟨⟨d, hd⟩, g⟩ eq
  cases eq
  rfl

theorem mem_classHeads (k : ListName) : k.head ∈ classHeads := by
  obtain ⟨⟨c, hc⟩, l⟩ := k
  refine List.mem_flatMap.mpr ⟨c, List.mem_range.mpr hc, ?_⟩
  cases l <;> simp [ListName.head]

/-- From `cf_init` on, the list functions running on `next` and `prev` links and the ones running
on lists give the same answers and stop at the same fault, whatever the rest of the program does
to pages on no list, and they leave links that hold the lists. -/
theorem page_lists_linked (cfg : Config) (addresses : π) (m : ListMemory ListNode)
    (events : List (PageEvent π)) (proper : AllProper events (initHeap cfg addresses)) :
    ∃ links, initSizeClassLists m = some links ∧
      Agree Answered
        (runEvents PageEvent.runLinked events
          { heap := (initHeap cfg addresses).withoutLists, links := links })
        (runEvents PageEvent.run events (initHeap cfg addresses)) := by
  obtain ⟨links, run, self⟩ := initListHeads_run classHeads m
  refine ⟨links, run, LinkedOk.events ⟨⟨rfl, ?_⟩, (initHeap_ok cfg addresses).2.2.lists⟩ proper⟩
  have empty : (initHeap cfg addresses).nodes = fun _ => [] := by
    funext k
    obtain ⟨_, _, _, classes, _⟩ := initHeap_spec cfg addresses
    simp [Heap.nodes, classes]
  rw [empty]
  exact represents_init head_injective fun k => self _ (.inl (mem_classHeads k))

/-- Pages 5 and 6 come from the pool and go to the not-full list of class 3, and its last page
is asked for. -/
def twoPages : List (PageEvent Unit) :=
  [.other (((initHeap smallConfig ()).modifyPage 5 fun pg =>
      { pg with listFlags := .none, sc := 3 }).modifyPage 6 fun pg =>
        { pg with listFlags := .none, sc := 3 }),
    .call (.add .nfull 3 5), .call (.add .nfull 3 6), .call (.nfullTail 3)]

theorem twoPages_proper : AllProper twoPages (initHeap smallConfig ()) := by
  have off : ∀ p, ¬ ((initHeap smallConfig ()).pages p).listFlags.Listed := by
    intro p listed
    obtain ⟨f, off, eq⟩ := (initHeap_spec smallConfig ()).2.2.1 p
    rw [eq] at listed
    rcases off with rfl | rfl <;> simp [ListFlag.Listed] at listed
  refine ⟨fun p listed => ?_, fun _ h1 run1 => ⟨⟨by decide, ?_⟩, fun _ h2 run2 =>
    ⟨⟨by decide, ?_⟩, fun _ _ _ => ⟨(by decide : 3 < sizeClasses), fun _ _ _ => trivial⟩⟩⟩⟩
  · have still := listed.resolve_left (off p)
    by_cases h6 : p = 6
    · subst h6
      simp [ListFlag.Listed] at still
    · by_cases h5 : p = 5
      · subst h5
        simp [ListFlag.Listed] at still
      · simp [h5, h6]
  · cases run1
    simp
  · cases run1
    cases run2
    simp [Heap.linkPage]

/-- Page 5, the first of the two, is the last of the list. -/
theorem page_lists_linked_tail : ∃ (links : ListMemory ListNode) (H : LinkedHeap Unit),
    initSizeClassLists { next := id, prev := id } = some links ∧
      InHeap smallConfig 5 ∧ InHeap smallConfig 6 ∧
      runEvents PageEvent.runLinked twoPages
        { heap := (initHeap smallConfig ()).withoutLists, links := links } =
          .ok ([.done, .done, .done, .page 5], H) := by
  obtain ⟨links, init, agree⟩ := page_lists_linked smallConfig () { next := id, prev := id } _
    twoPages_proper
  have answers : (runEvents PageEvent.run twoPages (initHeap smallConfig ())).toOption.map
      Prod.fst = some [.done, .done, .done, .page 5] := by decide +kernel
  cases hr : runEvents PageEvent.run twoPages (initHeap smallConfig ()) with
  | error fault =>
      rw [hr] at answers
      cases answers
  | ok r =>
      rw [hr] at answers agree
      cases hl : runEvents PageEvent.runLinked twoPages
          { heap := (initHeap smallConfig ()).withoutLists, links := links } with
      | error fault =>
          rw [hl] at agree
          exact agree.elim
      | ok r' =>
          rw [hl] at agree
          obtain ⟨same, _⟩ := agree
          refine ⟨links, r'.2, init, ⟨by decide, by decide⟩, ⟨by decide, by decide⟩, ?_⟩
          rw [hl, ← Option.some.inj answers, ← same]

end Linked
end CompactFit
