import CompactFit.Heap

/-!
The page lists of a size class and the counters kept with them. The eight
add/remove functions of the source differ only in the list and its flag, so they
are members of one pair of definitions; `ListsOk` is the relation between lists,
flags and counters that every single one of them preserves.
-/

namespace CompactFit
open Function

namespace SizeClass

/-- `add_page_to_list`: link at the front of the list. -/
def addPageToList (sc : SizeClass) (f : ListFlag) (p : Nat) : SizeClass :=
  { sc with
    lists := update sc.lists f (p :: sc.lists f)
    nrPages := sc.nrPages + 1
    maxNrPages := if sc.nrPages + 1 > sc.maxNrPages then sc.maxNrPages + 1 else sc.maxNrPages }

def removePageFromList (sc : SizeClass) (f : ListFlag) (p : Nat) : SizeClass :=
  { sc with lists := update sc.lists f ((sc.lists f).erase p), nrPages := sc.nrPages - 1 }

/-- The counter that goes with a list, on adding a page to it. -/
def countIn (sc : SizeClass) : ListFlag → SizeClass
  | .nfull => { sc with
      nfullentries := sc.nfullentries + 1
      maxNfullentries := max sc.maxNfullentries (sc.nfullentries + 1) }
  | .source | .emptying => { sc with
      sourceentries := sc.sourceentries + 1
      maxSourceentries := max sc.maxSourceentries (sc.sourceentries + 1) }
  | _ => sc

def countOut (sc : SizeClass) : ListFlag → SizeClass
  | .nfull => { sc with nfullentries := sc.nfullentries - 1 }
  | .source | .emptying => { sc with sourceentries := sc.sourceentries - 1 }
  | _ => sc

end SizeClass

section Lists
variable {π : Type}

namespace Heap

def linkPage (f : ListFlag) (c p : Nat) (h : Heap π) : Heap π :=
  (h.modifyClass c fun sc => (sc.addPageToList f p).countIn f).modifyPage p
    fun pg => { pg with listFlags := f }

def unlinkPage (f : ListFlag) (c p : Nat) (h : Heap π) : Heap π :=
  (h.modifyClass c fun sc => (sc.removePageFromList f p).countOut f).modifyPage p
    fun pg => { pg with listFlags := .none }

end Heap

/-- `add_page_to_nfull_list` and its siblings, with the list as a parameter. -/
def addPage (f : ListFlag) (c p : Nat) (h : Heap π) : Except Fault (Heap π) := do
  ensure ((h.pages p).listFlags = .none) .listFlags
  return h.linkPage f c p

/-- `remove_page_from_nfull_list` and its siblings. -/
def removePage (f : ListFlag) (c p : Nat) (h : Heap π) : Except Fault (Heap π) := do
  ensure ((h.pages p).listFlags = f) .listFlags
  return h.unlinkPage f c p

def addPageToNfullList (c p : Nat) (h : Heap π) : Except Fault (Heap π) := addPage .nfull c p h
def addPageToFullList (c p : Nat) (h : Heap π) : Except Fault (Heap π) := addPage .full c p h
def addPageToSourceList (c p : Nat) (h : Heap π) : Except Fault (Heap π) := addPage .source c p h
def addPageToEmptyingList (c p : Nat) (h : Heap π) : Except Fault (Heap π) :=
  addPage .emptying c p h

def removePageFromNfullList (c p : Nat) (h : Heap π) : Except Fault (Heap π) :=
  removePage .nfull c p h
def removePageFromFullList (c p : Nat) (h : Heap π) : Except Fault (Heap π) :=
  removePage .full c p h
def removePageFromSourceList (c p : Nat) (h : Heap π) : Except Fault (Heap π) :=
  removePage .source c p h
def removePageFromEmptyingList (c p : Nat) (h : Heap π) : Except Fault (Heap π) :=
  removePage .emptying c p h

/-- `get_nfull_pages_tail`: `prev` of the list head. -/
def getNfullPagesTail (c : Nat) (h : Heap π) : Option Nat :=
  ((h.classes c).lists .nfull).getLast?

/-- `--p->nr_used_page_blocks`. -/
def Heap.dropUsed (p : Nat) (h : Heap π) : Heap π :=
  h.modifyPage p fun pg => { pg with nrUsedPageBlocks := decrement pg.nrUsedPageBlocks }

/-- The two branches of `get_source_page`. With both lists empty the source takes
the list head for a page. -/
def takeSourcePage (c : Nat) (h : Heap π) : Except Fault (Nat × Heap π) :=
  match (h.classes c).lists .source with
  | p :: _ => do
      let h := h.dropUsed p
      if (h.pages p).nrUsedPageBlocks = 0 then
        let h ← removePageFromSourceList c p h
        let h ← addPageToEmptyingList c p h
        return (p, h)
      else return (p, h)
  | [] =>
    match (h.classes c).lists .nfull with
    | [] => .error .emptyList
    | p :: _ => do
        let h ← removePageFromNfullList c p h
        let h := h.dropUsed p
        if (h.pages p).nrUsedPageBlocks = 0 then
          let h ← addPageToEmptyingList c p h
          return (p, h)
        else
          let h ← addPageToSourceList c p h
          return (p, h)

def getSourcePage (c : Nat) (h : Heap π) : Except Fault (Nat × Heap π) := do
  let (p, h) ← takeSourcePage c h
  return (p, h.modifyPage p fun pg => { pg with sourceentries := increment pg.sourceentries })

/-- The lists hold exactly the pages that carry their flag and class, each once,
and the counters are the lengths. -/
structure ListsOk (h : Heap π) : Prop where
  nodup : ∀ c f, ((h.classes c).lists f).Nodup
  mem : ∀ c f p, p ∈ (h.classes c).lists f ↔
    f ≠ .none ∧ f ≠ .free ∧ (h.pages p).listFlags = f ∧ (h.pages p).sc = c
  nfullentries : ∀ c, (h.classes c).nfullentries = ((h.classes c).lists .nfull).length
  sourceentries : ∀ c, (h.classes c).sourceentries =
    ((h.classes c).lists .source).length + ((h.classes c).lists .emptying).length
  nrPages : ∀ c, (h.classes c).nrPages = ((h.classes c).lists .nfull).length +
    ((h.classes c).lists .full).length + ((h.classes c).lists .source).length +
    ((h.classes c).lists .emptying).length

theorem addPage_ok {f : ListFlag} {c p : Nat} {h : Heap π} (off : (h.pages p).listFlags = .none) :
    addPage f c p h = .ok (h.linkPage f c p) := by
  simp [addPage, ensure, off, bind, Except.bind, pure, Except.pure]

theorem removePage_ok {f : ListFlag} {c p : Nat} {h : Heap π} (listed : (h.pages p).listFlags = f) :
    removePage f c p h = .ok (h.unlinkPage f c p) := by
  simp [removePage, ensure, listed, bind, Except.bind, pure, Except.pure]

@[simp] theorem countIn_lists (sc : SizeClass) (f : ListFlag) :
    (sc.countIn f).lists = sc.lists := by cases f <;> rfl

@[simp] theorem countOut_lists (sc : SizeClass) (f : ListFlag) :
    (sc.countOut f).lists = sc.lists := by cases f <;> rfl

@[simp] theorem countIn_nrPages (sc : SizeClass) (f : ListFlag) :
    (sc.countIn f).nrPages = sc.nrPages := by cases f <;> rfl

@[simp] theorem countOut_nrPages (sc : SizeClass) (f : ListFlag) :
    (sc.countOut f).nrPages = sc.nrPages := by cases f <;> rfl

/-- Linking an unlisted page of the class keeps lists, flags and counters in
step. -/
theorem listsOk_linkPage {f : ListFlag} {c p : Nat} {h : Heap π} (ok : ListsOk h)
    (off : (h.pages p).listFlags = .none) (hc : (h.pages p).sc = c)
    (hf : f ≠ .none ∧ f ≠ .free) : ListsOk (h.linkPage f c p) := by
  have fresh : ∀ d g, p ∉ (h.classes d).lists g := by
    intro d g mem
    obtain ⟨ne, _, flag, _⟩ := (ok.mem d g p).mp mem
    exact ne (flag.symm.trans off)
  constructor
  · intro d g
    by_cases hd : d = c
    · subst hd
      by_cases hg : g = f
      · subst hg
        simpa [Heap.linkPage, SizeClass.addPageToList] using ⟨fresh d g, ok.nodup d g⟩
      · simpa [Heap.linkPage, SizeClass.addPageToList, hg] using ok.nodup d g
    · simpa [Heap.linkPage, hd] using ok.nodup d g
  · intro d g q
    by_cases hd : d = c
    · subst hd
      by_cases hq : q = p
      · subst hq
        by_cases hg : g = f
        · subst hg
          simp [Heap.linkPage, SizeClass.addPageToList, hc, hf]
        · have other : f ≠ g := fun eq => hg eq.symm
          simp [Heap.linkPage, SizeClass.addPageToList, hg, fresh, other]
      · by_cases hg : g = f
        · subst hg
          simpa [Heap.linkPage, SizeClass.addPageToList, hq] using ok.mem d g q
        · simpa [Heap.linkPage, SizeClass.addPageToList, hg, hq] using ok.mem d g q
    · by_cases hq : q = p
      · subst hq
        have away : c ≠ d := fun eq => hd eq.symm
        simp [Heap.linkPage, hd, fresh, hc, away]
      · simpa [Heap.linkPage, hd, hq] using ok.mem d g q
  · intro d
    have was := ok.nfullentries d
    by_cases hd : d = c
    · subst hd
      cases f <;> simp [Heap.linkPage, SizeClass.addPageToList, SizeClass.countIn, was]
    · simpa [Heap.linkPage, hd] using was
  · intro d
    have was := ok.sourceentries d
    by_cases hd : d = c
    · subst hd
      cases f <;> simp [Heap.linkPage, SizeClass.addPageToList, SizeClass.countIn, was] <;> omega
    · simpa [Heap.linkPage, hd] using was
  · intro d
    have was := ok.nrPages d
    by_cases hd : d = c
    · subst hd
      cases f <;> simp_all [Heap.linkPage, SizeClass.addPageToList] <;> omega
    · simpa [Heap.linkPage, hd] using was

theorem listsOk_unlinkPage {f : ListFlag} {c p : Nat} {h : Heap π} (ok : ListsOk h)
    (listed : (h.pages p).listFlags = f) (hc : (h.pages p).sc = c)
    (hf : f ≠ .none ∧ f ≠ .free) : ListsOk (h.unlinkPage f c p) := by
  have mem : p ∈ (h.classes c).lists f := (ok.mem c f p).mpr ⟨hf.1, hf.2, listed, hc⟩
  have size := List.length_erase_of_mem mem
  have pos := List.length_pos_of_mem mem
  have elsewhere : ∀ d g, d ≠ c ∨ g ≠ f → p ∉ (h.classes d).lists g := by
    intro d g ne mem
    obtain ⟨_, _, flag, cls⟩ := (ok.mem d g p).mp mem
    rcases ne with ne | ne
    · exact ne (cls.symm.trans hc)
    · exact ne (flag.symm.trans listed)
  constructor
  · intro d g
    by_cases hd : d = c
    · subst hd
      by_cases hg : g = f
      · subst hg
        simpa [Heap.unlinkPage, SizeClass.removePageFromList] using (ok.nodup d g).erase p
      · simpa [Heap.unlinkPage, SizeClass.removePageFromList, hg] using ok.nodup d g
    · simpa [Heap.unlinkPage, hd] using ok.nodup d g
  · intro d g q
    by_cases hq : q = p
    · subst hq
      have gone : q ∉ ((h.unlinkPage f c q).classes d).lists g := by
        by_cases hd : d = c
        · subst hd
          by_cases hg : g = f
          · subst hg
            simpa [Heap.unlinkPage, SizeClass.removePageFromList] using
              (ok.nodup d g).not_mem_erase
          · simpa [Heap.unlinkPage, SizeClass.removePageFromList, hg] using
              elsewhere d g (.inr hg)
        · simpa [Heap.unlinkPage, hd] using elsewhere d g (.inl hd)
      have off : ((h.unlinkPage f c q).pages q).listFlags = .none := by simp [Heap.unlinkPage]
      constructor
      · exact fun mem => absurd mem gone
      · rintro ⟨ne, _, flag, _⟩
        exact absurd (flag.symm.trans off) ne
    · by_cases hd : d = c
      · subst hd
        by_cases hg : g = f
        · subst hg
          simpa [Heap.unlinkPage, SizeClass.removePageFromList, hq,
            List.mem_erase_of_ne hq] using ok.mem d g q
        · simpa [Heap.unlinkPage, SizeClass.removePageFromList, hg, hq] using ok.mem d g q
      · simpa [Heap.unlinkPage, hd, hq] using ok.mem d g q
  · intro d
    have was := ok.nfullentries d
    by_cases hd : d = c
    · subst hd
      cases f <;> simp_all [Heap.unlinkPage, SizeClass.removePageFromList, SizeClass.countOut]
    · simpa [Heap.unlinkPage, hd] using was
  · intro d
    have was := ok.sourceentries d
    by_cases hd : d = c
    · subst hd
      cases f <;> simp_all [Heap.unlinkPage, SizeClass.removePageFromList, SizeClass.countOut]
        <;> omega
    · simpa [Heap.unlinkPage, hd] using was
  · intro d
    have was := ok.nrPages d
    by_cases hd : d = c
    · subst hd
      cases f <;> simp_all [Heap.unlinkPage, SizeClass.removePageFromList] <;> omega
    · simpa [Heap.unlinkPage, hd] using was

end Lists
end CompactFit
