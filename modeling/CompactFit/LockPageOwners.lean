import CompactFit.LockPageHeaders

/-!
Who has which block while blocks are copied beside other calls. An abstract address has the block
it designates, and a `cf_malloc` has the block it has taken and not named yet. An object is
complete in its block, or it is being copied there and complete in the source block.
-/

namespace CompactFit
namespace LockPage
open Function ByteMemory

def Freeing.target (f : Freeing) : Block := ⟨f.page, f.index⟩

def Copy.source (m : Copy) : Block := ⟨m.srcPage, m.srcIndex⟩

/-- Who has a block: an abstract address, or a thread in `cf_malloc`. -/
inductive Holder where
  | address (a : Nat)
  | thread (t : Nat)

def Kept (live : Live) (P : Nat → Place) (a : Nat) : Prop :=
  live a ≠ none ∨ ∃ t, (P t).keeps = some a

def Copied (P : Nat → Place) (a : Nat) : Prop :=
  ∃ t f m, (P t).copying = some (f, m) ∧ m.srcAa = a

namespace Holder

def Active (live : Live) (P : Nat → Place) : Holder → Prop
  | address a => Kept live P a
  | thread t => (P t).taken ≠ none

def Names (v : View) (P : Nat → Place) (B : Block) : Holder → Prop
  | address a => v.word a = v.start B
  | thread t => (P t).taken = some B

structure Has (v : View) (P : Nat → Place) (x : Holder) (B : Block) : Prop where
  placed : v.Placed B
  names : x.Names v P B

/-- One of the addresses `K`, or thread `t`. -/
def Touched (K : Nat → Prop) (t : Nat) : Holder → Prop
  | address a => K a
  | thread u => u = t

end Holder

/-- The block of address `a` is complete: it names its address and has the bytes of the object. -/
structure Complete (cfg : Config) (v : View) (live : Live) (a : Nat) (B : Block) : Prop where
  back : v.back B = a
  object : ∀ o, live a = some o → v.sc B.page = o.sc ∧ v.Stores cfg B o

/-- A copy that is running. Its object is complete in the source block. -/
structure CopyOk (cfg : Config) (v : View) (live : Live) (f : Freeing) (m : Copy) : Prop where
  placed : v.Placed f.target
  word : v.word m.srcAa = v.start f.target
  value : m.targetAaVal = v.start f.target
  source : v.Placed m.source
  unused : ¬ v.used m.source
  sc : v.sc f.page = f.sc ∧ v.sc m.srcPage = f.sc
  complete : Complete cfg v live m.srcAa m.source
  copied : m.copied ≤ blockSize f.sc
  before : ∀ j, j < m.copied →
    v.memory (v.start f.target + j) = v.memory (v.start m.source + j)

structure Owners (cfg : Config) (v : View) (live : Live) (P : Nat → Place) : Prop where
  has : ∀ x : Holder, x.Active live P → ∃ B, v.used B ∧ x.Has v P B
  inj : ∀ (x y : Holder) B, x.Active live P → y.Active live P → x.Has v P B → y.Has v P B → x = y
  owned : ∀ B, v.used B → ∃ x : Holder, x.Active live P ∧ x.Has v P B
  complete : ∀ a B, Kept live P a → ¬ Copied P a → Holder.Has v P (.address a) B →
    Complete cfg v live a B
  copy : ∀ t f m, (P t).copying = some (f, m) → Kept live P m.srcAa ∧ CopyOk cfg v live f m
  alone : ∀ t u f m f' m', (P t).copying = some (f, m) → (P u).copying = some (f', m') →
    m.srcAa = m'.srcAa → t = u

/-! ### Carrying the facts over a change of the view -/

section Transport
variable {cfg : Config} {v v' : View} {live live' : Live} {P P' : Nat → Place} {x : Holder}
  {a : Nat} {B C : Block} {f : Freeing} {m : Copy}

theorem Holder.Has.unique (hB : x.Has v P B) (hC : x.Has v P C) : B = C := by
  cases x with
  | address a => exact hB.placed.start_inj hC.placed (hB.names.symm.trans hC.names)
  | thread t => exact Option.some.inj (hB.names.symm.trans hC.names)

theorem Holder.Has.congr (has : x.Has v P B) (sc : v'.sc B.page = v.sc B.page)
    (word : ∀ a, x = .address a → v'.word a = v.word a)
    (taken : ∀ t, x = .thread t → (P' t).taken = (P t).taken) : x.Has v' P' B := by
  refine ⟨has.placed.congr sc, ?_⟩
  cases x with
  | address a => exact (word a rfl).trans (has.names.trans (View.start_congr sc).symm)
  | thread t => exact (taken t rfl).trans has.names

theorem Holder.Has.of_address (has : Holder.Has v P (.address a) B)
    (sc : v'.sc B.page = v.sc B.page)
    (word : v'.word a = v.word a) : Holder.Has v' P' (.address a) B :=
  ⟨has.placed.congr sc, word.trans (has.names.trans (View.start_congr sc).symm)⟩

theorem Complete.transport (complete : Complete cfg v live a B) (placed : v.Placed B)
    (same : v.Same v' B) (sub : ∀ o, live' a = some o → live a = some o) :
    Complete cfg v' live' a B := by
  refine ⟨(same.back placed).trans complete.back, fun o now => ?_⟩
  obtain ⟨sc, stores⟩ := complete.object o (sub o now)
  exact ⟨same.sc.trans sc, same.stores placed stores⟩

theorem CopyOk.size (ok : CopyOk cfg v live f m) :
    v.size f.target = blockSize f.sc ∧ v.size m.source = blockSize f.sc := by
  simp only [View.size, Freeing.target, Copy.source, ok.sc, and_self]

theorem CopyOk.transport (ok : CopyOk cfg v live f m) (target : v.Same v' f.target)
    (source : v.Same v' m.source) (unused : ¬ v'.used m.source)
    (word : v'.word m.srcAa = v.word m.srcAa)
    (sub : ∀ o, live' m.srcAa = some o → live m.srcAa = some o) : CopyOk cfg v' live' f m := by
  have sizes := ok.size
  have copied := ok.copied
  refine ⟨target.placed ok.placed, ?_, ?_, source.placed ok.source, unused, ?_,
    ok.complete.transport ok.source source sub, copied, fun j hj => ?_⟩
  · rw [word, target.start, ok.word]
  · rw [target.start, ok.value]
  · exact ⟨target.sc.trans ok.sc.1, source.sc.trans ok.sc.2⟩
  · rw [target.start, source.start, target.memory j (by omega), source.memory j (by omega)]
    exact ok.before j hj

/-- A target block with all bytes of the source block is complete. -/
theorem CopyOk.done (ok : CopyOk cfg v live f m) (done : blockSize f.sc ≤ m.copied) :
    Complete cfg v live m.srcAa f.target := by
  have sizes := ok.size
  have bytes : ∀ j, j < blockSize f.sc →
      v.memory (v.start f.target + j) = v.memory (v.start m.source + j) :=
    fun j hj => ok.before j (Nat.lt_of_lt_of_le hj done)
  have size := ok.placed.size_ge
  refine ⟨?_, fun o now => ?_⟩
  · rw [← ok.complete.back, ok.placed.back_eq, ok.source.back_eq, sizes.1, sizes.2]
    refine readWord_congr fun j hj => ?_
    rw [Nat.add_assoc, Nat.add_assoc]
    exact bytes _ (by omega)
  · obtain ⟨sc, stores⟩ := ok.complete.object o now
    have pages : v.sc m.source.page = v.sc f.target.page := ok.sc.2.trans ok.sc.1.symm
    refine ⟨pages.symm.trans sc, fun j hj user => ?_⟩
    have bound : View.userBytes cfg (v.size f.target) ≤ v.size f.target := by
      simp only [View.userBytes]
      split <;> omega
    rw [bytes j (by omega)]
    exact stores j hj (by rw [sizes.2, ← sizes.1]; exact user)

end Transport

namespace Owners
variable {cfg : Config} {v v' : View} {live live' : Live} {P P' : Nat → Place} {t a : Nat}
  {x y : Holder} {B C : Block} {f : Freeing} {m : Copy} {place' : Place}

theorem used (owners : Owners cfg v live P) (active : x.Active live P) (has : x.Has v P B) :
    v.used B := by
  obtain ⟨C, used, hasC⟩ := owners.has x active
  rw [has.unique hasC]
  exact used

theorem target_has (owners : Owners cfg v live P) (copying : (P t).copying = some (f, m)) :
    Holder.Has v P (.address m.srcAa) f.target :=
  ⟨(owners.copy t f m copying).2.placed, (owners.copy t f m copying).2.word⟩

theorem target_used (owners : Owners cfg v live P) (copying : (P t).copying = some (f, m)) :
    v.used f.target :=
  owners.used (x := .address m.srcAa) (owners.copy t f m copying).1 (owners.target_has copying)

theorem congr (owners : Owners cfg v live P) (keeps : v.Keeps v' fun _ => False)
    (used : ∀ B, v'.used B ↔ v.used B)
    (kept : ∀ a, Kept live' P' a ↔ Kept live P a) (taken : ∀ t, (P' t).taken = (P t).taken)
    (copying : ∀ t, (P' t).copying = (P t).copying)
    (word : ∀ a, Kept live P a → v'.word a = v.word a)
    (sources : ∀ t f m, (P t).copying = some (f, m) → v'.InUse m.srcPage)
    (sub : ∀ a o, live' a = some o → live a = some o) : Owners cfg v' live' P' := by
  have active : ∀ x : Holder, x.Active live' P' ↔ x.Active live P := by
    rintro (a | t)
    · exact kept a
    · exact not_congr (by rw [taken t])
  have copied : ∀ a, Copied P' a ↔ Copied P a := fun a => by simp only [Copied, copying]
  have moved : ∀ x B, Holder.Active live P x → x.Has v P B → x.Has v' P' B := by
    intro x B act has
    have sc := keeps.sc _ (View.used_inUse ((used B).mpr (owners.used act has)))
    refine has.congr sc (fun a eq => word a ?_) fun t _ => taken t
    subst eq
    exact act
  have back : ∀ x B, Holder.Active live P x → x.Has v' P' B → x.Has v P B := by
    intro x B act has
    obtain ⟨C, _, hasC⟩ := owners.has x act
    rw [has.unique (moved x C act hasC)]
    exact hasC
  refine ⟨?_, ?_, ?_, ?_, ?_, ?_⟩
  · intro x act
    have act := (active x).mp act
    obtain ⟨B, usedB, has⟩ := owners.has x act
    exact ⟨B, (used B).mpr usedB, moved x B act has⟩
  · intro x y B actX actY hasX hasY
    have actX := (active x).mp actX
    have actY := (active y).mp actY
    exact owners.inj x y B actX actY (back x B actX hasX) (back y B actY hasY)
  · intro B usedB
    obtain ⟨x, act, has⟩ := owners.owned B ((used B).mp usedB)
    exact ⟨x, (active x).mpr act, moved x B act has⟩
  · intro a B keptA notCopied has
    have act := (kept a).mp keptA
    have hasV := back (.address a) B act has
    have complete := owners.complete a B act (fun h => notCopied ((copied a).mpr h)) hasV
    have usedB := (used B).mpr (owners.used (x := .address a) act hasV)
    exact complete.transport hasV.placed (keeps.same id hasV.placed (View.used_inUse usedB)) (sub a)
  · intro t f m copy
    rw [copying] at copy
    obtain ⟨keptA, ok⟩ := owners.copy t f m copy
    have usedT := (used _).mpr (owners.target_used copy)
    exact ⟨(kept _).mpr keptA, ok.transport (keeps.same id ok.placed (View.used_inUse usedT))
      (keeps.same id ok.source (sources t f m copy)) (fun h => ok.unused ((used _).mp h))
      (word _ keptA) (sub _)⟩
  · intro t u f m f' m' copy copy'
    rw [copying] at copy copy'
    exact owners.alone t u f m f' m' copy copy'

/-- A step is local to the holders `K`: it has to establish the invariant for these, and
everything else carries over. -/
theorem local_step (owners : Owners cfg v live P) (K : Holder → Prop) {changed : Block → Prop}
    (keeps : v.Keeps v' changed) (others : ∀ u, ¬ K (.thread u) → P' u = P u)
    (single : ∀ u u', K (.thread u) → K (.thread u') → u = u')
    (kept : ∀ a, ¬ K (.address a) → (Kept live' P' a ↔ Kept live P a))
    (fixed : ∀ x B, ¬ K x → x.Active live P → x.Has v P B → ¬ changed B ∧ v'.used B)
    (word : ∀ a, ¬ K (.address a) → Kept live P a → v'.word a = v.word a)
    (sameLive : ∀ a, ¬ K (.address a) → live' a = live a)
    (sources : ∀ u f m, ¬ K (.thread u) → (P u).copying = some (f, m) →
      ¬ K (.address m.srcAa) ∧ ¬ changed m.source ∧ ¬ v'.used m.source ∧ v'.InUse m.srcPage)
    (was : ∀ u f m, K (.thread u) → (P u).copying = some (f, m) → K (.address m.srcAa))
    (has : ∀ x, K x → x.Active live' P' → ∃ B, v'.used B ∧ x.Has v' P' B)
    (inj : ∀ x y B, K x → K y → x.Active live' P' → y.Active live' P' → x.Has v' P' B →
      y.Has v' P' B → x = y)
    (apart : ∀ x y B, K x → ¬ K y → x.Active live' P' → x.Has v' P' B → y.Active live P →
      y.Has v P B → False)
    (owned : ∀ B, v'.used B → ((∃ x, K x ∧ x.Active live P ∧ x.Has v P B) ∨ ¬ v.used B) →
      ∃ x : Holder, x.Active live' P' ∧ x.Has v' P' B)
    (complete : ∀ a B, K (.address a) → Kept live' P' a → ¬ Copied P' a →
      Holder.Has v' P' (.address a) B → Complete cfg v' live' a B)
    (copy : ∀ u f m, K (.thread u) → (P' u).copying = some (f, m) →
      K (.address m.srcAa) ∧ Kept live' P' m.srcAa ∧ CopyOk cfg v' live' f m) :
    Owners cfg v' live' P' := by
  have active : ∀ x, ¬ K x → (Holder.Active live' P' x ↔ x.Active live P) := by
    rintro (a | u) notK
    · exact kept a notK
    · exact not_congr (by rw [others u notK])
  have copied : ∀ a, ¬ K (.address a) → Copied P a → Copied P' a := by
    rintro a notK ⟨u, f, m, copying, eq⟩
    have notU : ¬ K (.thread u) := fun hu => notK (eq ▸ was u f m hu copying)
    exact ⟨u, f, m, by rw [others u notU, copying], eq⟩
  have moved : ∀ x B, ¬ K x → x.Active live P → x.Has v P B → x.Has v' P' B := by
    intro x B notK act has
    obtain ⟨_, usedB⟩ := fixed x B notK act has
    refine has.congr (keeps.sc _ (View.used_inUse usedB)) ?_ ?_
    · rintro a rfl
      exact word a notK act
    · rintro u rfl
      rw [others u notK]
  have back : ∀ x B, ¬ K x → x.Active live P → x.Has v' P' B → x.Has v P B := by
    intro x B notK act has
    obtain ⟨C, _, hasC⟩ := owners.has x act
    rw [has.unique (moved x C notK act hasC)]
    exact hasC
  refine ⟨?_, ?_, ?_, ?_, ?_, ?_⟩
  · intro x act
    by_cases hK : K x
    · exact has x hK act
    · have act := (active x hK).mp act
      obtain ⟨B, _, hasB⟩ := owners.has x act
      exact ⟨B, (fixed x B hK act hasB).2, moved x B hK act hasB⟩
  · intro x y B actX actY hasX hasY
    by_cases hX : K x <;> by_cases hY : K y
    · exact inj x y B hX hY actX actY hasX hasY
    · have oldY := (active y hY).mp actY
      exact (apart x y B hX hY actX hasX oldY (back y B hY oldY hasY)).elim
    · have oldX := (active x hX).mp actX
      exact (apart y x B hY hX actY hasY oldX (back x B hX oldX hasX)).elim
    · have oldX := (active x hX).mp actX
      have oldY := (active y hY).mp actY
      exact owners.inj x y B oldX oldY (back x B hX oldX hasX) (back y B hY oldY hasY)
  · intro B usedB
    by_cases touched : (∃ x, K x ∧ x.Active live P ∧ x.Has v P B) ∨ ¬ v.used B
    · exact owned B usedB touched
    · push Not at touched
      obtain ⟨x, act, hasB⟩ := owners.owned B touched.2
      have hK : ¬ K x := fun hK => touched.1 x hK act hasB
      exact ⟨x, (active x hK).mpr act, moved x B hK act hasB⟩
  · intro a B keptA notCopied hasB
    by_cases hK : K (.address a)
    · exact complete a B hK keptA notCopied hasB
    · have act := (kept a hK).mp keptA
      have old := back (.address a) B hK act hasB
      obtain ⟨unchanged, usedB⟩ := fixed (.address a) B hK act old
      have whole := owners.complete a B act (fun h => notCopied (copied a hK h)) old
      refine whole.transport old.placed
        (keeps.same unchanged old.placed (View.used_inUse usedB)) fun o now => ?_
      rw [← sameLive a hK]
      exact now
  · intro u f m copying
    by_cases hu : K (.thread u)
    · exact (copy u f m hu copying).2
    · rw [others u hu] at copying
      obtain ⟨notK, unchanged, unused, inUse⟩ := sources u f m hu copying
      obtain ⟨keptA, ok⟩ := owners.copy u f m copying
      obtain ⟨fixedT, usedT⟩ := fixed _ _ notK keptA (owners.target_has copying)
      refine ⟨(kept _ notK).mpr keptA, ok.transport
        (keeps.same fixedT ok.placed (View.used_inUse usedT))
        (keeps.same unchanged ok.source inUse) unused (word _ notK keptA) fun o now => ?_⟩
      rw [← sameLive _ notK]
      exact now
  · intro u u' f m f' m' copying copying' eq
    by_cases hu : K (.thread u) <;> by_cases hu' : K (.thread u')
    · exact single u u' hu hu'
    · rw [others u' hu'] at copying'
      exact absurd (eq ▸ (copy u f m hu copying).1) (sources u' f' m' hu' copying').1
    · rw [others u hu] at copying
      exact absurd (eq ▸ (copy u' f' m' hu' copying').1) (sources u f m hu copying).1
    · rw [others u hu] at copying
      rw [others u' hu'] at copying'
      exact owners.alone u u' f m f' m' copying copying' eq

/-! ### The steps of a thread -/

theorem kept_update (same : live' a = live a)
    (keeps : place'.keeps = some a ↔ (P t).keeps = some a) :
    Kept live' (update P t place') a ↔ Kept live P a := by
  simp only [Kept, same]
  refine or_congr_right ⟨?_, ?_⟩
  · rintro ⟨u, hu⟩
    by_cases eq : u = t
    · subst eq
      rw [update_self] at hu
      exact ⟨u, keeps.mp hu⟩
    · rw [update_of_ne eq] at hu
      exact ⟨u, hu⟩
  · rintro ⟨u, hu⟩
    by_cases eq : u = t
    · subst eq
      refine ⟨u, ?_⟩
      rw [update_self]
      exact keeps.mpr hu
    · refine ⟨u, ?_⟩
      rw [update_of_ne eq]
      exact hu

/-- A step that gives the block of `x` to `y`, and no other block to any holder. -/
theorem hand_over (owners : Owners cfg v live P) (K : Holder → Prop) (x y : Holder)
    (memory : v.Keeps v' (· = B)) (others : ∀ u, ¬ K (.thread u) → P' u = P u)
    (single : ∀ u u', K (.thread u) → K (.thread u') → u = u')
    (kept : ∀ a, ¬ K (.address a) → (Kept live' P' a ↔ Kept live P a))
    (was : K x ∧ x.Active live P ∧ x.Has v P B)
    (now : K y ∧ y.Active live' P' ∧ y.Has v' P' B) (usedB : v'.used B)
    (only : ∀ z, K z → z.Active live' P' → z = y)
    (used : ∀ C, v'.used C ↔ v.used C ∧
      (C ≠ B → ∀ z, K z → z.Active live P → ¬ z.Has v P C))
    (word : ∀ a, ¬ K (.address a) → Kept live P a → v'.word a = v.word a)
    (sameLive : ∀ a, ¬ K (.address a) → live' a = live a)
    (sources : ∀ u f m, ¬ K (.thread u) → (P u).copying = some (f, m) →
      ¬ K (.address m.srcAa) ∧ v'.InUse m.srcPage)
    (copies : ∀ u f m, K (.thread u) → (P u).copying = some (f, m) → K (.address m.srcAa))
    (complete : ∀ a, y = .address a → ¬ Copied P' a → Complete cfg v' live' a B)
    (copy : ∀ u f m, K (.thread u) → (P' u).copying = some (f, m) →
      K (.address m.srcAa) ∧ Kept live' P' m.srcAa ∧ CopyOk cfg v' live' f m) :
    Owners cfg v' live' P' := by
  obtain ⟨hX, actX, hasX⟩ := was
  obtain ⟨hY, actY, hasY⟩ := now
  have foreign : ∀ z C, ¬ K z → z.Active live P → z.Has v P C → C ≠ B := by
    rintro z C hZ actZ hasZ rfl
    exact hZ (owners.inj x z C actX actZ hasX hasZ ▸ hX)
  refine owners.local_step K memory others single kept ?_ word sameLive ?_ copies
    ?_ ?_ ?_ ?_ ?_ copy
  · intro z C hZ actZ hasZ
    refine ⟨foreign z C hZ actZ hasZ, (used C).mpr
      ⟨owners.used actZ hasZ, fun _ w hW actW hasW => ?_⟩⟩
    exact hZ (owners.inj w z C actW actZ hasW hasZ ▸ hW)
  · intro u f m hu copying
    have unused := (owners.copy u f m copying).2.unused
    obtain ⟨notK, inUse⟩ := sources u f m hu copying
    refine ⟨notK, fun eq => unused ?_, fun usedS => unused ((used _).mp usedS).1, inUse⟩
    rw [eq]
    exact owners.used actX hasX
  · intro z hZ actZ
    rw [only z hZ actZ]
    exact ⟨B, usedB, hasY⟩
  · intro z w C hZ hW actZ actW _ _
    rw [only z hZ actZ, only w hW actW]
  · intro z w C hZ hW actZ hasZ actW hasW
    rw [only z hZ actZ] at hasZ
    exact foreign w C hW actW hasW (hasZ.unique hasY)
  · intro C usedC touched
    obtain ⟨old, free⟩ := (used C).mp usedC
    rcases touched with ⟨z, hZ, actZ, hasZ⟩ | new
    · have eq : C = B := by
        by_contra ne
        exact free ne z hZ actZ hasZ
      rw [eq]
      exact ⟨y, actY, hasY⟩
    · exact absurd old new
  · intro a C hA keptA notCopied hasA
    have eq := only (.address a) hA keptA
    subst eq
    rw [hasA.unique hasY]
    exact complete a rfl notCopied

theorem touched_only {K : Nat → Prop} (free : place'.taken = none) {y : Holder}
    (only : ∀ a, K a → Kept live' (update P t place') a → .address a = y) :
    ∀ z : Holder, z.Touched K t → z.Active live' (update P t place') → z = y := by
  rintro (a | u) touched act
  · exact only a touched act
  · cases touched
    simp only [Holder.Active, update_self, free, ne_eq, not_true_eq_false] at act

/-- The blocks of the holders `K` are all `B`, and stay. -/
theorem used_same {K : Holder → Prop} (used : v'.used = v.used)
    (all : ∀ z C, K z → z.Active live P → z.Has v P C → C = B) (C : Block) :
    v'.used C ↔ v.used C ∧ (C ≠ B → ∀ z, K z → z.Active live P → ¬ z.Has v P C) := by
  rw [used]
  exact ⟨fun usedC => ⟨usedC, fun ne z hZ act has => ne (all z C hZ act has)⟩, fun h => h.1⟩

theorem touched_all (free : (P t).taken = none) (has : Holder.Has v P (.address a) B) :
    ∀ (z : Holder) C, z.Touched (· = a) t → z.Active live P → z.Has v P C → C = B := by
  rintro (b | u) C touched act hasC
  · cases touched
    exact hasC.unique has
  · cases touched
    exact absurd free act

theorem not_kept_of_lost (dead : live a = none) (only : ∀ u, (P u).keeps = some a → u = t)
    (lost : place'.keeps = none) : ¬ Kept live (update P t place') a := by
  rintro (alive | ⟨u, keeps⟩)
  · exact alive dead
  · by_cases hu : u = t
    · rw [hu, update_self, lost] at keeps
      cases keeps
    · rw [update_of_ne hu] at keeps
      exact hu (only u keeps)

/-- A `cf_malloc` takes an unused block of a page without source entries. -/
theorem take (owners : Owners cfg v live P)
    (before : (P t).keeps = none ∧ (P t).taken = none ∧ (P t).copying = none)
    (after : place'.keeps = none ∧ place'.taken = some B ∧ place'.copying = none)
    (placed : v.Placed B) (unused : ¬ v.used B) (empty : v.entries B.page = 0)
    (pinned : ∀ u f m, (P u).copying = some (f, m) → 0 < v.entries m.srcPage)
    (used : ∀ C, v'.used C ↔ v.used C ∨ C = B) (entries : v'.entries = v.entries)
    (sc : v'.sc = v.sc) (memory : v'.memory = v.memory) (word : v'.word = v.word) :
    Owners cfg v' live (update P t place') := by
  have mine : ∀ {x : Holder} {C}, x = .thread t → x.Has v' (update P t place') C → C = B := by
    rintro x C rfl has
    have names := has.names
    simp only [Holder.Names, update_self, after.2.1, Option.some.injEq] at names
    exact names.symm
  have keeps : v.Keeps v' fun _ => False :=
    ⟨fun _ _ => by rw [sc], fun _ _ _ _ => by rw [memory]; exact .refl _ _ _⟩
  refine owners.local_step (· = .thread t) keeps
    (fun u hu => update_of_ne (fun eq => hu (congrArg _ eq)) _ _)
    (fun u u' hu hu' => Holder.thread.inj (hu.trans hu'.symm))
    (fun a _ => kept_update rfl (by simp only [before.1, after.1]))
    (fun x C _ act has => ⟨id, (used C).mpr (.inl (owners.used act has))⟩)
    (fun a _ _ => by rw [word]) (fun _ _ => rfl) ?_ ?_ ?_ ?_ ?_ ?_
    (fun _ _ eq => by cases eq) ?_
  · intro u f m _ copying
    have pos := pinned u f m copying
    refine ⟨fun eq => (by cases eq), id, fun now => ?_, .inr (by rw [entries]; exact pos)⟩
    rcases (used _).mp now with old | eq
    · exact (owners.copy u f m copying).2.unused old
    · have page : m.srcPage = B.page := congrArg Block.page eq
      rw [page] at pos
      omega
  · rintro u f m ⟨⟩ copying
    rw [before.2.2] at copying
    cases copying
  · rintro x rfl _
    refine ⟨B, (used B).mpr (.inr rfl), placed.congr (by rw [sc]), ?_⟩
    simp only [Holder.Names, update_self, after.2.1]
  · rintro x y C rfl rfl _ _ _ _
    rfl
  · intro x y C hX _ _ hasX actY hasY
    rw [mine hX hasX] at hasY
    exact unused (owners.used actY hasY)
  · intro C now touched
    have eq : C = B := by
      rcases touched with ⟨x, rfl, act, _⟩ | new
      · exact absurd before.2.1 act
      · exact ((used C).mp now).resolve_left new
    subst eq
    refine ⟨.thread t, ?_, placed.congr (by rw [sc]), ?_⟩
    · simp [Holder.Active, after.2.1]
    · simp only [Holder.Names, update_self, after.2.1]
  · rintro u f m ⟨⟩ copying
    rw [update_self, after.2.2] at copying
    cases copying

theorem drop (owners : Owners cfg v live P)
    (before : (P t).keeps = some a ∧ (P t).taken = none ∧ (P t).copying = none)
    (after : place'.keeps = none ∧ place'.taken = none ∧ place'.copying = none)
    (dead : live a = none) (only : ∀ u, (P u).keeps = some a → u = t) (still : ¬ Copied P a)
    (has : Holder.Has v P (.address a) B)
    (pinned : ∀ u f m, (P u).copying = some (f, m) → 0 < v.entries m.srcPage)
    (used : ∀ C, v'.used C ↔ v.used C ∧ C ≠ B) (entries : v'.entries = v.entries)
    (sc : v'.sc = v.sc) (memory : v'.memory = v.memory) (word : v'.word = v.word) :
    Owners cfg v' live (update P t place') := by
  have active : Holder.Active live P (.address a) := .inr ⟨t, before.1⟩
  have lost := not_kept_of_lost dead only after.1
  have mine : ∀ {x : Holder}, x.Touched (· = a) t → ¬ x.Active live (update P t place') := by
    rintro (b | u) touched act
    · cases touched
      exact lost act
    · cases touched
      exact absurd after.2.1 (by simpa only [Holder.Active, update_self] using act)
  have keeps : v.Keeps v' fun _ => False :=
    ⟨fun _ _ => by rw [sc], fun _ _ _ _ => by rw [memory]; exact .refl _ _ _⟩
  refine owners.local_step (Holder.Touched (· = a) t) keeps
    (fun u hu => update_of_ne hu _ _) (fun u u' hu hu' => hu.trans hu'.symm)
    (fun b ne => kept_update rfl ?_) ?_ (fun _ _ _ => by rw [word]) (fun _ _ => rfl) ?_ ?_
    (fun x hX act => absurd act (mine hX)) (fun x _ _ hX _ act => absurd act (mine hX))
    (fun x _ _ hX _ act => absurd act (mine hX)) ?_ ?_ ?_
  · simp only [before.1, after.1, Option.some.injEq, reduceCtorEq, false_iff]
    exact fun eq => ne eq.symm
  · intro x C notTouched act hasC
    refine ⟨id, (used C).mpr ⟨owners.used act hasC, ?_⟩⟩
    rintro rfl
    have same := owners.inj _ _ _ act active hasC has
    subst same
    exact notTouched rfl
  · intro u f m _ copying
    refine ⟨fun eq => still ⟨u, f, m, copying, eq⟩, id, fun now => ?_,
      .inr (by rw [entries]; exact pinned u f m copying)⟩
    exact (owners.copy u f m copying).2.unused ((used _).mp now).1
  · rintro u f m rfl copying
    rw [before.2.2] at copying
    cases copying
  · intro C now touched
    obtain ⟨usedC, ne⟩ := (used C).mp now
    rcases touched with ⟨b | u, touched, act, hasC⟩ | new
    · cases touched
      exact absurd (hasC.unique has) ne
    · cases touched
      exact absurd before.2.1 act
    · exact absurd usedC new
  · rintro b C rfl kept
    exact absurd kept lost
  · rintro u f m rfl copying
    rw [update_self, after.2.2] at copying
    cases copying

/-- The block that a `cf_malloc` has taken gets the address `a`, which designates none. -/
theorem name (owners : Owners cfg v live P)
    (before : (P t).keeps = none ∧ (P t).taken = some B ∧ (P t).copying = none)
    (after : place'.keeps = some a ∧ place'.taken = none ∧ place'.copying = none)
    (fresh : ¬ Kept live P a)
    (pinned : ∀ u f m, (P u).copying = some (f, m) → 0 < v.entries m.srcPage)
    (used : v'.used = v.used) (entries : v'.entries = v.entries) (sc : v'.sc = v.sc)
    (memory : ∀ C, C ≠ B → v.Placed C → AgreeOn v.memory v'.memory (v.start C) (v.size C))
    (back : v'.back B = a) (word : v'.word a = v.start B)
    (words : ∀ b, Kept live P b → v'.word b = v.word b) :
    Owners cfg v' live (update P t place') := by
  have active : Holder.Active live P (.thread t) := by simp [Holder.Active, before.2.1]
  obtain ⟨C, usedB, has⟩ := owners.has (.thread t) active
  have eq : B = C := Option.some.inj (before.2.1.symm.trans has.names)
  subst eq
  have has' : Holder.Has v' (update P t place') (.address a) B :=
    ⟨has.placed.congr (by rw [sc]), word.trans (View.start_congr (by rw [sc])).symm⟩
  have kept : Kept live (update P t place') a := .inr ⟨t, by rw [update_self]; exact after.1⟩
  refine owners.hand_over (Holder.Touched (· = a) t) (.thread t) (.address a)
    ⟨fun _ _ => by rw [sc], fun D ne placed _ => memory D ne placed⟩
    (fun u hu => update_of_ne hu _ _) (fun u u' hu hu' => hu.trans hu'.symm)
    (fun b ne => kept_update rfl ?_) ⟨rfl, active, has⟩ ⟨rfl, kept, has'⟩ (used ▸ usedB)
    (touched_only after.2.1 fun b eq _ => congrArg _ eq) (used_same used ?_)
    (fun b _ h => words b h) (fun _ _ => rfl) ?_ ?_ ?_ ?_
  · simp only [before.1, after.1, Option.some.injEq, reduceCtorEq, iff_false]
    exact fun eq => ne eq.symm
  · rintro (b | u) D touched act hasD
    · cases touched
      exact absurd act fresh
    · cases touched
      exact hasD.unique has
  · intro u f m _ copying
    refine ⟨?_, .inr (by rw [entries]; exact pinned u f m copying)⟩
    rintro rfl
    exact fresh (owners.copy u f m copying).1
  · rintro u f m rfl copying
    rw [before.2.2] at copying
    cases copying
  · rintro _ ⟨⟩ _
    refine ⟨back, fun o now => ?_⟩
    exact absurd (.inl (by rw [now]; simp)) fresh
  · rintro u f m rfl copying
    rw [update_self, after.2.2] at copying
    cases copying

theorem give (owners : Owners cfg v live P) {o : Obj}
    (before : (P t).keeps = some a ∧ (P t).taken = none ∧ (P t).copying = none)
    (after : place'.keeps = none ∧ place'.taken = none ∧ place'.copying = none)
    (still : ¬ Copied P a)
    (pinned : ∀ u f m, (P u).copying = some (f, m) → 0 < v.entries m.srcPage)
    (complete : ∀ B, Holder.Has v P (.address a) B →
      Complete cfg v (update live a (some o)) a B) :
    Owners cfg v (update live a (some o)) (update P t place') := by
  have active : Holder.Active live P (.address a) := .inr ⟨t, before.1⟩
  obtain ⟨B, usedB, has⟩ := owners.has (.address a) active
  have has' : Holder.Has v (update P t place') (.address a) B := has.of_address rfl rfl
  have kept : Kept (update live a (some o)) (update P t place') a := by
    left
    rw [update_self]
    simp
  refine owners.hand_over (Holder.Touched (· = a) t) (.address a) (.address a)
    ⟨fun _ _ => rfl, fun _ _ _ _ => .refl _ _ _⟩ (fun u hu => update_of_ne hu _ _)
    (fun u u' hu hu' => hu.trans hu'.symm) (fun b ne => kept_update (update_of_ne ne _ _) ?_)
    ⟨rfl, active, has⟩ ⟨rfl, kept, has'⟩ usedB (touched_only after.2.1 fun b eq _ => congrArg _ eq)
    (used_same rfl (touched_all before.2.1 has)) (fun _ _ _ => rfl)
    (fun b ne => update_of_ne ne _ _) ?_ ?_ ?_ ?_
  · simp only [before.1, after.1, Option.some.injEq, reduceCtorEq, false_iff]
    exact fun eq => ne eq.symm
  · intro u f m _ copying
    exact ⟨fun eq => still ⟨u, f, m, copying, eq⟩, .inr (pinned u f m copying)⟩
  · rintro u f m rfl copying
    rw [before.2.2] at copying
    cases copying
  · rintro _ ⟨⟩ _
    exact complete B has
  · rintro u f m rfl copying
    rw [update_self, after.2.2] at copying
    cases copying

/-- A `cf_free` gives its block to the object of a source block, whose bytes it copies from
now on. -/
theorem select (owners : Owners cfg v live P) (before : (P t).keeps = some f.address ∧
      (P t).taken = none ∧ (P t).copying = none)
    (after : place'.keeps = none ∧ place'.taken = none ∧ place'.copying = some (f, m))
    (dead : live f.address = none) (only : ∀ u, (P u).keeps = some f.address → u = t)
    (still : ¬ Copied P f.address) (has : Holder.Has v P (.address f.address) f.target)
    (kept : Kept live P m.srcAa) (stillS : ¬ Copied P m.srcAa)
    (hasS : Holder.Has v P (.address m.srcAa) m.source) (ne : f.target ≠ m.source)
    (same : v.sc f.page = f.sc ∧ v.sc m.srcPage = f.sc)
    (value : m.targetAaVal = v.start f.target) (copied : m.copied = 0)
    (pinned : ∀ u f m, (P u).copying = some (f, m) → 0 < v.entries m.srcPage)
    (used : ∀ C, v'.used C ↔ v.used C ∧ C ≠ m.source) (entries : v'.entries = v.entries)
    (sc : v'.sc = v.sc) (memory : v'.memory = v.memory)
    (word : v'.word m.srcAa = v.start f.target)
    (words : ∀ b, b ≠ m.srcAa → v'.word b = v.word b) :
    Owners cfg v' live (update P t place') := by
  have active : Holder.Active live P (.address f.address) := .inr ⟨t, before.1⟩
  have usedT := owners.used active has
  have addresses : m.srcAa ≠ f.address := by
    intro eq
    rw [eq] at hasS
    exact ne (has.unique hasS)
  have lost := not_kept_of_lost dead only after.1
  have kept' : Kept live (update P t place') m.srcAa := by
    refine (kept_update rfl ?_).mpr kept
    simp only [before.1, after.1, Option.some.injEq, reduceCtorEq, false_iff]
    exact fun eq => addresses eq.symm
  have start : v'.start f.target = v.start f.target := View.start_congr (by rw [sc])
  have hasT : Holder.Has v' (update P t place') (.address m.srcAa) f.target :=
    ⟨has.placed.congr (by rw [sc]), word.trans start.symm⟩
  refine owners.hand_over (Holder.Touched (fun b => b = f.address ∨ b = m.srcAa) t)
    (.address f.address) (.address m.srcAa)
    ⟨fun _ _ => by rw [sc], fun _ _ _ _ => by rw [memory]; exact .refl _ _ _⟩
    (fun u hu => update_of_ne hu _ _) (fun u u' hu hu' => hu.trans hu'.symm)
    (fun b notK => kept_update rfl ?_) ⟨.inl rfl, active, has⟩ ⟨.inr rfl, kept', hasT⟩
    ((used _).mpr ⟨usedT, ne⟩) (touched_only after.2.1 ?_) (fun C => ?_)
    (fun b notK _ => words b fun eq => notK (.inr eq)) (fun _ _ => rfl) ?_ ?_ ?_ ?_
  · simp only [before.1, after.1, Option.some.injEq, reduceCtorEq, false_iff]
    exact fun eq => notK (.inl eq.symm)
  · rintro b (rfl | rfl) keptB
    · exact absurd keptB lost
    · rfl
  · rw [used]
    refine and_congr_right fun usedC => ⟨fun neC neT => ?_, fun free eq => ?_⟩
    · rintro (b | u) touched act hasC
      · rcases touched with rfl | rfl
        · exact neT (hasC.unique has)
        · exact neC (hasC.unique hasS)
      · cases touched
        exact act before.2.1
    · subst eq
      exact free ne.symm (.address m.srcAa) (.inr rfl) kept hasS
  · intro u g n _ copying
    refine ⟨?_, .inr (by rw [entries]; exact pinned u g n copying)⟩
    rintro (eq | eq)
    · exact still ⟨u, g, n, copying, eq⟩
    · exact stillS ⟨u, g, n, copying, eq⟩
  · rintro u g n rfl copying
    rw [before.2.2] at copying
    cases copying
  · rintro _ ⟨⟩ notCopied
    exact absurd ⟨t, f, m, by rw [update_self]; exact after.2.2, rfl⟩ notCopied
  · rintro u g n rfl copying
    rw [update_self, after.2.2] at copying
    cases copying
    have whole := owners.complete _ _ kept stillS hasS
    have sameS : v.Same v' m.source := ⟨by rw [sc], by rw [memory]; exact .refl _ _ _⟩
    refine ⟨.inr rfl, kept', hasT.placed, hasT.names, value.trans start.symm,
      sameS.placed hasS.placed, fun now => ((used _).mp now).2 rfl, by rw [sc]; exact same,
      whole.transport hasS.placed sameS fun _ => id, ?_, ?_⟩
    · rw [copied]
      exact Nat.zero_le _
    · intro j hj
      rw [copied] at hj
      exact absurd hj (Nat.not_lt_zero j)

/-- A copy writes its next byte. -/
theorem copyByte (owners : Owners cfg v live P) (before : (P t).keeps = none ∧
      (P t).taken = none ∧ (P t).copying = some (f, m))
    (after : place'.keeps = none ∧ place'.taken = none ∧
      place'.copying = some (f, { m with copied := m.copied + 1 }))
    (more : m.copied < blockSize f.sc)
    (pinned : ∀ u f m, (P u).copying = some (f, m) → 0 < v.entries m.srcPage)
    (used : v'.used = v.used) (entries : v'.entries = v.entries) (sc : v'.sc = v.sc)
    (word : v'.word = v.word)
    (memory : v'.memory = writeByte v.memory (v.start f.target + m.copied)
      (v.memory (v.start m.source + m.copied))) : Owners cfg v' live (update P t place') := by
  obtain ⟨kept, ok⟩ := owners.copy t f m before.2.2
  have has := owners.target_has before.2.2
  have usedT := owners.target_used before.2.2
  have sizes := ok.size
  have starts : ∀ C, v'.start C = v.start C := fun C => View.start_congr (by rw [sc])
  have kept' : Kept live (update P t place') m.srcAa :=
    (kept_update rfl (by simp only [before.1, after.1])).mpr kept
  have hasT : Holder.Has v' (update P t place') (.address m.srcAa) f.target :=
    has.of_address (by rw [sc]) (by rw [word])
  have agree : ∀ C, C ≠ f.target → v.Placed C →
      AgreeOn v.memory v'.memory (v.start C) (v.size C) := by
    intro C ne placed
    have := placed.disjoint ok.placed ne
    rw [memory]
    exact writeByte_agreeOn _ _ (by omega)
  have copying' : (update P t place' t).copying =
      some (f, { m with copied := m.copied + 1 }) := by
    rw [update_self]
    exact after.2.2
  refine owners.hand_over (Holder.Touched (· = m.srcAa) t) (.address m.srcAa) (.address m.srcAa)
    ⟨fun _ _ => by rw [sc], fun C ne placed _ => agree C ne placed⟩
    (fun u hu => update_of_ne hu _ _) (fun u u' hu hu' => hu.trans hu'.symm)
    (fun b _ => kept_update rfl (by simp only [before.1, after.1])) ⟨rfl, kept, has⟩
    ⟨rfl, kept', hasT⟩ (used ▸ usedT) (touched_only after.2.1 fun b eq _ => congrArg _ eq)
    (used_same used (touched_all before.2.1 has)) (fun _ _ _ => by rw [word]) (fun _ _ => rfl)
    ?_ ?_ ?_ ?_
  · intro u g n hu copying
    exact ⟨fun eq => hu (owners.alone u t g n f m copying before.2.2 eq),
      .inr (by rw [entries]; exact pinned u g n copying)⟩
  · rintro u g n rfl copying
    rw [before.2.2] at copying
    cases copying
    rfl
  · rintro _ ⟨⟩ notCopied
    exact absurd ⟨t, f, _, copying', rfl⟩ notCopied
  · rintro u g n rfl copying
    rw [copying'] at copying
    cases copying
    have ne : m.source ≠ f.target := fun eq => ok.unused (eq ▸ usedT)
    have sameS : v.Same v' m.source := ⟨by rw [sc], agree _ ne ok.source⟩
    refine ⟨rfl, kept', hasT.placed, hasT.names, ok.value.trans (starts _).symm,
      sameS.placed ok.source, used ▸ ok.unused, by rw [sc]; exact ok.sc,
      ok.complete.transport ok.source sameS fun _ => id, more, fun j hj => ?_⟩
    have source := agree _ ne ok.source j (by rw [sizes.2]; exact Nat.lt_of_lt_of_le hj more)
    rw [starts, starts]
    refine Eq.trans ?_ source.symm
    rw [memory]
    by_cases last : j = m.copied
    · subst last
      simp only [writeByte, if_true]
    · have other : v.start f.target + j ≠ v.start f.target + m.copied := by omega
      simp only [writeByte, other, if_false]
      exact ok.before j (Nat.lt_of_le_of_ne (Nat.lt_succ_iff.mp hj) last)

theorem finish (owners : Owners cfg v live P) (before : (P t).keeps = none ∧
      (P t).taken = none ∧ (P t).copying = some (f, m))
    (after : place'.keeps = none ∧ place'.taken = none ∧ place'.copying = none)
    (done : blockSize f.sc ≤ m.copied)
    (pinned : ∀ u f m, (P u).copying = some (f, m) → 0 < v.entries m.srcPage)
    (used : v'.used = v.used) (entries : v'.entries = v.entries) (sc : v'.sc = v.sc)
    (memory : v'.memory = v.memory) (word : v'.word m.srcAa = m.targetAaVal)
    (words : ∀ b, b ≠ m.srcAa → v'.word b = v.word b) :
    Owners cfg v' live (update P t place') := by
  obtain ⟨kept, ok⟩ := owners.copy t f m before.2.2
  have has := owners.target_has before.2.2
  have usedT := owners.target_used before.2.2
  have kept' : Kept live (update P t place') m.srcAa :=
    (kept_update rfl (by simp only [before.1, after.1])).mpr kept
  have same : ∀ b, v'.word b = v.word b := by
    intro b
    by_cases eq : b = m.srcAa
    · rw [eq, word, ok.value, ok.word]
    · exact words b eq
  have hasT : Holder.Has v' (update P t place') (.address m.srcAa) f.target :=
    has.of_address (by rw [sc]) (same _)
  have keeps : v.Keeps v' (· = f.target) :=
    ⟨fun _ _ => by rw [sc], fun _ _ _ _ => by rw [memory]; exact .refl _ _ _⟩
  refine owners.hand_over (Holder.Touched (· = m.srcAa) t) (.address m.srcAa) (.address m.srcAa)
    keeps (fun u hu => update_of_ne hu _ _) (fun u u' hu hu' => hu.trans hu'.symm)
    (fun b _ => kept_update rfl (by simp only [before.1, after.1])) ⟨rfl, kept, has⟩
    ⟨rfl, kept', hasT⟩ (used ▸ usedT) (touched_only after.2.1 fun b eq _ => congrArg _ eq)
    (used_same used (touched_all before.2.1 has)) (fun b _ _ => same b) (fun _ _ => rfl) ?_ ?_ ?_ ?_
  · intro u g n hu copying
    exact ⟨fun eq => hu (owners.alone u t g n f m copying before.2.2 eq),
      .inr (by rw [entries]; exact pinned u g n copying)⟩
  · rintro u g n rfl copying
    rw [before.2.2] at copying
    cases copying
    rfl
  · rintro _ ⟨⟩ _
    exact (ok.done done).transport ok.placed
      ⟨by rw [sc], by rw [memory]; exact .refl _ _ _⟩ fun _ => id
  · rintro u g n rfl copying
    rw [update_self, after.2.2] at copying
    cases copying

/-- The application writes a byte of an object that is not being copied. -/
theorem write (owners : Owners cfg v live P) {j : Nat} {o : Obj} {b : UInt8}
    (now : live a = some o) (still : ¬ Copied P a) (has : Holder.Has v P (.address a) B)
    (user : j < View.userBytes cfg (v.size B))
    (pinned : ∀ u f m, (P u).copying = some (f, m) → 0 < v.entries m.srcPage)
    (used : v'.used = v.used) (entries : v'.entries = v.entries) (sc : v'.sc = v.sc)
    (word : v'.word = v.word) (memory : v'.memory = writeByte v.memory (v.start B + j) b) :
    Owners cfg v' (update live a (some { o with bytes := update o.bytes j b })) P := by
  have active : Holder.Active live P (.address a) := .inl (by rw [now]; simp)
  have size := has.placed.size_ge
  have bound : View.userBytes cfg (v.size B) ≤ v.size B - 4 := by
    simp only [View.userBytes]
    split <;> omega
  have scB : v'.sc B.page = v.sc B.page := by rw [sc]
  have has' : Holder.Has v' P (.address a) B := has.of_address scB (by rw [word])
  have agree : ∀ {x n}, x + n ≤ v.start B + j ∨ v.start B + j < x →
      AgreeOn v.memory v'.memory x n := fun h => memory ▸ writeByte_agreeOn _ _ h
  have keeps : v.Keeps v' (· = B) := by
    refine ⟨fun _ _ => by rw [sc], fun C ne placed _ => agree ?_⟩
    have := placed.disjoint has.placed ne
    omega
  refine owners.hand_over (· = .address a) (.address a) (.address a) keeps (fun _ _ => rfl)
    (fun _ _ eq => by cases eq) ?_ ⟨rfl, active, has⟩ ⟨rfl, .inl (by rw [update_self]; simp), has'⟩
    (used ▸ owners.used active has) (fun z eq _ => eq) (used_same used ?_)
    (fun _ _ _ => by rw [word]) (fun c ne => update_of_ne (fun eq => ne (congrArg _ eq)) _ _)
    ?_ (fun _ _ _ eq => by cases eq) ?_ fun _ _ _ eq => by cases eq
  · intro c ne
    simp only [Kept, update_of_ne fun eq => ne (congrArg Holder.address eq)]
  · rintro z C rfl _ hasC
    exact hasC.unique has
  · intro u f m _ copying
    exact ⟨fun eq => still ⟨u, f, m, copying, Holder.address.inj eq⟩,
      .inr (by rw [entries]; exact pinned u f m copying)⟩
  · rintro _ ⟨⟩ _
    have whole := owners.complete a B active still has
    obtain ⟨scO, stores⟩ := whole.object o now
    refine ⟨?_, fun o' now' => ?_⟩
    · exact (has.placed.back_congr scB (agree (by omega))).trans whole.back
    · rw [update_self] at now'
      cases now'
      refine ⟨scB.trans scO, fun i hi userI => ?_⟩
      rw [View.size_congr scB] at userI
      rw [View.start_congr scB, memory]
      by_cases eq : i = j
      · subst eq
        simp [writeByte]
      · have ne : v.start B + i ≠ v.start B + j := by omega
        simp only [update_of_ne eq, writeByte, ne, if_false]
        exact stores i hi userI

end Owners

end LockPage
end CompactFit
