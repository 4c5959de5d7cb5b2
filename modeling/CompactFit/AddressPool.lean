import CompactFit.Heap

/-!
The abstract address space behind an interface. The table words and the pool of
free identifiers share memory, so they are one value; the laws say that the pool
hands out identifiers that are not out and leaves the words of those that are.
`SetPool` is the pool taken as a set, with an arbitrary choice at every call.
-/

namespace CompactFit
open Function

class AddressPool (π : Type) where
  /-- `aa_space[id]`. -/
  word : π → Nat → Nat
  setWord : Nat → Nat → π → π
  /-- `get_free_aa` of a thread; `none` is -1. -/
  getFreeAa : AddressConfig → Nat → π → Option Nat × π
  /-- `put_free_aa` of a thread. -/
  putFreeAa : AddressConfig → Nat → Nat → π → Except Fault π

open AddressPool

/-- The laws of an address pool used by the first `T` threads: `Valid` relates
its state to the set of identifiers handed out. Only a pool that is not `Robust`
for `T` threads may run out of empty buckets. -/
class LawfulAddressPool (π : Type) [AddressPool π] where
  Valid : AddressConfig → Nat → (Nat → Prop) → π → Prop
  Robust : AddressConfig → Nat → Prop
  valid_lt : ∀ {cfg T out} {σ : π} {id : Nat}, Valid cfg T out σ → out id → id < cfg.nrAas
  valid_congr : ∀ {cfg T out out'} {σ : π}, Valid cfg T out σ → (∀ id, out' id ↔ out id) →
    Valid cfg T out' σ
  valid_setWord : ∀ {cfg T out} {σ : π} {id w : Nat}, Valid cfg T out σ → out id →
    Valid cfg T out (setWord id w σ)
  word_setWord_same : ∀ {σ : π} {id w : Nat}, word (setWord id w σ) id = w
  word_setWord_other : ∀ {σ : π} {id id' w : Nat}, id' ≠ id →
    word (setWord id w σ) id' = word σ id'
  getFreeAa_spec : ∀ {cfg T out t} {σ : π}, Valid cfg T out σ → t < T →
    getFreeAa cfg t σ = (none, σ) ∨
    ∃ id σ', getFreeAa cfg t σ = (some id, σ') ∧ ¬ out id ∧ id < cfg.nrAas ∧
      Valid cfg T (fun a => out a ∨ a = id) σ' ∧ ∀ a, out a → word σ' a = word σ a
  putFreeAa_spec : ∀ {cfg T out t id} {σ : π}, Valid cfg T out σ → t < T → out id →
    (putFreeAa cfg t id σ = .error .emptyBucket ∧ ¬ Robust cfg T) ∨
    ∃ σ', putFreeAa cfg t id σ = .ok σ' ∧ Valid cfg T (fun a => out a ∧ a ≠ id) σ' ∧
      ∀ a, out a → a ≠ id → word σ' a = word σ a

/-- A set of free identifiers; `picks` decides which one each call takes. -/
structure SetPool where
  words : Nat → Nat
  free : List Nat
  picks : Nat → Nat

namespace SetPool

def init (cfg : AddressConfig) (picks : Nat → Nat) : SetPool :=
  { words := fun _ => 0, free := List.range cfg.nrAas, picks := picks }

instance : AddressPool SetPool where
  word σ id := σ.words id
  setWord id w σ := { σ with words := update σ.words id w }
  getFreeAa _ _ σ :=
    match σ.free[σ.picks 0 % σ.free.length]? with
    | none => (none, σ)
    | some id => (some id, { σ with free := σ.free.erase id, picks := fun n => σ.picks (n + 1) })
  putFreeAa _ _ id σ := .ok { σ with free := id :: σ.free }

instance : LawfulAddressPool SetPool where
  Valid cfg _ out σ := σ.free.Nodup ∧ (∀ id, id ∈ σ.free → ¬ out id) ∧
    (∀ id, id ∈ σ.free → id < cfg.nrAas) ∧ ∀ id, out id → id < cfg.nrAas
  Robust _ _ := True
  valid_lt valid := valid.2.2.2 _
  valid_congr valid same := by
    obtain ⟨nodup, apart, lt, bound⟩ := valid
    exact ⟨nodup, fun id mem held => apart id mem ((same id).mp held), lt,
      fun id held => bound id ((same id).mp held)⟩
  valid_setWord valid _ := valid
  word_setWord_same := by simp [word, setWord]
  word_setWord_other ne := by simp [word, setWord, ne]
  getFreeAa_spec := by
    rintro cfg T out t σ ⟨nodup, apart, lt, bound⟩ _
    cases pick : σ.free[σ.picks 0 % σ.free.length]? with
    | none => exact .inl (by simp [getFreeAa, pick])
    | some id =>
        have mem : id ∈ σ.free := List.mem_of_getElem? pick
        refine .inr ⟨id, { σ with free := σ.free.erase id, picks := fun n => σ.picks (n + 1) },
          by simp only [getFreeAa, pick], apart id mem, lt id mem, ?_, fun _ _ => rfl⟩
        refine ⟨nodup.erase id, ?_, fun a ha => lt a (List.mem_of_mem_erase ha), ?_⟩
        · rintro a ha (held | rfl)
          · exact apart a (List.mem_of_mem_erase ha) held
          · exact nodup.not_mem_erase ha
        · rintro a (held | rfl)
          · exact bound a held
          · exact lt a mem
  putFreeAa_spec := by
    rintro cfg T out t id σ ⟨nodup, apart, lt, bound⟩ _ held
    refine .inr ⟨_, rfl, ⟨?_, ?_, ?_, fun a ha => bound a ha.1⟩, fun _ _ _ => rfl⟩
    · exact List.nodup_cons.mpr ⟨fun mem => apart id mem held, nodup⟩
    · rintro a ha ⟨heldA, ne⟩
      rcases List.mem_cons.mp ha with rfl | ha
      · exact ne rfl
      · exact apart a ha heldA
    · intro a ha
      rcases List.mem_cons.mp ha with rfl | ha
      · exact bound a held
      · exact lt a ha

theorem valid_init (cfg : AddressConfig) (T : Nat) (picks : Nat → Nat) :
    LawfulAddressPool.Valid cfg T (fun _ => False) (init cfg picks) :=
  ⟨List.nodup_range, fun _ _ h => h, fun _ h => List.mem_range.mp h, fun _ h => h.elim⟩

end SetPool
end CompactFit
