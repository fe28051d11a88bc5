import Consensus.Proofs.Results
import Consensus.Storage.Memory

/-! # Lawful stores

What a server relies on when a call to its store succeeds. Nothing is asked of a call
that fails, and nothing says that any call succeeds.
-/

namespace Consensus

/-- A store whose successful calls do what they are for, as long as it is valid. -/
class LawfulStore (σ : Type) [Store σ] where
  Valid : σ → Prop
  save_ok : ∀ {store saved : σ} {term : Term} {votedFor : Option ServerId}, Valid store →
    Store.save store term votedFor = .ok saved →
      Valid saved ∧ Store.entries saved = Store.entries store ∧
        ∀ loaded, Store.load saved = .ok loaded → loaded = (term, votedFor)
  append_ok : ∀ {store appended : σ} {index : Index} {entry : Entry}, Valid store →
    Store.append store index entry = .ok appended →
      Valid appended ∧ index = Store.size store ∧
        Store.entries appended = Store.entries store ++ [entry] ∧
        Store.load appended = Store.load store
  truncate_ok : ∀ {store truncated : σ} {index : Index}, Valid store → 0 ≤ index →
    Store.truncate store index = .ok truncated →
      Valid truncated ∧ Store.entries truncated = (Store.entries store).take index.toNat ∧
        Store.load truncated = Store.load store

namespace MemoryStore

theorem write_eq_ok {store changed written : MemoryStore}
    (h : store.write changed = .ok written) : written = changed := by
  unfold write at h
  split at h
  next => cases h
  next => exact (Except.ok.inj h).symm

theorem write_of_faultless {store changed : MemoryStore} (hfaultless : store.faulty = false) :
    store.write changed = .ok changed :=
  if_neg (by simp [hfaultless])

/-- A store without a fault takes the entry behind its last, and no other. -/
theorem append_of_faultless {store : MemoryStore} (hfaultless : store.faulty = false)
    (index : Index) (entry : Entry) :
    store.append index entry =
      if index = store.entries.length then
        .ok { store with entries := store.entries ++ [entry] }
      else
        .error (.misplacedAppend index store.entries.length) := by
  rw [append, write_of_faultless hfaultless]
  rfl

/-- Nothing but an entry behind the last is ever appended. -/
theorem append_eq_ok {store appended : MemoryStore} {index : Index} {entry : Entry}
    (h : store.append index entry = .ok appended) :
    index = store.entries.length ∧
      appended = { store with entries := store.entries ++ [entry] } := by
  obtain ⟨written, hwrite, h⟩ := bind_eq_ok.mp h
  split at h
  next hindex => exact ⟨hindex, (Except.ok.inj h).symm.trans (write_eq_ok hwrite)⟩
  next => cases h

end MemoryStore

instance : LawfulStore MemoryStore where
  Valid _ := True
  save_ok := by
    intro store saved term votedFor _ hsave
    rw [MemoryStore.write_eq_ok hsave]
    exact ⟨trivial, rfl, fun loaded hload => (Except.ok.inj hload).symm⟩
  append_ok := by
    intro store appended index entry _ happend
    obtain ⟨hindex, rfl⟩ := MemoryStore.append_eq_ok happend
    exact ⟨trivial, hindex, rfl, rfl⟩
  truncate_ok := by
    intro store truncated index _ _ htruncate
    rw [MemoryStore.write_eq_ok htruncate]
    exact ⟨trivial, rfl, rfl⟩

/-- A store whose writes can be made to fail, and to succeed again, while it keeps what it holds. -/
class FallibleStore (σ : Type) [Store σ] [LawfulStore σ] where
  setFault : σ → Bool → σ
  valid : ∀ {store : σ} (faulty : Bool), LawfulStore.Valid store →
    LawfulStore.Valid (setFault store faulty)
  entries_eq : ∀ (store : σ) (faulty : Bool),
    Store.entries (setFault store faulty) = Store.entries store
  load_eq : ∀ (store : σ) (faulty : Bool),
    Store.load (setFault store faulty) = Store.load store

instance : FallibleStore MemoryStore where
  setFault := MemoryStore.setFault
  valid _ _ := trivial
  entries_eq _ _ := rfl
  load_eq _ _ := rfl

end Consensus
