import Consensus.Storage.Store

/-! # Storage in memory

The store of tests and simulations. Its writes can be switched off, and then
every call that changes it fails.
-/

namespace Consensus

structure MemoryStore where
  term : Term := 0
  votedFor : Option ServerId := none
  entries : List Entry := []
  /-- Writes are switched off. -/
  faulty : Bool := false
  deriving DecidableEq, Repr

namespace MemoryStore

/-- Turns the failure of writes on or off. -/
def setFault (store : MemoryStore) (faulty : Bool) : MemoryStore :=
  { store with faulty }

/-- A changed store, unless writes are switched off. -/
def write (store changed : MemoryStore) : Except StorageFailure MemoryStore :=
  if store.faulty then .error .injectedFault else .ok changed

def append (store : MemoryStore) (index : Index) (entry : Entry) :
    Except StorageFailure MemoryStore := do
  let appended ← store.write { store with entries := store.entries ++ [entry] }
  if index = store.entries.length then
    return appended
  else
    throw (.misplacedAppend index store.entries.length)

/-- Truncation from a negative index empties the log. -/
def truncate (store : MemoryStore) (index : Index) : Except StorageFailure MemoryStore :=
  store.write { store with entries := store.entries.take index.toNat }

end MemoryStore

instance : Store MemoryStore where
  save store term votedFor := store.write { store with term, votedFor }
  load store := .ok (store.term, store.votedFor)
  append := MemoryStore.append
  truncate := MemoryStore.truncate
  entries := MemoryStore.entries

end Consensus
