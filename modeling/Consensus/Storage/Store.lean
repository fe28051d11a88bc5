import Consensus.Storage.Failure

/-! # Durable stores

A store keeps a term, a vote and a log of entries. A call returns the store it
leaves behind only when it succeeds, so a failed call leaves the store alone.
What the log holds is read from `entries` alone.
-/

namespace Consensus

/-- A stored log entry. Its index is its place in the log. -/
structure Entry where
  term : Term
  command : Bytes
  deriving DecidableEq, Repr

/-- A durable home for a term, a vote and a log. -/
class Store (σ : Type) where
  /-- Stores the term and vote. -/
  save : σ → Term → Option ServerId → Except StorageFailure σ
  /-- The stored term and vote; term 0 and no vote in a fresh store. -/
  load : σ → Except StorageFailure (Term × Option ServerId)
  /-- Adds an entry, whose index must be the number of entries stored. -/
  append : σ → Index → Entry → Except StorageFailure σ
  /-- Drops the entry at an index and all after it. -/
  truncate : σ → Index → Except StorageFailure σ
  /-- The stored entries, in order of their indices. -/
  entries : σ → List Entry

namespace Store

variable {σ : Type} [Store σ]

/-- The number of entries, which is the index of the next one. -/
def size (store : σ) : Index := (entries store).length

/-- The entry at an index, none outside the log. -/
def read? (store : σ) (index : Index) : Option Entry :=
  if index < 0 then none else (entries store)[index.toNat]?

end Store

end Consensus
