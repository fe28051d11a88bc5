import Consensus.Storage.Store

/-! # The log

The log is the list of entries in its store, with the term of the last entry
kept at hand. Entries are added at the end only; an entry that conflicts with
what a leader sends is dropped together with everything after it.
-/

namespace Consensus

/-- How a key stands to a log. -/
inductive Standing where
  /-- The log holds an entry of this index and term. -/
  | held
  /-- The log is too short to hold this index. -/
  | beyond
  /-- The log holds an entry of another term at this index. -/
  | conflicting
  deriving DecidableEq, Repr

/-- What taking over a leader's entry did. -/
inductive Placement where
  | added
  | alreadyHeld
  /-- Entries from `index` on were dropped first. -/
  | replaced (index : Index)
  deriving DecidableEq, Repr

/-- A log in a store. -/
structure Log (σ : Type) where
  store : σ
  /-- The term of the last entry, the null term when there is none. -/
  lastTerm : Term

namespace Log

variable {σ : Type} [Store σ]

/-- The entries, first one first. -/
def entries (log : Log σ) : List Entry := Store.entries log.store

/-- The number of entries, which is the index of the next one. -/
def size (log : Log σ) : Index := Store.size log.store

def isEmpty (log : Log σ) : Bool := log.size == 0

/-- The index of the last entry, -1 when there is none. -/
def lastIndex (log : Log σ) : Index := log.size - 1

/-- The key of the last entry, the null key when there is none. -/
def lastKey (log : Log σ) : LogKey := ⟨log.lastTerm, log.lastIndex⟩

/-- The entry at an index, none outside the log. -/
def read? (log : Log σ) (index : Index) : Option Entry := Store.read? log.store index

/-- The term at an index. The position in front of the first entry has the null term. -/
def termAt? (log : Log σ) (index : Index) : Option Term :=
  if index = nullIndex then some nullTerm else (log.read? index).map Entry.term

/-- The key right in front of an index. -/
def keyBefore? (log : Log σ) (index : Index) : Option LogKey :=
  (log.termAt? (index - 1)).map fun term => ⟨term, index - 1⟩

/-- The entry at an index together with its place. -/
def entryAt? (log : Log σ) (index : Index) : Option PlacedEntry :=
  (log.read? index).map fun entry => ⟨entry.term, index, entry.command⟩

/-- How a key stands to the log. The position in front of the first entry is always held,
whatever term a key gives it. -/
def standing (log : Log σ) (key : LogKey) : Standing :=
  if key.IsNull then
    .held
  else
    match log.termAt? key.index with
    | none => .beyond
    | some term => if term = key.term then .held else .conflicting

/-! ## Changes -/

/-- The last term that the store's entries give. -/
def storedLastTerm (store : σ) : Term :=
  match Store.read? store (Store.size store - 1) with
  | none => nullTerm
  | some entry => entry.term

/-- The log in a store. -/
def ofStore (store : σ) : Log σ := ⟨store, storedLastTerm store⟩

/-- Adds an entry at an index, which the store accepts at the end of the log only. -/
def extend (log : Log σ) (index : Index) (entry : Entry) : Except StorageFailure (Log σ) :=
  (Store.append log.store index entry).map fun store => ⟨store, entry.term⟩

/-- Adds a command of this server's own at the end, and gives its key. -/
def push (log : Log σ) (term : Term) (command : Bytes) :
    Except StorageFailure (Log σ × LogKey) :=
  (log.extend log.size ⟨term, command⟩).map fun extended => (extended, ⟨term, log.size⟩)

/-- Drops the entry at an index and all after it. -/
def truncate (log : Log σ) (index : Index) : Except StorageFailure (Log σ) :=
  if log.size ≤ index then .ok log else (Store.truncate log.store index).map ofStore

/-- Adds a leader's entry to a log that has room for it. The log that is left is given
also for a failure. -/
def place (log : Log σ) (entry : PlacedEntry) (placement : Placement) :
    Log σ × Except StorageFailure Placement :=
  match log.extend entry.index ⟨entry.term, entry.command⟩ with
  | .error cause => (log, .error cause)
  | .ok extended => (extended, .ok placement)

/-- Takes over a leader's entry, dropping a suffix that conflicts with it. After a
failure the suffix may be gone already. -/
def accept (log : Log σ) (entry : PlacedEntry) : Log σ × Except StorageFailure Placement :=
  match log.standing entry.key with
  | .held => (log, .ok .alreadyHeld)
  | .beyond => log.place entry .added
  | .conflicting =>
    match log.truncate entry.index with
    | .error cause => (log, .error cause)
    | .ok shorter => shorter.place entry (.replaced entry.index)

/-- Replaces the store, leaving what the log knows of it. -/
def mapStore (log : Log σ) (change : σ → σ) : Log σ :=
  { log with store := change log.store }

end Log

end Consensus
