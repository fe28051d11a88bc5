import Consensus.Failure
import Consensus.Log.Basic

/-! # Durable state

The term, the vote and the log survive a crash. The term and vote in memory are
changed only once the store has taken them, so both sides agree after every call.
-/

namespace Consensus

/-- What a server remembers across restarts. -/
structure Durable (σ : Type) where
  term : Term
  votedFor : Option ServerId
  log : Log σ

namespace Durable

variable {σ : Type} [Store σ]

/-- The state that a store holds. -/
def load (store : σ) : Except StorageFailure (Durable σ) :=
  (Store.load store).map fun (term, votedFor) => ⟨term, votedFor, .ofStore store⟩

/-- Stores a term and vote, then takes them over. -/
def record (durable : Durable σ) (term : Term) (votedFor : Option ServerId) :
    Except StorageFailure (Durable σ) :=
  (Store.save durable.log.store term votedFor).map fun store =>
    { term, votedFor, log := { durable.log with store } }

/-- Moves to a newer term, in which no vote has been given. Other terms change nothing. -/
def moveTo (durable : Durable σ) (term : Term) : Except StorageFailure (Durable σ) :=
  if term ≤ durable.term then .ok durable else durable.record term none

/-- Records a vote in the present term. -/
def voteFor (durable : Durable σ) (candidate : ServerId) :
    Except StorageFailure (Durable σ) :=
  durable.record durable.term (some candidate)

/-- Moves to the next term and votes for the server itself, in one write. -/
def openElection (durable : Durable σ) (self : ServerId) : Except Failure (Durable σ) :=
  if maxTerm ≤ durable.term then
    .error (.termExhausted durable.term)
  else
    (durable.record (durable.term + 1) (some self)).mapError .storage

/-- Replaces the store, leaving what is known of it in memory. -/
def mapStore (durable : Durable σ) (change : σ → σ) : Durable σ :=
  { durable with log := durable.log.mapStore change }

end Durable

end Consensus
