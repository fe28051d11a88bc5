import Consensus.Server.State
import Consensus.Storage.Backend
import Consensus.Transport.Network

/-! # Clusters

A simulated cluster is a list of servers that share one network and one clock.
Only one of them works at a time, so a run is determined by the order of work
and by what is done to the network and the clock in between.
-/

namespace Consensus

/-- A server of the cluster, with the place of the peer that it polls next. -/
structure Slot where
  server : Server Backend
  nextPeer : Nat := 0

/-- A number of servers on one network, under one clock. -/
structure Cluster where
  slots : List Slot
  network : Network
  now : Duration
  /-- Every server seen as leader after its work, with its term, in ascending order. -/
  leaders : List (Term × ServerId) := []

/-- What can be seen of a server from outside. -/
structure Snapshot where
  role : String
  term : Term
  votedFor : Option ServerId
  leader : Option ServerId
  votes : Nat
  commitIndex : Index
  lastApplied : Index
  logSize : Index
  lastTerm : Term
  deriving DecidableEq, Repr

def Server.snapshot (server : Server Backend) : Snapshot where
  role := server.role.name
  term := server.term
  votedFor := server.votedFor
  leader := server.knownLeader
  votes := server.voteCount
  commitIndex := server.commitIndex
  lastApplied := server.progress.lastApplied
  logSize := server.log.size
  lastTerm := server.log.lastKey.term

namespace Cluster

/-- Adds a pair to a list in ascending order, once. -/
def noteLeader (seen : Term × ServerId) : List (Term × ServerId) → List (Term × ServerId)
  | [] => [seen]
  | other :: rest =>
    if seen = other then other :: rest
    else if seen.1 < other.1 ∨ (seen.1 = other.1 ∧ seen.2 < other.2) then seen :: other :: rest
    else other :: noteLeader seen rest

def advance (cluster : Cluster) (span : Duration) : Cluster :=
  { cluster with now := cluster.now + span }

def snapshot (cluster : Cluster) : List Snapshot := cluster.slots.map (·.server.snapshot)

/-- The place of the leader of the highest term, the last one of several. -/
def leaderPlace (cluster : Cluster) : Option Nat :=
  let leading := cluster.slots.zipIdx.filter (·.1.server.role.isLeader)
  let highest := leading.filter fun (slot, _) =>
    leading.all fun (other, _) => decide (other.server.term ≤ slot.server.term)
  highest.getLast?.map (·.2)

/-- Changes the server at a place behind its back. -/
def modifyServer (cluster : Cluster) (place : Nat)
    (change : Server Backend → Server Backend) : Cluster :=
  { cluster with
    slots := cluster.slots.modify place fun slot => { slot with server := change slot.server } }

end Cluster

end Consensus
