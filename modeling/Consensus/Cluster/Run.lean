import Consensus.Cluster.State
import Consensus.Server.DutyCycle
import Consensus.Server.Restart

/-! # Runs of a cluster

A run is a sequence of pieces of work, each done by one server on the shared
network. What leads after its work is noted, so that two leaders of one term
would show even if they never led at the same time.
-/

namespace Consensus.Cluster

/-- Lets the server at a place work on the network, and notes whether it leads after it. -/
def work {α : Type} (cluster : Cluster) (place : Nat)
    (act : DutyCycle Backend Endpoint → α × DutyCycle Backend Endpoint) :
    Option α × Cluster :=
  match cluster.slots[place]? with
  | none => (none, cluster)
  | some slot =>
    let endpoint : Endpoint := ⟨slot.server.id, cluster.network⟩
    let (answer, cycle) := act { host := ⟨slot.server, endpoint⟩, nextPeer := slot.nextPeer }
    let server := cycle.host.server
    (some answer,
      { cluster with
        slots := cluster.slots.set place ⟨server, cycle.nextPeer⟩
        network := cycle.host.transport.network
        leaders :=
          if server.role.isLeader then noteLeader (server.term, server.id) cluster.leaders
          else cluster.leaders })

/-- One pass of the duty cycle of the server at a place. -/
def pass (cluster : Cluster) (place : Nat) : Option (Except Failure Nat) × Cluster :=
  cluster.work place (DutyCycle.perform (DutyCycle.pass fun _ => cluster.now))

/-- Passes of the servers at some places, in order. -/
def passAll (cluster : Cluster) : List Nat → List (Except Failure Nat) × Cluster
  | [] => ([], cluster)
  | place :: rest =>
    let (result, worked) := cluster.pass place
    let (results, finished) := worked.passAll rest
    (result.toList ++ results, finished)

/-- Advances the clock, then lets the servers at some places work. -/
def step (cluster : Cluster) (span : Duration) (order : List Nat) :
    List (Except Failure Nat) × Cluster :=
  (cluster.advance span).passAll order

/-- A step of a run after which the cluster looked different. -/
structure Change where
  step : Nat
  results : List (Except Failure Nat)
  snapshot : List Snapshot

/-- Steps in which every server works, from step number `number` on, reporting those that
changed what can be seen. -/
def runFrom (cluster : Cluster) (span : Duration) (number : Nat) :
    (count : Nat) → List Change × Cluster
  | 0 => ([], cluster)
  | count + 1 =>
    let (results, stepped) := cluster.step span (List.range cluster.slots.length)
    let (changes, finished) := stepped.runFrom span (number + 1) count
    let reported :=
      if stepped.snapshot = cluster.snapshot then changes
      else ⟨number, results, stepped.snapshot⟩ :: changes
    (reported, finished)

def run (cluster : Cluster) (span : Duration) (count : Nat) : List Change × Cluster :=
  cluster.runFrom span 0 count

/-- Makes passes of one server's duty cycle until one fails or `times` are done. -/
def runLoop (cluster : Cluster) (place times : Nat) :
    Option (Except Failure Unit × Nat) × Cluster :=
  cluster.work place (DutyCycle.run (fun _ => cluster.now) times)

/-- Makes a call to the server at a place. -/
def call {α : Type} (cluster : Cluster) (place : Nat)
    (act : Host Backend Endpoint → α × Host Backend Endpoint) : Option α × Cluster :=
  cluster.work place fun cycle =>
    let (answer, host) := act cycle.host
    (answer, { cycle with host })

/-- Restarts the server at a place, which then polls its first peer first. -/
def restart (cluster : Cluster) (place : Nat) (draws : Draws) :
    Option (Except Failure Unit) × Cluster :=
  match cluster.slots[place]? with
  | none => (none, cluster)
  | some slot =>
    let (answer, server) := slot.server.restart draws cluster.now
    let nextPeer := if answer.toBool then 0 else slot.nextPeer
    (some answer, { cluster with slots := cluster.slots.set place ⟨server, nextPeer⟩ })

end Consensus.Cluster
