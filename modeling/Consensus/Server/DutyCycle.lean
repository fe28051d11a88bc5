import Consensus.Server.Host

/-! # The duty cycle

One thread drives a server by passes that never wait: the timer, the peers'
inboxes, the command inbox, the duties of the role. Peers are polled in turn, one
frame each, until a limit is reached or a whole lap finds nothing; the next pass
goes on with the peer after the last one polled.
-/

namespace Consensus

/-- What a clock reads at each call, by the number of calls before it. -/
abbrev Clock := Nat → Duration

structure DutyCycle (σ τ : Type) where
  host : Host σ τ
  /-- The place of the peer that is polled next. -/
  nextPeer : Nat := 0
  /-- How many calls were made to the host, each of which has read the clock anew. -/
  calls : Nat := 0

namespace DutyCycle

variable {σ τ : Type} [Store σ] [Transport τ]

/-- A part of a pass. What was done before a failure stays done. -/
abbrev Step (σ τ α : Type) := EStateM Failure (DutyCycle σ τ) α

/-- Makes a call to the host at what the clock reads by then. -/
def call {α : Type} (clock : Clock) (act : Host σ τ → Duration → Except Failure α × Host σ τ) :
    Step σ τ α := do
  let cycle ← get
  let (answer, host) := act cycle.host (clock cycle.calls)
  set { cycle with host, calls := cycle.calls + 1 }
  match answer with
  | .ok value => return value
  | .error failure => throw failure

/-- Polls the transport. -/
def poll (act : τ → Option Bytes × τ) : Step σ τ (Option Bytes) := do
  let cycle ← get
  let (found, transport) := act cycle.host.transport
  set { cycle with host := { cycle.host with transport } }
  return found

/-- Polls the peer whose turn it is, handles a frame found there, and tells whether
there was one. -/
def pollNextPeer (clock : Clock) (peers : List ServerId) : Step σ τ Bool := do
  let place := (← get).nextPeer
  let peer := peers.getD place 0
  modify ({ · with nextPeer := (place + 1) % peers.length })
  match ← poll (Transport.pollPeer · peer) with
  | none => return false
  | some frame =>
    call clock (·.receive · peer frame)
    return true

/-- Polls peers until `limit` more frames are handled or `idle` more polls in a row find
nothing, and counts the frames. -/
def pollPeersFor (clock : Clock) (peers : List ServerId) (limit idle : Nat) :
    Step σ τ Nat := do
  match limit, idle with
  | 0, _ => return 0
  | _, 0 => return 0
  | limit + 1, idle + 1 =>
    if ← pollNextPeer clock peers then
      return (← pollPeersFor clock peers limit peers.length) + 1
    else
      pollPeersFor clock peers (limit + 1) idle
termination_by (limit, idle)

/-- The pass over the peers' inboxes. -/
def pollPeers (clock : Clock) : Step σ τ Nat := do
  let config := (← get).host.server.config
  let peers := config.peerIds
  pollPeersFor clock peers config.maxMessagesPerTick peers.length

/-- Handles up to `limit` frames of the command inbox and counts them. -/
def pollCommandsFor (clock : Clock) : (limit : Nat) → Step σ τ Nat
  | 0 => return 0
  | limit + 1 => do
    match ← poll Transport.pollCommand with
    | none => return 0
    | some frame =>
      let _ ← call clock (·.receiveCommand · frame)
      return (← pollCommandsFor clock limit) + 1

/-- The pass over the command inbox. -/
def pollCommands (clock : Clock) : Step σ τ Nat := do
  pollCommandsFor clock (← get).host.server.config.maxMessagesPerTick

/-- One pass, giving the number of events handled. -/
def pass (clock : Clock) : Step σ τ Nat := do
  let fired ← call clock (·.pollTimer ·)
  let frames ← pollPeers clock
  let commands ← pollCommands clock
  call clock (·.perform ·)
  return (if fired then 1 else 0) + frames + commands

/-- The answer or failure of a part of a pass, and what it leaves. -/
def perform {α : Type} (part : Step σ τ α) (cycle : DutyCycle σ τ) :
    Except Failure α × DutyCycle σ τ :=
  match part.run cycle with
  | .ok answer worked => (.ok answer, worked)
  | .error failure worked => (.error failure, worked)

/-- Makes passes until one fails or `times` of them are done, and counts how often it was
asked whether to stop. -/
def run (clock : Clock) : (times : Nat) → DutyCycle σ τ →
    (Except Failure Unit × Nat) × DutyCycle σ τ
  | 0, cycle => ((.ok (), 1), cycle)
  | times + 1, cycle =>
    match (pass clock).run cycle with
    | .error failure worked => ((.error failure, 1), worked)
    | .ok _ worked =>
      let ((result, asked), finished) := run clock times worked
      ((result, asked + 1), finished)

end DutyCycle

end Consensus
