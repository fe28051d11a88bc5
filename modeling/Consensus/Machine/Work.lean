import Consensus.Machine.Arithmetic
import Consensus.Server.Operations
import Consensus.Transport.Outbox

/-! # Machines

A machine is a server with the outbox that it sends through. What it does is done in smaller
steps than a turn: every sum of indices may fail to be formed, and every message is offered
to the transport where it is posted.
-/

namespace Consensus

/-- Why a machine stops. -/
inductive Halt where
  /-- A sum could not be formed. -/
  | overflow
  /-- An entry was about to be applied out of turn. -/
  | disorder
  | failure (failure : Failure)
  deriving DecidableEq, Repr

/-- A server and the outbox it sends through. -/
structure Machine (σ τ : Type) where
  server : Server σ
  outbox : Outbox τ

/-- A call in progress on a machine. -/
structure Station (σ τ : Type) where
  server : Server σ
  now : Duration
  outbox : Outbox τ

/-- A part of what a machine does in a call. -/
abbrev Work (σ τ α : Type) := EStateM Halt (Station σ τ) α

/-- What a machine answers, and the machine that is left. -/
def Machine.run {σ τ α : Type} (machine : Machine σ τ) (now : Duration) (work : Work σ τ α) :
    Except Halt α × Machine σ τ :=
  match work.run ⟨machine.server, now, machine.outbox⟩ with
  | .ok answer finished => (.ok answer, ⟨finished.server, finished.outbox⟩)
  | .error halt finished => (.error halt, ⟨finished.server, finished.outbox⟩)

namespace Work

variable {σ τ α : Type}

def server : Work σ τ (Server σ) := return (← get).server

def now : Work σ τ Duration := return (← get).now

def modifyServer (change : Server σ → Server σ) : Work σ τ Unit :=
  modify fun station => { station with server := change station.server }

def setRole (role : Role) : Work σ τ Unit := modifyServer ({ · with role })

def modifyProgress (change : Progress → Progress) : Work σ τ Unit :=
  modifyServer fun server => { server with progress := change server.progress }

def setLog (log : Log σ) : Work σ τ Unit :=
  modifyServer fun server => { server with durable := { server.durable with log } }

def modifyTimer (change : Countdown → Duration → Countdown) : Work σ τ Unit :=
  modify fun station =>
    { station with
      server := { station.server with timer := change station.server.timer station.now } }

def fail (failure : Failure) : Work σ τ α := throw (.failure failure)

/-- Goes on with a sum, or stops where there is none. -/
def form (sum : Option α) : Work σ τ α :=
  match sum with
  | some value => return value
  | none => throw .overflow

/-- Takes over a changed durable state, or fails and keeps the present one. -/
def changeDurable (change : Durable σ → Except StorageFailure (Durable σ)) :
    Work σ τ Unit := do
  match change (← server).durable with
  | .ok durable => modifyServer ({ · with durable })
  | .error cause => fail (.storage cause)

variable [Transport τ]

/-- Offers a message to another server, and passes over what becomes of it. -/
def post (receiver : ServerId) (message : Message) : Work σ τ Unit :=
  modify fun station => { station with outbox := (station.outbox.post receiver message).2 }

end Work

end Consensus
