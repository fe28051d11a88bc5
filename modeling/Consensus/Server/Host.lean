import Consensus.Server.Operations
import Consensus.Transport.Sending

/-! # Hosts

A host is a server together with the transport it sends through. Each call gives
the server its turn and then posts what the turn left, so a server fares the same
whatever its transport does. Only a transfer of leadership reports on its message.
-/

namespace Consensus

structure Host (σ τ : Type) where
  server : Server σ
  transport : τ

namespace Host

variable {σ τ : Type} [Store σ] [Transport τ]

/-- Takes over what a turn left behind and posts its messages. -/
def settle {α : Type} (host : Host σ τ) (outcome : Outcome σ α) :
    Except Failure α × Host σ τ :=
  (outcome.answer,
    { server := outcome.server
      transport := Transport.postAll host.server.config.sendAttempts outcome.messages
        host.transport })

def receive (host : Host σ τ) (now : Duration) (sender : ServerId) (frame : Bytes) :
    Except Failure Unit × Host σ τ :=
  host.settle (host.server.receive now sender frame)

def submit (host : Host σ τ) (now : Duration) (command : Command) :
    Except Failure Bool × Host σ τ :=
  host.settle (host.server.submit now command)

def receiveCommand (host : Host σ τ) (now : Duration) (frame : Bytes) :
    Except Failure Bool × Host σ τ :=
  host.settle (host.server.receiveCommand now frame)

def pollTimer (host : Host σ τ) (now : Duration) : Except Failure Bool × Host σ τ :=
  host.settle (host.server.pollTimer now)

def perform (host : Host σ τ) (now : Duration) : Except Failure Unit × Host σ τ :=
  host.settle (host.server.perform now)

/-- Asks a peer to take over the leadership. -/
def transferLeadership (host : Host σ τ) (target : ServerId) :
    Except Failure Unit × Host σ τ :=
  match host.server.transferRequest target with
  | .error failure => (.error failure, host)
  | .ok request =>
    let (result, transport) :=
      Transport.send host.server.config.sendAttempts target request host.transport
    ((result.map fun _ => ()).mapError .transport, { host with transport })

/-- Replaces the store of the running server behind its back. -/
def mapStore (host : Host σ τ) (change : σ → σ) : Host σ τ :=
  { host with server := host.server.mapStore change }

end Host

end Consensus
