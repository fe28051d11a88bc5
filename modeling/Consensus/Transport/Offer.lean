import Consensus.Log.Key

/-! # Transports

A transport takes frames for other servers and hands out what has arrived. No
call waits: an offer is accepted or refused at once, and a poll finds a frame or
does not. A refusal may be transient, and then the same offer may succeed later.
-/

namespace Consensus

/-- What a transport does with one offered frame. -/
inductive Verdict where
  /-- Accepted, at a position of the transport's own. -/
  | accepted (position : Nat)
  /-- The channel is full. -/
  | backpressured
  /-- The channel is busy with administrative work. -/
  | adminAction
  /-- The channel is gone. -/
  | closed
  deriving DecidableEq, Repr

/-- The same offer may succeed later. -/
def Verdict.isTransient : Verdict → Bool
  | .backpressured => true
  | .adminAction => true
  | .accepted _ => false
  | .closed => false

/-- Channels to and from other servers, and the inbox of client commands. -/
class Transport (τ : Type) where
  offer : τ → ServerId → Bytes → Verdict × τ
  /-- Takes the next frame that arrived from a server. -/
  pollPeer : τ → ServerId → Option Bytes × τ
  /-- Takes the next frame of a client command. -/
  pollCommand : τ → Option Bytes × τ

/-- Why a message could not be handed to the transport. -/
inductive TransportFailure where
  | closed (server : ServerId)
  | backpressured (server : ServerId) (attempts : Nat)
  deriving DecidableEq, Repr

def TransportFailure.message : TransportFailure → String
  | .closed server => s!"channel to {server} is closed"
  | .backpressured server attempts =>
      s!"channel to {server} still back-pressured after {attempts} attempts"

end Consensus
