import Consensus.Transport.Offer
import Std.Data.HashMap
import Std.Data.HashSet

/-! # A network in memory

Every directed link between two servers is a queue. A link is cut while one of
its ends is isolated or the link itself is blocked: offers are still accepted,
and they and the frames already queued are lost one by one and counted. Frames
can be put on a link from outside, whether it is cut or not.
-/

namespace Consensus

/-- A directed link, from the sender to the receiver. -/
structure Link where
  sender : ServerId
  receiver : ServerId
  deriving DecidableEq, Hashable, Repr

structure Network where
  /-- Frames waiting on each link, oldest first. -/
  links : Std.HashMap Link (List Bytes) := {}
  /-- Client command frames waiting for each server, oldest first. -/
  commands : Std.HashMap ServerId (List Bytes) := {}
  isolated : Std.HashSet ServerId := {}
  blocked : Std.HashSet Link := {}
  /-- How many more offers of each server are refused for the moment, counted in 32 bits. -/
  backpressure : Std.HashMap ServerId (BitVec 32) := {}
  closed : Std.HashSet ServerId := {}
  nextPosition : Nat := 0
  /-- Frames lost on cut links. -/
  dropped : Nat := 0

namespace Network

/-- Nothing passes from the sender to the receiver. -/
def isCut (network : Network) (link : Link) : Bool :=
  network.isolated.contains link.sender || network.isolated.contains link.receiver ||
    network.blocked.contains link

/-- Frames waiting on a link. -/
def waiting (network : Network) (link : Link) : List Bytes := network.links.getD link []

/-- Client command frames waiting for a server. -/
def waitingCommands (network : Network) (server : ServerId) : List Bytes :=
  network.commands.getD server []

/-- How many more offers of a server are refused for the moment. -/
def refusals (network : Network) (server : ServerId) : BitVec 32 :=
  network.backpressure.getD server 0

def setWaiting (network : Network) (link : Link) (frames : List Bytes) : Network :=
  { network with links := network.links.insert link frames }

/-! ## Outside control -/

/-- Cuts every link to and from a server. -/
def isolate (network : Network) (server : ServerId) : Network :=
  { network with isolated := network.isolated.insert server }

def heal (network : Network) (server : ServerId) : Network :=
  { network with isolated := network.isolated.erase server }

/-- Cuts one link in one direction. -/
def block (network : Network) (link : Link) : Network :=
  { network with blocked := network.blocked.insert link }

def unblock (network : Network) (link : Link) : Network :=
  { network with blocked := network.blocked.erase link }

/-- Joins all links again. -/
def healAll (network : Network) : Network :=
  { network with isolated := {}, blocked := {} }

/-- Refuses a number of further offers of a server, on top of those still to be refused. A sum that
32 bits cannot hold wraps; a build that checks its sums would stop here instead. -/
def injectBackpressure (network : Network) (server : ServerId) (count : BitVec 32) : Network :=
  { network with
    backpressure := network.backpressure.insert server (network.refusals server + count) }

/-- Refuses every further offer of a server for good. -/
def close (network : Network) (server : ServerId) : Network :=
  { network with closed := network.closed.insert server }

/-- Puts a frame on a link as if its sender had sent it. -/
def inject (network : Network) (link : Link) (frame : Bytes) : Network :=
  network.setWaiting link (network.waiting link ++ [frame])

/-- Queues a client command frame for a server. -/
def submitCommand (network : Network) (server : ServerId) (frame : Bytes) : Network :=
  { network with
    commands := network.commands.insert server (network.waitingCommands server ++ [frame]) }

/-- Takes every frame that waits on a link. -/
def drain (network : Network) (link : Link) : List Bytes × Network :=
  (network.waiting link, network.setWaiting link [])

/-! ## The servers' side -/

/-- Offers a frame. An accepted frame gets the next position of the whole network. -/
def offer (network : Network) (link : Link) (frame : Bytes) : Verdict × Network :=
  if network.closed.contains link.sender then
    (.closed, network)
  else if 0 < network.refusals link.sender then
    (.backpressured,
      { network with
        backpressure :=
          network.backpressure.insert link.sender (network.refusals link.sender - 1) })
  else
    let counted := { network with nextPosition := network.nextPosition + 1 }
    (.accepted network.nextPosition,
      if network.isCut link then { counted with dropped := counted.dropped + 1 }
      else counted.inject link frame)

/-- Takes the oldest frame of a link into the caller's buffer, and tells whether one was read. On a
cut link the frame is lost instead. A buffer that nothing is read into keeps what it holds. -/
def pollPeerInto (network : Network) (link : Link) (buffer : Bytes) : (Bool × Bytes) × Network :=
  match network.waiting link with
  | [] => ((false, buffer), network)
  | frame :: rest =>
    let taken := network.setWaiting link rest
    if network.isCut link then
      ((false, buffer), { taken with dropped := taken.dropped + 1 })
    else
      ((true, frame), taken)

/-- Takes the oldest client command frame of a server into the caller's buffer. -/
def pollCommandInto (network : Network) (server : ServerId) (buffer : Bytes) :
    (Bool × Bytes) × Network :=
  match network.waitingCommands server with
  | [] => ((false, buffer), network)
  | frame :: rest =>
    ((true, frame), { network with commands := network.commands.insert server rest })

/-- What was read into a buffer, if anything. -/
def found (polled : (Bool × Bytes) × Network) : Option Bytes × Network :=
  (if polled.1.1 then some polled.1.2 else none, polled.2)

/-- Takes the oldest frame of a link. -/
def pollPeer (network : Network) (link : Link) : Option Bytes × Network :=
  found (network.pollPeerInto link [])

/-- Takes the oldest client command frame of a server. -/
def pollCommand (network : Network) (server : ServerId) : Option Bytes × Network :=
  found (network.pollCommandInto server [])

end Network

/-- One server's place on a network. -/
structure Endpoint where
  serverId : ServerId
  network : Network

namespace Endpoint

/-- The link to another server. -/
def linkTo (endpoint : Endpoint) (server : ServerId) : Link := ⟨endpoint.serverId, server⟩

/-- The link from another server. -/
def linkFrom (endpoint : Endpoint) (server : ServerId) : Link := ⟨server, endpoint.serverId⟩

/-- Puts back the network that a call leaves behind. -/
def carry {α : Type} (endpoint : Endpoint) (result : α × Network) : α × Endpoint :=
  (result.1, { endpoint with network := result.2 })

end Endpoint

instance : Transport Endpoint where
  offer endpoint receiver frame :=
    endpoint.carry (endpoint.network.offer (endpoint.linkTo receiver) frame)
  pollPeer endpoint server :=
    endpoint.carry (endpoint.network.pollPeer (endpoint.linkFrom server))
  pollCommand endpoint :=
    endpoint.carry (endpoint.network.pollCommand endpoint.serverId)

end Consensus
