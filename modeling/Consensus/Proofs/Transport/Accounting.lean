import Consensus.Transport.Network
import Mathlib.Algebra.Ring.Nat
import Mathlib.Data.List.Basic
import Mathlib.Tactic.Common

/-! # Accounting for frames

Whatever is done to a network in memory, and by whom, each link gives out in order what was put on
it, and each frame that is lost is counted. How an offer is answered, and which links are cut, can
be told from what was done before.
-/

namespace Consensus

/-! ## Calls -/

/-- A call to a network, by whoever controls it or by one of its servers. -/
inductive NetworkCall where
  | isolate (server : ServerId)
  | heal (server : ServerId)
  | block (link : Link)
  | unblock (link : Link)
  | healAll
  | injectBackpressure (server : ServerId) (count : BitVec 32)
  | close (server : ServerId)
  | inject (link : Link) (frame : Bytes)
  | submitCommand (server : ServerId) (frame : Bytes)
  | drain (link : Link)
  | offer (link : Link) (frame : Bytes)
  | pollPeer (link : Link) (buffer : Bytes)
  | pollCommand (server : ServerId) (buffer : Bytes)
  deriving DecidableEq, Repr

inductive NetworkAnswer where
  | done
  | drained (frames : List Bytes)
  | verdict (verdict : Verdict)
  /-- Whether something was found, and what the caller's buffer holds then. -/
  | polled (found : Bool) (buffer : Bytes)
  deriving DecidableEq, Repr

/-- A call, its answer, and the network that it met. -/
structure NetworkEvent where
  before : Network
  call : NetworkCall
  answer : NetworkAnswer

namespace Network

/-- The network that a call leaves behind, and the answer to it. -/
def serve (network : Network) : NetworkCall → Network × NetworkAnswer
  | .isolate server => (network.isolate server, .done)
  | .heal server => (network.heal server, .done)
  | .block link => (network.block link, .done)
  | .unblock link => (network.unblock link, .done)
  | .healAll => (network.healAll, .done)
  | .injectBackpressure server count => (network.injectBackpressure server count, .done)
  | .close server => (network.close server, .done)
  | .inject link frame => (network.inject link frame, .done)
  | .submitCommand server frame => (network.submitCommand server frame, .done)
  | .drain link => ((network.drain link).2, .drained (network.drain link).1)
  | .offer link frame => ((network.offer link frame).2, .verdict (network.offer link frame).1)
  | .pollPeer link buffer =>
    let polled := network.pollPeerInto link buffer
    (polled.2, .polled polled.1.1 polled.1.2)
  | .pollCommand server buffer =>
    let polled := network.pollCommandInto server buffer
    (polled.2, .polled polled.1.1 polled.1.2)

/-- The event of a call. -/
def event (network : Network) (call : NetworkCall) : NetworkEvent :=
  ⟨network, call, (network.serve call).2⟩

/-- The network that calls leave behind. -/
def after (network : Network) : List NetworkCall → Network
  | [] => network
  | call :: rest => after (network.serve call).1 rest

end Network

/-! ## What a call does -/

namespace NetworkEvent

variable (event : NetworkEvent)

/-- The frames put on a link: an offer that is accepted while the link is not cut, or one from
outside. -/
def entered (link : Link) : List Bytes :=
  match event.call, event.answer with
  | .inject other frame, _ => if other = link then [frame] else []
  | .offer other frame, .verdict (.accepted _) =>
    if other = link ∧ event.before.isCut other = false then [frame] else []
  | _, _ => []

/-- The frames taken from a link: what a poll finds, or loses while the link is cut, and what is
drained. -/
def taken (link : Link) : List Bytes :=
  match event.call, event.answer with
  | .pollPeer other _, .polled true frame => if other = link then [frame] else []
  | .pollPeer other _, .polled false _ =>
    if other = link ∧ event.before.isCut other then (event.before.waiting other).take 1 else []
  | .drain other, .drained frames => if other = link then frames else []
  | _, _ => []

end NetworkEvent

namespace Network

variable {network : Network} {call : NetworkCall} {link other : Link} {server : ServerId}

/-! ### Offers and polls -/

/-- An offer is refused for good, refused for the moment, lost, or put on its link. -/
theorem offer_cases (network : Network) (link : Link) (frame : Bytes) :
    (network.closed.contains link.sender = true ∧ network.offer link frame = (.closed, network)) ∨
    (network.closed.contains link.sender = false ∧ 0 < network.refusals link.sender ∧
      network.offer link frame = (.backpressured, { network with
        backpressure :=
          network.backpressure.insert link.sender (network.refusals link.sender - 1) })) ∨
    (network.closed.contains link.sender = false ∧ network.refusals link.sender = 0 ∧
      network.isCut link = true ∧
      network.offer link frame = (.accepted network.nextPosition, { network with
        nextPosition := network.nextPosition + 1
        dropped := network.dropped + 1 })) ∨
    (network.closed.contains link.sender = false ∧ network.refusals link.sender = 0 ∧
      network.isCut link = false ∧
      network.offer link frame = (.accepted network.nextPosition,
        { network with nextPosition := network.nextPosition + 1 }.inject link frame)) := by
  unfold offer
  cases hclosed : network.closed.contains link.sender with
  | true => exact .inl ⟨rfl, rfl⟩
  | false =>
    rw [if_neg Bool.false_ne_true]
    by_cases hrefused : 0 < network.refusals link.sender
    · rw [if_pos hrefused]
      exact .inr (.inl ⟨rfl, hrefused, rfl⟩)
    · rw [if_neg hrefused]
      have hnone := BitVec.le_zero_iff.mp (BitVec.not_lt.mp hrefused)
      cases hcut : network.isCut link with
      | true => exact .inr (.inr (.inl ⟨rfl, hnone, rfl, rfl⟩))
      | false => exact .inr (.inr (.inr ⟨rfl, hnone, rfl, rfl⟩))

/-- A poll finds nothing, loses what is in front, or reads it into the buffer. -/
theorem pollPeerInto_cases (network : Network) (link : Link) (buffer : Bytes) :
    (network.waiting link = [] ∧ network.pollPeerInto link buffer = ((false, buffer), network)) ∨
    (∃ frame rest, network.waiting link = frame :: rest ∧ network.isCut link = true ∧
      network.pollPeerInto link buffer = ((false, buffer),
        { network.setWaiting link rest with dropped := network.dropped + 1 })) ∨
    (∃ frame rest, network.waiting link = frame :: rest ∧ network.isCut link = false ∧
      network.pollPeerInto link buffer = ((true, frame), network.setWaiting link rest)) := by
  unfold pollPeerInto
  cases hwaiting : network.waiting link with
  | nil => exact .inl ⟨rfl, rfl⟩
  | cons frame rest =>
    cases hcut : network.isCut link with
    | true => exact .inr (.inl ⟨frame, rest, rfl, rfl, rfl⟩)
    | false => exact .inr (.inr ⟨frame, rest, rfl, rfl, rfl⟩)

/-- An offer changes neither what is closed nor what is cut. -/
theorem controls_offer (network : Network) (link : Link) (frame : Bytes) :
    (network.offer link frame).2.closed = network.closed ∧
      (network.offer link frame).2.isolated = network.isolated ∧
      (network.offer link frame).2.blocked = network.blocked := by
  rcases network.offer_cases link frame with
    ⟨-, hoffer⟩ | ⟨-, -, hoffer⟩ | ⟨-, -, -, hoffer⟩ | ⟨-, -, -, hoffer⟩ <;>
  simp only [hoffer, inject, setWaiting, and_self]

theorem waiting_setWaiting (network : Network) (frames : List Bytes) :
    (network.setWaiting link frames).waiting other =
      if link = other then frames else network.waiting other := by
  simp only [waiting, setWaiting, Std.HashMap.getD_insert, beq_iff_eq]

/-- A frame that is injected waits behind the others of its link. -/
theorem waiting_inject (network : Network) (frame : Bytes) :
    (network.inject link frame).waiting other =
      network.waiting other ++ if link = other then [frame] else [] := by
  rw [inject, waiting_setWaiting]
  by_cases hlink : link = other <;> simp [hlink]

/-- An offer of a server that is not closed is refused exactly while a refusal is left over. -/
theorem backpressured_iff (hopen : network.closed.contains link.sender = false) (frame : Bytes) :
    (network.offer link frame).1 = .backpressured ↔ 0 < network.refusals link.sender := by
  rcases network.offer_cases link frame with
    ⟨hshut, -⟩ | ⟨-, hsome, hoffer⟩ | ⟨-, hnone, -, hoffer⟩ | ⟨-, hnone, -, hoffer⟩
  · simp [hopen] at hshut
  · exact iff_of_true (congrArg Prod.fst hoffer) hsome
  · simp [hoffer, hnone]
  · simp [hoffer, hnone]

end Network

end Consensus
