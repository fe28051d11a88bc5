import Consensus.Transport.Sending
import Consensus.Wire.Buffer

/-! # Outboxes

An outbox writes each message into one buffer, over whatever the last one left there, and
offers what the buffer then holds. It makes at least one offer.
-/

namespace Consensus

/-- A transport with the buffer that messages are written into. -/
structure Outbox (τ : Type) where
  transport : τ
  buffer : Bytes
  /-- How often a message is offered before it is given up. -/
  attempts : Nat
  attempts_pos : 0 < attempts

namespace Outbox

variable {τ : Type} [Transport τ]

def create (transport : τ) (attempts : Nat) : Outbox τ where
  transport
  buffer := []
  attempts := max attempts 1
  attempts_pos := Nat.lt_of_lt_of_le Nat.zero_lt_one (Nat.le_max_right _ _)

/-- Offers what the buffer holds, up to as many times as are left. -/
def offerUpTo (receiver : ServerId) : (left : Nat) → Outbox τ →
    Except TransportFailure Nat × Outbox τ
  | 0, outbox => (.error (.backpressured receiver outbox.attempts), outbox)
  | left + 1, outbox =>
    let (verdict, transport) := Transport.offer outbox.transport receiver outbox.buffer
    let offered := { outbox with transport }
    match verdict with
    | .accepted position => (.ok position, offered)
    | .backpressured => offerUpTo receiver left offered
    | .adminAction => offerUpTo receiver left offered
    | .closed => (.error (.closed receiver), offered)

/-- Writes a message and offers it, giving the position at which it was accepted. -/
def send (outbox : Outbox τ) (receiver : ServerId) (message : Message) :
    Except TransportFailure Nat × Outbox τ :=
  let (buffer, _) := message.write outbox.buffer
  offerUpTo receiver outbox.attempts { outbox with buffer }

/-- Sends a message and tells only whether it left. -/
def post (outbox : Outbox τ) (receiver : ServerId) (message : Message) : Bool × Outbox τ :=
  match outbox.send receiver message with
  | (.ok _, sent) => (true, sent)
  | (.error _, sent) => (false, sent)

/-- Posts messages in order. -/
def postAll (outbox : Outbox τ) (messages : List (ServerId × Message)) : Outbox τ :=
  messages.foldl (fun sent (receiver, message) => (sent.post receiver message).2) outbox

end Outbox

end Consensus
