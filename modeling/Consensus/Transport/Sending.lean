import Consensus.Transport.Offer
import Consensus.Wire.Frame

/-! # Sending

A message is encoded once and offered again while the transport refuses it for
the moment, up to a number of attempts. Posting gives up silently; only sending
reports why a message did not leave.
-/

namespace Consensus.Transport

variable {τ : Type} [Transport τ]

/-- Offers a frame until it is accepted, the channel is gone, or no attempt is left. -/
def offerUpTo (receiver : ServerId) (frame : Bytes) : (attempts : Nat) → τ → Verdict × τ
  | 0, transport => (.backpressured, transport)
  | attempts + 1, transport =>
    let (verdict, offered) := offer transport receiver frame
    if verdict.isTransient then offerUpTo receiver frame attempts offered else (verdict, offered)

/-- At least one attempt is made. -/
def attemptsMade (attempts : Nat) : Nat := max attempts 1

/-- Sends a message, giving the position at which the transport accepted it. -/
def send (attempts : Nat) (receiver : ServerId) (message : Message) (transport : τ) :
    Except TransportFailure Nat × τ :=
  match offerUpTo receiver message.encode (attemptsMade attempts) transport with
  | (.accepted position, offered) => (.ok position, offered)
  | (.closed, offered) => (.error (.closed receiver), offered)
  | (_, offered) => (.error (.backpressured receiver (attemptsMade attempts)), offered)

/-- Sends a message and tells only whether it left. -/
def post (attempts : Nat) (receiver : ServerId) (message : Message) (transport : τ) : Bool × τ :=
  match send attempts receiver message transport with
  | (.ok _, offered) => (true, offered)
  | (.error _, offered) => (false, offered)

/-- Posts messages in order. -/
def postAll (attempts : Nat) (messages : List (ServerId × Message)) (transport : τ) : τ :=
  messages.foldl
    (fun offered (receiver, message) => (post attempts receiver message offered).2) transport

end Consensus.Transport
