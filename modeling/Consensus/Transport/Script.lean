import Consensus.Transport.Offer

/-! # Scripted transports

A scripted transport answers offers from a list and keeps what was offered. When
the list is used up it accepts, counting positions from the number of offers made.
Nothing ever arrives on it.
-/

namespace Consensus

structure ScriptedTransport where
  answers : List Verdict
  /-- The frames offered so far, oldest first. -/
  offered : List (ServerId × Bytes) := []
  deriving DecidableEq, Repr

namespace ScriptedTransport

def offer (script : ScriptedTransport) (receiver : ServerId) (frame : Bytes) :
    Verdict × ScriptedTransport :=
  let offered := script.offered ++ [(receiver, frame)]
  match script.answers with
  | answer :: rest => (answer, { answers := rest, offered })
  | [] => (.accepted offered.length, { answers := [], offered })

/-- The same answers to come, with nothing offered yet. -/
def forget (script : ScriptedTransport) : ScriptedTransport := { script with offered := [] }

end ScriptedTransport

instance : Transport ScriptedTransport where
  offer := ScriptedTransport.offer
  pollPeer script _ := (none, script)
  pollCommand script := (none, script)

end Consensus
