import Consensus.Config.Fault
import Consensus.Storage.Failure
import Consensus.Transport.Offer

/-! # Failures

Everything a server can fail at. Fatal failures are those after which it must
stop: it cannot trust its storage, its configuration or its term counter.
-/

namespace Consensus

inductive Failure where
  | malformed (cause : Malformed)
  | configuration (fault : ConfigFault)
  | storage (cause : StorageFailure)
  | notLeader (leader : Option ServerId)
  | unknownPeer (server : ServerId)
  | transport (cause : TransportFailure)
  /-- The term cannot grow any further. -/
  | termExhausted (term : Term)
  deriving DecidableEq, Repr

namespace Failure

/-- A leader that may be unknown. -/
def leaderText : Option ServerId → String
  | none => "None"
  | some server => s!"Some({server})"

def message : Failure → String
  | .malformed cause => s!"malformed message: {cause.message}"
  | .configuration fault => s!"invalid configuration: {fault.message}"
  | .storage cause => s!"storage failure: {cause.message}"
  | .notLeader leader => s!"not the leader, current leader is {leaderText leader}"
  | .unknownPeer server => s!"unknown peer {server}"
  | .transport cause => s!"transport error: {cause.message}"
  | .termExhausted term => s!"term space exhausted at term {term}"

/-- The server must stop. -/
def isFatal : Failure → Bool
  | .storage _ => true
  | .configuration _ => true
  | .termExhausted _ => true
  | .malformed _ => false
  | .notLeader _ => false
  | .unknownPeer _ => false
  | .transport _ => false

end Failure

end Consensus
