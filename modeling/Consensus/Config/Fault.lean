import Consensus.Log.Key
import Consensus.Text.Quoted
import Consensus.Time.Duration

/-! # Configuration faults

Each fault names one condition that a configuration, or the timer built from
it, does not meet. A server never starts with one.
-/

namespace Consensus

/-- Why a configuration is refused. -/
inductive ConfigFault where
  /-- The text is not a configuration. -/
  | unparseable
  /-- The file is missing or is not text. -/
  | unreadable
  | timeoutsReversed (min max : Nat)
  | timeoutNotPositive
  | heartbeatOutOfRange (interval timeoutMin : Nat)
  | noMessagesPerTick
  | noSendAttempts
  | selfAsPeer (server : ServerId)
  | duplicateServer (server : ServerId)
  | duplicateChannel (channel : String)
  | timerReversed (min max : Duration)
  | timerTooLong (max : Duration)
  deriving DecidableEq, Repr

def ConfigFault.message : ConfigFault → String
  | .unparseable => "cannot parse config"
  | .unreadable => "cannot read"
  | .timeoutsReversed min max =>
      s!"election_timeout_min {min} is greater than election_timeout_max {max}"
  | .timeoutNotPositive => "election_timeout_min must be positive"
  | .heartbeatOutOfRange interval timeoutMin =>
      s!"heartbeat_interval {interval} must be positive and below " ++
        s!"election_timeout_min {timeoutMin}"
  | .noMessagesPerTick => "max_messages_per_tick must be positive"
  | .noSendAttempts => "send_attempts must be positive"
  | .selfAsPeer server => s!"server {server} lists itself as a peer"
  | .duplicateServer server => s!"duplicate server id {server}"
  | .duplicateChannel channel => s!"duplicate channel {Text.quoted channel}"
  | .timerReversed min max =>
      s!"election timeout min {min.text} is greater than max {max.text}"
  | .timerTooLong max =>
      s!"election timeout max {max.text} does not fit in u64 nanoseconds"

end Consensus
