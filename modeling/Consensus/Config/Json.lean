import Consensus.Config.Membership
import Consensus.Json.Field

/-! # Configurations as JSON

A configuration is read from a JSON record whose fields may all be missing, and
is written as one compact object. Identifiers have the width they have in frames;
times and counts have eight bytes, and the number of attempts four.
-/

namespace Consensus

open Json (Value)

/-- A peer's identifier is required, its channel is empty unless given. -/
def Peer.ofValue? (value : Value) : Option Peer := do
  match ← value.record? ["id", "channel"] with
  | [some id, channel] =>
    return { id := ← id.signed? 4, channel := ← Value.fieldOr channel "" Value.text? }
  | _ => none

namespace Config

/-- Every field keeps its default unless given. -/
def ofValue? (value : Value) : Option Config := do
  let names := ["server_id", "peers", "election_timeout_min", "election_timeout_max",
    "heartbeat_interval", "max_messages_per_tick", "send_attempts"]
  let unset : Config := {}
  match ← value.record? names with
  | [serverId, peers, timeoutMin, timeoutMax, interval, messages, attempts] =>
    return {
      serverId := ← Value.fieldOr serverId unset.serverId (·.signed? 4)
      peers := ← Value.fieldOr peers unset.peers fun list => do
        (← list.array?).mapM Peer.ofValue?
      electionTimeoutMin := ← Value.fieldOr timeoutMin unset.electionTimeoutMin (·.count? 8)
      electionTimeoutMax := ← Value.fieldOr timeoutMax unset.electionTimeoutMax (·.count? 8)
      heartbeatInterval := ← Value.fieldOr interval unset.heartbeatInterval (·.count? 8)
      maxMessagesPerTick := ← Value.fieldOr messages unset.maxMessagesPerTick (·.count? 8)
      sendAttempts := ← Value.fieldOr attempts unset.sendAttempts (·.count? 4) }
  | _ => none

/-- Reads and validates a configuration. -/
def ofJson (text : String) : Except ConfigFault Config :=
  match Json.parse? text.toList >>= ofValue? with
  | none => .error .unparseable
  | some config => do
    config.validate
    return config

/-- Reads a configuration from the bytes of a file, none when there is no such file. -/
def ofFile (contents : Option Bytes) : Except ConfigFault Config :=
  match contents.bind fun bytes => String.fromUTF8? ⟨bytes.toArray⟩ with
  | none => .error .unreadable
  | some text => ofJson text

/-- A peer as an object. -/
def peerJson (peer : Peer) : String :=
  s!"\x7b\"id\":{peer.id},\"channel\":{Json.quote peer.channel}\x7d"

/-- The configuration as one compact object, fields in declared order. -/
def toJson (config : Config) : String :=
  let peers := String.intercalate "," (config.peers.map peerJson)
  s!"\x7b\"server_id\":{config.serverId},\"peers\":[{peers}]," ++
    s!"\"election_timeout_min\":{config.electionTimeoutMin}," ++
    s!"\"election_timeout_max\":{config.electionTimeoutMax}," ++
    s!"\"heartbeat_interval\":{config.heartbeatInterval}," ++
    s!"\"max_messages_per_tick\":{config.maxMessagesPerTick}," ++
    s!"\"send_attempts\":{config.sendAttempts}\x7d"

end Config

end Consensus
