import Consensus.Config.Fault

/-! # Configurations

A configuration is one server's view of the cluster: the other members, and the
timings and limits it works under. Validation refuses the views under which a
majority of the listed members would not be a majority of distinct servers.
-/

namespace Consensus

/-- Another member of the cluster and the channel its messages travel on. -/
structure Peer where
  id : ServerId
  channel : String
  deriving DecidableEq, Repr

/-- One server's view of the cluster. Times are in milliseconds. -/
structure Config where
  serverId : ServerId := 0
  peers : List Peer := []
  electionTimeoutMin : Nat := 150
  electionTimeoutMax : Nat := 300
  heartbeatInterval : Nat := 50
  /-- How many messages of each kind of inbox one pass handles. -/
  maxMessagesPerTick : Nat := 10
  /-- How often a message is offered before it is given up. -/
  sendAttempts : Nat := 3
  deriving DecidableEq, Repr

namespace Config

/-- The view of `serverId` in a cluster of `members`, which may list the server itself. -/
def forCluster (serverId : ServerId) (members : List ServerId) : Config where
  serverId := serverId
  peers := (members.filter (· ≠ serverId)).map fun id => ⟨id, s!"raft-{id}"⟩

def peerIds (config : Config) : List ServerId := config.peers.map Peer.id

def isPeer (config : Config) (server : ServerId) : Bool :=
  config.peers.any (·.id == server)

/-- Every listed member, the server itself included. -/
def clusterSize (config : Config) : Nat := config.peers.length + 1

/-- The least number of members that is more than half of them. -/
def majority (config : Config) : Nat := config.clusterSize / 2 + 1

def electionMin (config : Config) : Duration := .ofMilliseconds config.electionTimeoutMin

def electionMax (config : Config) : Duration := .ofMilliseconds config.electionTimeoutMax

def heartbeat (config : Config) : Duration := .ofMilliseconds config.heartbeatInterval

/-! ## Validation -/

/-- The timings and limits can be worked with. -/
def checkTimings (config : Config) : Except ConfigFault Unit :=
  if config.electionTimeoutMax < config.electionTimeoutMin then
    .error (.timeoutsReversed config.electionTimeoutMin config.electionTimeoutMax)
  else if config.electionTimeoutMin = 0 then
    .error .timeoutNotPositive
  else if config.heartbeatInterval = 0 ∨
      config.electionTimeoutMin ≤ config.heartbeatInterval then
    .error (.heartbeatOutOfRange config.heartbeatInterval config.electionTimeoutMin)
  else if config.maxMessagesPerTick = 0 then
    .error .noMessagesPerTick
  else if config.sendAttempts = 0 then
    .error .noSendAttempts
  else
    .ok ()

/-- The peers are other servers, each listed once and on a channel of its own.
Peers without a channel do not share one. `ids` and `channels` are those already met. -/
def checkPeers (serverId : ServerId) (ids : List ServerId) (channels : List String) :
    List Peer → Except ConfigFault Unit
  | [] => .ok ()
  | peer :: rest =>
    if peer.id = serverId then
      .error (.selfAsPeer serverId)
    else if peer.id ∈ ids then
      .error (.duplicateServer peer.id)
    else if peer.channel ≠ "" ∧ peer.channel ∈ channels then
      .error (.duplicateChannel peer.channel)
    else
      checkPeers serverId (peer.id :: ids) (peer.channel :: channels) rest

/-- Accepts a sound configuration; otherwise names the first fault found. -/
def validate (config : Config) : Except ConfigFault Unit := do
  config.checkTimings
  checkPeers config.serverId [] [] config.peers

/-- A configuration that a server can run with. -/
structure Sound (config : Config) : Prop where
  heartbeat_pos : 0 < config.heartbeatInterval
  heartbeat_lt : config.heartbeatInterval < config.electionTimeoutMin
  timeouts_ordered : config.electionTimeoutMin ≤ config.electionTimeoutMax
  messages_pos : 0 < config.maxMessagesPerTick
  attempts_pos : 0 < config.sendAttempts
  self_not_peer : config.serverId ∉ config.peerIds
  ids_distinct : config.peerIds.Nodup
  channels_distinct : ((config.peers.map Peer.channel).filter (· ≠ "")).Nodup

end Config

end Consensus
