import Consensus.Config.Membership
import Consensus.Log.Durable
import Consensus.Replication.Delivery
import Consensus.Replication.Progress
import Consensus.Time.Countdown

/-! # Servers

A server is in one of three roles, each with the data that only it needs. All
else it holds outlives a change of role, and its durable state outlives a crash.
-/

namespace Consensus

/-- What a server is doing in its present term. -/
inductive Role where
  /-- Answers others, and knows the leader it last heard from. -/
  | follower (leader : Option ServerId)
  /-- Campaigns; while an election is pending, it starts with the next duties. -/
  | candidate (electionPending : Bool)
  /-- Leads, and owes its followers a heartbeat at a clock reading. -/
  | leader (nextHeartbeat : Duration)
  deriving DecidableEq, Repr

namespace Role

def name : Role → String
  | .follower _ => "Follower"
  | .candidate _ => "Candidate"
  | .leader _ => "Leader"

def isLeader : Role → Bool
  | .leader _ => true
  | _ => false

end Role

/-- What a handler asks of the server's role. -/
inductive RoleChange where
  | stay
  /-- Become a follower and handle the same event again. -/
  | follow
  | campaign
  | lead
  deriving DecidableEq, Repr

/-- One member of a cluster. -/
structure Server (σ : Type) where
  config : Config
  role : Role
  durable : Durable σ
  progress : Progress
  timer : Countdown
  delivered : Deliveries

namespace Server

variable {σ : Type} [Store σ]

def id (server : Server σ) : ServerId := server.config.serverId

def term (server : Server σ) : Term := server.durable.term

def votedFor (server : Server σ) : Option ServerId := server.durable.votedFor

def log (server : Server σ) : Log σ := server.durable.log

def commitIndex (server : Server σ) : Index := server.progress.commitIndex

/-- The leader this server knows of in its present term. -/
def knownLeader (server : Server σ) : Option ServerId :=
  match server.role with
  | .follower leader => leader
  | .candidate _ => none
  | .leader _ => some server.id

/-- Votes granted in the latest election, the server's own included. -/
def voteCount (server : Server σ) : Nat := server.progress.tally.size

/-- The server has the votes of a majority of the cluster. -/
def Elected (server : Server σ) : Prop := server.config.majority ≤ server.voteCount

instance (server : Server σ) : Decidable server.Elected :=
  inferInstanceAs (Decidable (server.config.majority ≤ server.voteCount))

/-- A server on one line. -/
def summary (server : Server σ) : String :=
  s!"RaftNode \x7b id: {server.id}, state: {server.role.name}, term: {server.term}, " ++
    s!"commit_index: {server.commitIndex}, .. \x7d"

/-- A follower with what a store holds. The configuration is checked before the store is
read, and its timer starts to count at `now`. -/
def start (config : Config) (store : σ) (draws : Draws) (now : Duration) :
    Except Failure (Server σ) := do
  config.validate.mapError .configuration
  let durable ← (Durable.load store).mapError .storage
  let timer ← (Countdown.create config.electionMin config.electionMax draws).mapError
    .configuration
  return {
    config, durable
    role := .follower none
    progress := {}
    timer := timer.restart now
    delivered := {} }

/-- Replaces the store of a running server behind its back. -/
def mapStore (server : Server σ) (change : σ → σ) : Server σ :=
  { server with durable := server.durable.mapStore change }

end Server

end Consensus
