import Consensus.Log.Key

/-! # Messages between servers

Five kinds of message pass between servers. An append request carries at most
one entry and is a heartbeat when it carries none. Client commands come in on
a channel of their own and travel between servers only inside entries.
-/

namespace Consensus

/-- The kinds of message that servers exchange. -/
inductive MessageKind where
  | voteRequest
  | voteResponse
  | appendRequest
  | appendResponse
  | timeoutNow
  deriving DecidableEq, Repr

namespace MessageKind

/-- The number that stands for a kind at the head of a frame. -/
def tag : MessageKind → Int
  | .voteRequest => 0
  | .voteResponse => 1
  | .appendRequest => 2
  | .appendResponse => 3
  | .timeoutNow => 4

def ofTag? (tag : Int) : Option MessageKind :=
  match tag with
  | 0 => some .voteRequest
  | 1 => some .voteResponse
  | 2 => some .appendRequest
  | 3 => some .appendResponse
  | 4 => some .timeoutNow
  | _ => none

def name : MessageKind → String
  | .voteRequest => "VoteRequest"
  | .voteResponse => "VoteResponse"
  | .appendRequest => "AppendRequest"
  | .appendResponse => "AppendResponse"
  | .timeoutNow => "TimeoutNow"

theorem ofTag?_tag (kind : MessageKind) : ofTag? kind.tag = some kind := by
  cases kind <;> rfl

theorem ofTag?_eq_some_iff {tag : Int} {kind : MessageKind} :
    ofTag? tag = some kind ↔ kind.tag = tag := by
  constructor
  · intro h
    simp only [ofTag?] at h
    split at h <;> simp_all <;> subst h <;> rfl
  · rintro rfl
    exact ofTag?_tag kind

end MessageKind

/-- Asks for a vote in an election. -/
structure VoteRequest where
  term : Term
  candidateId : ServerId
  lastLogEntry : LogKey
  deriving DecidableEq, Repr

/-- Answers a vote request. -/
structure VoteResponse where
  term : Term
  granted : Bool
  deriving DecidableEq, Repr

/-- A log entry together with its place. The command is an encoded `Command`. -/
structure PlacedEntry where
  term : Term
  index : Index
  command : Bytes
  deriving DecidableEq, Repr

def PlacedEntry.key (entry : PlacedEntry) : LogKey := ⟨entry.term, entry.index⟩

/-- Replicates one entry, or is a heartbeat when it carries none. -/
structure AppendRequest where
  term : Term
  leaderId : ServerId
  /-- The key right in front of the entry, or of the position the leader vouches for. -/
  prevLogEntry : LogKey
  leaderCommit : Index
  entry : Option PlacedEntry
  deriving DecidableEq, Repr

/-- The last index that a follower holds for certain once it has taken the request. -/
def AppendRequest.lastNewIndex (request : AppendRequest) : Index :=
  match request.entry with
  | some entry => entry.index
  | none => request.prevLogEntry.index

/-- Answers an append request. -/
structure AppendResponse where
  term : Term
  successful : Bool
  serverId : ServerId
  /-- On success the last index known to match the leader, otherwise the responder's last index. -/
  matchLogIndex : Index
  deriving DecidableEq, Repr

/-- Asks one server to start an election at once, to hand leadership over. -/
structure TimeoutNow where
  term : Term
  candidateId : ServerId
  deriving DecidableEq, Repr

/-- A client's command. -/
structure Command where
  sourceId : SourceId
  sequence : Sequence
  payload : Bytes
  deriving DecidableEq, Repr

/-- Any message between servers. -/
inductive Message where
  | voteRequest (body : VoteRequest)
  | voteResponse (body : VoteResponse)
  | appendRequest (body : AppendRequest)
  | appendResponse (body : AppendResponse)
  | timeoutNow (body : TimeoutNow)
  deriving DecidableEq, Repr

namespace Message

def term : Message → Term
  | .voteRequest body => body.term
  | .voteResponse body => body.term
  | .appendRequest body => body.term
  | .appendResponse body => body.term
  | .timeoutNow body => body.term

def kind : Message → MessageKind
  | .voteRequest _ => .voteRequest
  | .voteResponse _ => .voteResponse
  | .appendRequest _ => .appendRequest
  | .appendResponse _ => .appendResponse
  | .timeoutNow _ => .timeoutNow

end Message

/-- One thing that can happen to a server. -/
inductive Event where
  /-- A message arrived on the channel of `sender`, which need not be the server it names. -/
  | received (sender : ServerId) (message : Message)
  /-- The election timer ran out. -/
  | timerRanOut
  /-- A client submitted a command. -/
  | submitted (command : Command)
  deriving DecidableEq, Repr

/-- The term an event carries. Only messages carry one. -/
def Event.term? : Event → Option Term
  | .received _ message => some message.term
  | .timerRanOut => none
  | .submitted _ => none

end Consensus
