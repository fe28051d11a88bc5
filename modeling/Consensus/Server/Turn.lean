import Consensus.Server.State

/-! # Turns

One call to a server is a turn at one clock reading. Handlers change the server
and post messages; nothing they do depends on what becomes of a message, so the
messages of a turn are handed to the transport after it. A failure ends the turn
and leaves what was done before it.
-/

namespace Consensus

/-- A message that a turn sends, with its sender as it was at that moment. -/
structure Posting (σ : Type) where
  receiver : ServerId
  message : Message
  sender : Server σ

/-- A call in progress. -/
structure Turn (σ : Type) where
  server : Server σ
  now : Duration
  /-- The messages posted so far, oldest first. -/
  postings : List (Posting σ)

/-- A part of a turn. -/
abbrev Action (σ α : Type) := EStateM Failure (Turn σ) α

/-- What a turn leaves behind. -/
structure Outcome (σ α : Type) where
  server : Server σ
  postings : List (Posting σ)
  answer : Except Failure α

namespace Outcome

variable {σ α : Type}

/-- A turn that does nothing. -/
def idle (server : Server σ) (answer : α) : Outcome σ α := ⟨server, [], .ok answer⟩

/-- What was posted, without the senders. -/
def messages (outcome : Outcome σ α) : List (ServerId × Message) :=
  outcome.postings.map fun posting => (posting.receiver, posting.message)

end Outcome

/-- Gives a server a turn at a clock reading. -/
def Server.turn {σ α : Type} (server : Server σ) (now : Duration) (action : Action σ α) :
    Outcome σ α :=
  match action.run ⟨server, now, []⟩ with
  | .ok answer finished => ⟨finished.server, finished.postings, .ok answer⟩
  | .error failure finished => ⟨finished.server, finished.postings, .error failure⟩

namespace Action

variable {σ : Type}

/-- The server as it is now. -/
def server : Action σ (Server σ) := return (← get).server

/-- The clock reading of the turn. -/
def now : Action σ Duration := return (← get).now

def modifyServer (change : Server σ → Server σ) : Action σ Unit :=
  modify fun turn => { turn with server := change turn.server }

def setRole (role : Role) : Action σ Unit := modifyServer ({ · with role })

def modifyProgress (change : Progress → Progress) : Action σ Unit :=
  modifyServer fun server => { server with progress := change server.progress }

def modifyTimer (change : Countdown → Duration → Countdown) : Action σ Unit :=
  modify fun turn =>
    { turn with server := { turn.server with timer := change turn.server.timer turn.now } }

/-- Takes over a changed durable state, or fails and keeps the present one. -/
def changeDurable (change : Durable σ → Except Failure (Durable σ)) : Action σ Unit := do
  match change (← server).durable with
  | .ok durable => modifyServer ({ · with durable })
  | .error failure => throw failure

/-- Posts a message to another server. -/
def post (receiver : ServerId) (message : Message) : Action σ Unit :=
  modify fun turn =>
    { turn with postings := turn.postings ++ [⟨receiver, message, turn.server⟩] }

end Action

end Consensus
