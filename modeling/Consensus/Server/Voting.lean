import Consensus.Server.Turn

/-! # Voting

A server gives one vote per term, to a candidate whose log is at least as up to
date as its own, and stores the vote before it answers. An election moves to the
next term with the server's own vote in it, again stored before anyone is asked.
-/

namespace Consensus

variable {σ : Type} [Store σ]

/-- The server has given no vote in its term, or gave it to this candidate. -/
def Server.FreeToVote (server : Server σ) (candidate : ServerId) : Prop :=
  server.votedFor = none ∨ server.votedFor = some candidate

instance (server : Server σ) (candidate : ServerId) : Decidable (server.FreeToVote candidate) :=
  inferInstanceAs (Decidable (server.votedFor = none ∨ server.votedFor = some candidate))

/-- The request gets this server's vote. -/
def Server.Grants (server : Server σ) (request : VoteRequest) : Prop :=
  request.term = server.term ∧ server.FreeToVote request.candidateId ∧
    request.lastLogEntry.AtLeastAsUpToDate server.log.lastKey

instance (server : Server σ) (request : VoteRequest) : Decidable (server.Grants request) :=
  inferInstanceAs (Decidable (request.term = server.term ∧
    server.FreeToVote request.candidateId ∧
    request.lastLogEntry.AtLeastAsUpToDate server.log.lastKey))

namespace Action

/-- Answers a vote request on the channel of `sender`, and tells whether it was granted. -/
def answerVoteRequest (sender : ServerId) (request : VoteRequest) : Action σ Bool := do
  let server ← server
  if server.Grants request then
    if server.votedFor = none then
      changeDurable fun durable => (durable.voteFor request.candidateId).mapError .storage
    post sender (.voteResponse ⟨server.term, true⟩)
    return true
  else
    post sender (.voteResponse ⟨server.term, false⟩)
    return false

/-- Counts a vote that `sender` granted in the server's term, and tells whether it was new. -/
def countVote (sender : ServerId) (response : VoteResponse) : Action σ Bool := do
  let server ← server
  if response.granted ∧ response.term = server.term ∧
      server.progress.tally.Counts server.term sender then
    modifyProgress fun progress =>
      { progress with tally := progress.tally.record server.term sender }
    return true
  else
    return false

/-- Opens the election of the next term and asks every peer for its vote. -/
def startElection : Action σ Unit := do
  let before ← server
  changeDurable (·.openElection before.id)
  let server ← server
  modifyProgress ({ · with tally := .start server.term server.id })
  modifyTimer Countdown.restart
  server.config.peerIds.forM fun peer =>
    post peer (.voteRequest ⟨server.term, server.id, server.log.lastKey⟩)

end Action

end Consensus
