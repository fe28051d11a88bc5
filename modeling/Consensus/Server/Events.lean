import Consensus.Server.Following
import Consensus.Server.Leading
import Consensus.Server.Voting

/-! # Events

An event of a newer term makes a server a follower of that term before anything
else looks at the event. Otherwise the role handles it. A server that becomes a
follower handles the event once more as one; whatever it did, it ends by applying
what is committed.
-/

namespace Consensus.Action

variable {σ : Type} [Store σ]

/-! ## Roles -/

def followerEvent (event : Event) : Action σ RoleChange := do
  let server ← server
  match event with
  | .timerRanOut => return .campaign
  | .submitted _ => return .stay
  | .received sender (.appendRequest request) =>
    if request.term = server.term then
      modifyTimer Countdown.reset
      setRole (.follower (some request.leaderId))
    answerAppendRequest sender request
    return .stay
  | .received sender (.voteRequest request) =>
    if ← answerVoteRequest sender request then
      modifyTimer Countdown.reset
    return .stay
  | .received _ (.timeoutNow request) =>
    if request.candidateId = server.id ∧ request.term = server.term then
      modifyTimer fun timer _ => timer.expire
      return .campaign
    else
      return .stay
  | .received _ (.voteResponse _) => return .stay
  | .received _ (.appendResponse _) => return .stay

def candidateEvent (event : Event) : Action σ RoleChange := do
  let server ← server
  match event with
  | .timerRanOut =>
    setRole (.candidate true)
    return .stay
  | .submitted _ => return .stay
  | .received sender (.appendRequest request) =>
    if request.term = server.term then
      return .follow
    else
      refuseAppend sender
      return .stay
  | .received sender (.voteRequest request) =>
    if ← answerVoteRequest sender request then return .follow else return .stay
  | .received sender (.voteResponse response) =>
    let counted ← countVote sender response
    if counted ∧ (← Action.server).Elected then return .lead else return .stay
  | .received _ (.appendResponse _) => return .stay
  | .received _ (.timeoutNow _) => return .stay

def leaderEvent (event : Event) : Action σ RoleChange := do
  let server ← server
  match event with
  | .timerRanOut =>
    modifyTimer Countdown.restart
    return .stay
  | .submitted command =>
    appendCommand command
    return .stay
  | .received sender (.appendRequest _) =>
    refuseAppend sender
    return .stay
  | .received _ (.appendResponse response) =>
    if response.term = server.term then
      takeAppendResponse response
    return .stay
  | .received sender (.voteRequest request) =>
    if ← answerVoteRequest sender request then return .follow else return .stay
  | .received sender (.voteResponse response) =>
    let _ ← countVote sender response
    return .stay
  | .received _ (.timeoutNow _) => return .stay

def roleEvent (event : Event) : Action σ RoleChange := do
  match (← server).role with
  | .follower _ => followerEvent event
  | .candidate _ => candidateEvent event
  | .leader _ => leaderEvent event

/-- A newer term is stored first and makes the server a follower. -/
def handle (event : Event) : Action σ RoleChange := do
  match event.term? with
  | none => roleEvent event
  | some term =>
    if (← server).term < term then
      changeDurable fun durable => (durable.moveTo term).mapError .storage
      return .follow
    else
      roleEvent event

/-! ## Changes of role -/

/-- A follower counts from now and has neither votes nor cursors. -/
def becomeFollower : Action σ Unit := do
  setRole (.follower none)
  modifyTimer Countdown.restart
  modifyProgress fun progress =>
    { progress.clearCursors with tally := progress.tally.clear }

/-- A candidate starts its election with its next duties. -/
def becomeCandidate : Action σ Unit := do
  setRole (.candidate true)
  modifyProgress Progress.clearCursors

/-- A leader has fresh cursors and owes a heartbeat at once. -/
def becomeLeader : Action σ Unit := do
  let server ← server
  modifyProgress (·.resetCursors server.config.peerIds server.log.size)
  setRole (.leader (← now))
  modifyTimer Countdown.restart

def enter : RoleChange → Action σ Unit
  | .stay => return ()
  | .follow => becomeFollower
  | .campaign => becomeCandidate
  | .lead => becomeLeader

/-! ## Applying -/

/-- Hands the command at an index to the state machine. -/
def applyAt (index : Index) : Action σ Unit := do
  match (← server).log.read? index with
  | none => throw (.storage (.entryMissing index))
  | some entry =>
    match Command.decode entry.command with
    | .error cause => throw (.storage (.entryCorrupt index cause))
    | .ok command =>
      modifyServer fun server =>
        { server with delivered := server.delivered.push index command }
      modifyProgress (·.markApplied index)

/-- Applies up to `count` commands. -/
def applyNext : (count : Nat) → Action σ Unit
  | 0 => return ()
  | count + 1 => do
    match (← server).progress.nextDue? with
    | none => return ()
    | some index =>
      applyAt index
      applyNext count

/-- Applies every committed command that is not applied yet, in order. -/
def applyCommitted : Action σ Unit := do
  let progress := (← server).progress
  applyNext (progress.commitIndex - progress.lastApplied).toNat

/-! ## Dispatch -/

/-- Handles an event, and once more after a change to follower. A second change is
carried out without a third look at the event. -/
def dispatch (event : Event) : Action σ Unit := do
  let change ← handle event
  enter change
  if change = .follow then
    enter (← handle event)
  applyCommitted

/-- The duties of a candidate: the election it owes. It may win at once, and then leads. -/
def campaign (electionPending : Bool) : Action σ Unit := do
  if electionPending then
    setRole (.candidate false)
    startElection
    if (← server).Elected then
      becomeLeader
      sendHeartbeats (← now)

/-- The periodic duties of the role. A follower has none. -/
def duties : Action σ Unit := do
  match (← server).role with
  | .follower _ => return ()
  | .candidate electionPending => campaign electionPending
  | .leader nextHeartbeat => sendHeartbeats nextHeartbeat

/-- Does the duties of the role, then applies what is committed. -/
def perform : Action σ Unit := do
  duties
  applyCommitted

end Consensus.Action
