import Consensus.Machine.Handlers

/-! # Operations of a machine

A machine handles events, changes its role, applies what is committed and does its duties as a
server does. A transfer of leadership reports what became of its message.
-/

namespace Consensus

namespace Work

variable {σ τ : Type} [Store σ] [Transport τ] (arithmetic : Arithmetic)

/-! ## Roles -/

def followerEvent (event : Event) : Work σ τ RoleChange := do
  let server ← server
  match event with
  | .timerRanOut => return .campaign
  | .submitted _ => return .stay
  | .received sender (.appendRequest request) =>
    if request.term = server.term then
      modifyTimer Countdown.reset
      setRole (.follower (some request.leaderId))
    answerAppendRequest arithmetic sender request
    return .stay
  | .received sender (.voteRequest request) =>
    if ← answerVoteRequest arithmetic sender request then
      modifyTimer Countdown.reset
    return .stay
  | .received _ (.timeoutNow request) =>
    if request.candidateId = server.id ∧ request.term = server.term then
      modifyTimer fun timer _ => timer.expire
      return .campaign
    else
      return .stay
  | .received _ (.voteResponse _) => return .stay
  | .received _ (.appendResponse _) => return .stay

def candidateEvent (event : Event) : Work σ τ RoleChange := do
  let server ← server
  match event with
  | .timerRanOut =>
    setRole (.candidate true)
    return .stay
  | .submitted _ => return .stay
  | .received sender (.appendRequest request) =>
    if request.term = server.term then
      return .follow
    else
      refuseAppend arithmetic sender
      return .stay
  | .received sender (.voteRequest request) =>
    if ← answerVoteRequest arithmetic sender request then return .follow else return .stay
  | .received sender (.voteResponse response) =>
    let counted ← countVote sender response
    if counted ∧ (← Work.server).Elected then return .lead else return .stay
  | .received _ (.appendResponse _) => return .stay
  | .received _ (.timeoutNow _) => return .stay

def leaderEvent (event : Event) : Work σ τ RoleChange := do
  let server ← server
  match event with
  | .timerRanOut =>
    modifyTimer Countdown.restart
    return .stay
  | .submitted command =>
    appendCommand arithmetic command
    return .stay
  | .received sender (.appendRequest _) =>
    refuseAppend arithmetic sender
    return .stay
  | .received _ (.appendResponse response) =>
    if response.term = server.term then
      takeAppendResponse arithmetic response
    return .stay
  | .received sender (.voteRequest request) =>
    if ← answerVoteRequest arithmetic sender request then return .follow else return .stay
  | .received sender (.voteResponse response) =>
    let _ ← countVote sender response
    return .stay
  | .received _ (.timeoutNow _) => return .stay

def roleEvent (event : Event) : Work σ τ RoleChange := do
  match (← server).role with
  | .follower _ => followerEvent arithmetic event
  | .candidate _ => candidateEvent arithmetic event
  | .leader _ => leaderEvent arithmetic event

/-- A newer term is stored first and makes the server a follower. -/
def handle (event : Event) : Work σ τ RoleChange := do
  match event.term? with
  | none => roleEvent arithmetic event
  | some term =>
    if (← server).term < term then
      changeDurable (·.moveTo term)
      return .follow
    else
      roleEvent arithmetic event

/-! ## Changes of role -/

omit [Store σ] [Transport τ] in
def becomeFollower : Work σ τ Unit := do
  setRole (.follower none)
  modifyTimer Countdown.restart
  modifyProgress fun progress =>
    { progress.clearCursors with tally := progress.tally.clear }

omit [Store σ] [Transport τ] in
def becomeCandidate : Work σ τ Unit := do
  setRole (.candidate true)
  modifyProgress Progress.clearCursors

def becomeLeader : Work σ τ Unit := do
  let server ← server
  modifyProgress (·.resetCursors server.config.peerIds server.log.size)
  setRole (.leader (← now))
  modifyTimer Countdown.restart

def enter : RoleChange → Work σ τ Unit
  | .stay => return ()
  | .follow => becomeFollower
  | .campaign => becomeCandidate
  | .lead => becomeLeader

/-! ## Applying -/

/-- The next index to apply. It is formed also when nothing is due. -/
def nextDue? : Work σ τ (Option Index) := do
  let progress := (← server).progress
  let next ← form (arithmetic.next progress.lastApplied)
  return if progress.lastApplied < progress.commitIndex then some next else none

/-- Notes that an index is applied, which has to be the next one. -/
def markApplied (index : Index) : Work σ τ Unit := do
  let next ← form (arithmetic.next (← server).progress.lastApplied)
  if index = next then modifyProgress (·.markApplied index) else throw .disorder

/-- Hands the command at an index to the state machine. -/
def applyAt (index : Index) : Work σ τ Unit := do
  match (← server).log.read? index with
  | none => fail (.storage (.entryMissing index))
  | some entry =>
    match Command.decode entry.command with
    | .error cause => fail (.storage (.entryCorrupt index cause))
    | .ok command =>
      modifyServer fun server =>
        { server with delivered := server.delivered.push index command }
      markApplied arithmetic index

/-- Applies up to `count` commands, and looks for one more. -/
def applyNext : (count : Nat) → Work σ τ Unit
  | 0 => do
    let _ ← nextDue? arithmetic
    return ()
  | count + 1 => do
    match ← nextDue? arithmetic with
    | none => return ()
    | some index =>
      applyAt arithmetic index
      applyNext count

def applyCommitted : Work σ τ Unit := do
  let progress := (← server).progress
  applyNext arithmetic (progress.commitIndex - progress.lastApplied).toNat

/-! ## Dispatch -/

/-- Handles an event, and once more after a change to follower. -/
def dispatch (event : Event) : Work σ τ Unit := do
  let change ← handle arithmetic event
  enter change
  if change = .follow then
    enter (← handle arithmetic event)
  applyCommitted arithmetic

def campaign (electionPending : Bool) : Work σ τ Unit := do
  if electionPending then
    setRole (.candidate false)
    startElection arithmetic
    if (← server).Elected then
      becomeLeader
      sendHeartbeats arithmetic (← now)

def duties : Work σ τ Unit := do
  match (← server).role with
  | .follower _ => return ()
  | .candidate electionPending => campaign arithmetic electionPending
  | .leader nextHeartbeat => sendHeartbeats arithmetic nextHeartbeat

def perform : Work σ τ Unit := do
  duties arithmetic
  applyCommitted arithmetic

end Work

namespace Machine

variable {σ τ : Type} [Store σ] [Transport τ] (arithmetic : Arithmetic)

/-- Handles a frame that arrived on the channel of `sender`. -/
def receive (machine : Machine σ τ) (now : Duration) (sender : ServerId) (frame : Bytes) :
    Except Halt Unit × Machine σ τ :=
  if machine.server.config.isPeer sender then
    match Message.decode frame with
    | .error _ => (.ok (), machine)
    | .ok message => machine.run now (Work.dispatch arithmetic (.received sender message))
  else
    (.ok (), machine)

/-- Submits a client's command, and tells whether it was added to the log. -/
def submit (machine : Machine σ τ) (now : Duration) (command : Command) :
    Except Halt Bool × Machine σ τ :=
  machine.run now do
    Work.dispatch arithmetic (.submitted command)
    return decide (machine.server.log.size < (← Work.server).log.size)

/-- Submits the command in a frame. A frame that is no command is dropped. -/
def receiveCommand (machine : Machine σ τ) (now : Duration) (frame : Bytes) :
    Except Halt Bool × Machine σ τ :=
  match Command.decode frame with
  | .error _ => (.ok false, machine)
  | .ok command => machine.submit arithmetic now command

/-- Fires the election timer if it ran out, and tells whether it did. -/
def pollTimer (machine : Machine σ τ) (now : Duration) : Except Halt Bool × Machine σ τ :=
  if machine.server.timer.hasRunOut now then
    machine.run now do
      Work.dispatch arithmetic .timerRanOut
      return true
  else
    (.ok false, machine)

/-- Does the periodic duties of the role and applies what is committed. -/
def perform (machine : Machine σ τ) (now : Duration) : Except Halt Unit × Machine σ τ :=
  machine.run now (Work.perform arithmetic)

/-- Asks a peer to take over the leadership. -/
def transfer (machine : Machine σ τ) (target : ServerId) : Except Halt Unit × Machine σ τ :=
  match machine.server.transferRequest target with
  | .error failure => (.error (.failure failure), machine)
  | .ok request =>
    let (result, outbox) := machine.outbox.send target request
    ((result.map fun _ => ()).mapError fun cause => .failure (.transport cause),
      { machine with outbox })

end Machine

end Consensus
