import Consensus.Server.Events
import Consensus.Wire.Frame

/-! # Operations of a server

Everything that can be done to a running server from outside, at a clock reading
given with the call. Frames that do not decode, and frames of servers that are no
peers, are dropped without a trace.
-/

namespace Consensus.Server

variable {σ : Type} [Store σ]

/-- Handles a frame that arrived on the channel of `sender`. -/
def receive (server : Server σ) (now : Duration) (sender : ServerId) (frame : Bytes) :
    Outcome σ Unit :=
  if server.config.isPeer sender then
    match Message.decode frame with
    | .error _ => .idle server ()
    | .ok message => server.turn now (.dispatch (.received sender message))
  else
    .idle server ()

/-- Submits a client's command, and tells whether it was added to the log. -/
def submit (server : Server σ) (now : Duration) (command : Command) : Outcome σ Bool :=
  server.turn now do
    Action.dispatch (.submitted command)
    return decide (server.log.size < (← Action.server).log.size)

/-- Submits the command in a frame. A frame that is no command is dropped. -/
def receiveCommand (server : Server σ) (now : Duration) (frame : Bytes) : Outcome σ Bool :=
  match Command.decode frame with
  | .error _ => .idle server false
  | .ok command => server.submit now command

/-- Fires the election timer if it ran out, and tells whether it did. -/
def pollTimer (server : Server σ) (now : Duration) : Outcome σ Bool :=
  if server.timer.hasRunOut now then
    server.turn now do
      Action.dispatch .timerRanOut
      return true
  else
    .idle server false

/-- Does the periodic duties of the role and applies what is committed. -/
def perform (server : Server σ) (now : Duration) : Outcome σ Unit :=
  server.turn now Action.perform

/-- The message by which a leader asks `target` to start an election at once. -/
def transferRequest (server : Server σ) (target : ServerId) : Except Failure Message :=
  if server.role.isLeader then
    if server.config.isPeer target then
      .ok (.timeoutNow ⟨server.term, target⟩)
    else
      .error (.unknownPeer target)
  else
    .error (.notLeader server.knownLeader)

end Consensus.Server
