import Consensus.Server.Turn
import Consensus.Wire.Command

/-! # Leading

A leader sends each follower the entry at its cursor, one at a time, and moves
the cursor by the answers. It commits the highest index that a majority holds,
and only when the entry there is of its own term; earlier entries are committed
along with it.
-/

namespace Consensus

variable {σ : Type} [Store σ]

namespace Server

/-- The highest index that a majority of the cluster is known to hold. -/
def majorityMatch (server : Server σ) : Index :=
  server.progress.cursors.majorityMatch server.log.lastIndex server.config.majority

/-- The index that can be committed is higher than the present one and of this term. -/
def Commits (server : Server σ) (index : Index) : Prop :=
  server.commitIndex < index ∧ server.log.termAt? index = some server.term

instance (server : Server σ) (index : Index) : Decidable (server.Commits index) :=
  inferInstanceAs (Decidable (server.commitIndex < index ∧
    server.log.termAt? index = some server.term))

/-- The request that carries the entry at `next`, or a heartbeat at the end of the log. -/
def appendRequest? (server : Server σ) (next : Index) : Option AppendRequest :=
  (server.log.keyBefore? next).map fun prevLogEntry =>
    { term := server.term
      leaderId := server.id
      prevLogEntry
      leaderCommit := server.commitIndex
      entry := server.log.entryAt? next }

end Server

namespace Action

/-- Sends a follower the entry at its cursor, or a heartbeat when it has everything. -/
def sendAppend (peer : ServerId) : Action σ Unit := do
  let before ← server
  match before.progress.cursor? peer with
  | none => return ()
  | some cursor =>
    let next := min cursor.nextIndex before.log.size
    modifyProgress (·.updateCursor peer ({ · with nextIndex := next }))
    match (← server).appendRequest? next with
    | none => return ()
    | some request => post peer (.appendRequest request)

/-- Commits what a majority holds, if it is of this term. -/
def raiseCommit : Action σ Unit := do
  let server ← server
  if server.Commits server.majorityMatch then
    modifyProgress (·.raiseCommit server.majorityMatch)

/-- Adds a client's command to the log and sends it to the followers that have the rest. -/
def appendCommand (command : Command) : Action σ Unit := do
  let before ← server
  match command.encode with
  | .error cause => throw (.malformed cause)
  | .ok bytes =>
    changeDurable fun durable =>
      ((durable.log.push durable.term bytes).map fun (log, _) =>
        { durable with log }).mapError .storage
    before.config.peerIds.forM fun peer => do
      let caughtUp := ((← server).progress.cursor? peer).any (·.nextIndex == before.log.size)
      if caughtUp then sendAppend peer
    raiseCommit

/-- Moves the cursor of a follower that took what it was sent, and sends the next entry. -/
def followerMatched (peer : ServerId) (cursor : Cursor) (matchLogIndex : Index) :
    Action σ Unit := do
  let lastIndex := (← server).log.lastIndex
  let moved := cursor.advance (min matchLogIndex lastIndex)
  modifyProgress (·.updateCursor peer fun _ => moved)
  raiseCommit
  if moved.nextIndex ≤ lastIndex then sendAppend peer

/-- Moves the cursor of a follower that refused back, and sends what is there. -/
def followerRefused (peer : ServerId) (hint : Index) : Action σ Unit := do
  modifyProgress (·.updateCursor peer (·.backOff hint))
  sendAppend peer

/-- Takes the answer of the follower that it names. Answers of others are passed over. -/
def takeAppendResponse (response : AppendResponse) : Action σ Unit := do
  match (← server).progress.cursor? response.serverId with
  | none => return ()
  | some cursor =>
    if response.successful then
      followerMatched response.serverId cursor response.matchLogIndex
    else
      followerRefused response.serverId response.matchLogIndex

/-- Sends to every follower when a heartbeat is due. -/
def sendHeartbeats (nextHeartbeat : Duration) : Action σ Unit := do
  let now ← now
  if nextHeartbeat ≤ now then
    let config := (← server).config
    setRole (.leader (now + config.heartbeat))
    config.peerIds.forM sendAppend

end Action

end Consensus
