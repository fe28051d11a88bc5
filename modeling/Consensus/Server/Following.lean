import Consensus.Server.Turn

/-! # Following

A server takes an entry only behind a key that it holds. A conflicting key in
front of the entry costs the suffix from there on, but never a committed entry:
a request that would need one gone is refused.
-/

namespace Consensus

variable {σ : Type} [Store σ]

/-- The entry does not belong right behind the request's key, or would replace a
committed entry. -/
def Server.Refuses (server : Server σ) (request : AppendRequest) (entry : PlacedEntry) : Prop :=
  entry.index ≠ request.prevLogEntry.index + 1 ∨
    (server.log.standing entry.key = .conflicting ∧ entry.index ≤ server.commitIndex)

instance (server : Server σ) (request : AppendRequest) (entry : PlacedEntry) :
    Decidable (server.Refuses request entry) :=
  inferInstanceAs (Decidable (entry.index ≠ request.prevLogEntry.index + 1 ∨
    (server.log.standing entry.key = .conflicting ∧ entry.index ≤ server.commitIndex)))

namespace Action

def answerAppend (receiver : ServerId) (successful : Bool) (matchLogIndex : Index) :
    Action σ Unit := do
  let server ← server
  post receiver (.appendResponse ⟨server.term, successful, server.id, matchLogIndex⟩)

/-- Refuses an append request, hinting at the server's last index. -/
def refuseAppend (receiver : ServerId) : Action σ Unit := do
  answerAppend receiver false (← server).log.lastIndex

/-- Takes over a leader's entry. What the log has become is kept also on failure. -/
def takeEntry (entry : PlacedEntry) : Action σ Unit := do
  let (log, result) := (← server).log.accept entry
  modifyServer fun server => { server with durable := { server.durable with log } }
  match result with
  | .ok _ => return ()
  | .error cause => throw (.storage cause)

/-- Follows the leader's commit index, as far as the request vouches for the log. -/
def followCommit (request : AppendRequest) : Action σ Unit :=
  modifyProgress (·.raiseCommit (min request.leaderCommit request.lastNewIndex))

/-- Takes what a request carries behind a key that the log holds, and tells whether it
was accepted. -/
def acceptAppend (request : AppendRequest) : Action σ Bool := do
  match request.entry with
  | none =>
    followCommit request
    return true
  | some entry =>
    if (← server).Refuses request entry then
      return false
    else
      takeEntry entry
      followCommit request
      return true

/-- Drops the suffix from a conflicting key on, unless it reaches into what is committed. -/
def dropConflict (key : LogKey) : Action σ Unit := do
  if (← server).commitIndex < key.index then
    changeDurable fun durable =>
      ((durable.log.truncate key.index).map ({ durable with log := · })).mapError .storage

/-- Answers an append request on the channel of `sender`. -/
def answerAppendRequest (sender : ServerId) (request : AppendRequest) : Action σ Unit := do
  let server ← server
  if request.term < server.term then
    refuseAppend sender
  else
    match server.log.standing request.prevLogEntry with
    | .beyond => refuseAppend sender
    | .conflicting =>
      dropConflict request.prevLogEntry
      refuseAppend sender
    | .held =>
      if ← acceptAppend request then
        answerAppend sender true request.lastNewIndex
      else
        refuseAppend sender

end Action

end Consensus
