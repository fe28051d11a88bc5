import Consensus.Machine.Work

/-! # Handlers of a machine

What a machine does with requests, answers and commands. It is what a server does, with each sum
of indices where it is formed and each write to the store where it is made.
-/

namespace Consensus.Work

variable {σ τ : Type} [Store σ] [Transport τ] (arithmetic : Arithmetic)

/-! ## The log -/

/-- The index of the last entry, formed from the size of the log. -/
def lastIndex : Work σ τ Index := do
  form (arithmetic.prev (← server).log.size)

def lastKey : Work σ τ LogKey := do
  let index ← lastIndex arithmetic
  return ⟨(← server).log.lastTerm, index⟩

/-- Reads the term of the last entry anew. -/
def refreshLastTerm : Work σ τ Unit := do
  let last ← lastIndex arithmetic
  let log := (← server).log
  setLog { log with lastTerm := (log.termAt? last).getD nullTerm }

/-- Drops the entry at an index and all after it. -/
def truncateLog (index : Index) : Work σ τ Unit := do
  let log := (← server).log
  if log.size ≤ index then
    return ()
  else
    match Store.truncate log.store index with
    | .error cause => fail (.storage cause)
    | .ok store =>
      setLog { log with store }
      refreshLastTerm arithmetic

omit [Transport τ] in
/-- Adds an entry at an index. -/
def extendLog (index : Index) (entry : Entry) : Work σ τ Unit := do
  match Store.append (← server).log.store index entry with
  | .error cause => fail (.storage cause)
  | .ok store => setLog ⟨store, entry.term⟩

/-! ## Voting -/

/-- Answers a vote request. The key of the last entry is formed whether or not it matters. -/
def answerVoteRequest (sender : ServerId) (request : VoteRequest) : Work σ τ Bool := do
  let server ← server
  let ours ← lastKey arithmetic
  if request.term = server.term ∧ server.FreeToVote request.candidateId ∧
      request.lastLogEntry.AtLeastAsUpToDate ours then
    if server.votedFor = none then
      changeDurable (·.voteFor request.candidateId)
    post sender (.voteResponse ⟨server.term, true⟩)
    return true
  else
    post sender (.voteResponse ⟨server.term, false⟩)
    return false

/-- Counts a vote that `sender` granted, and tells whether it was new. -/
def countVote (sender : ServerId) (response : VoteResponse) : Work σ τ Bool := do
  let server ← server
  if response.granted ∧ response.term = server.term ∧
      server.progress.tally.Counts server.term sender then
    modifyProgress fun progress =>
      { progress with tally := progress.tally.record server.term sender }
    return true
  else
    return false

/-- Moves to the next term, if there is one, with the server's own vote in it. -/
def openElection : Work σ τ Unit := do
  let server ← server
  match arithmetic.nextTerm server.term with
  | none => fail (.termExhausted server.term)
  | some term => changeDurable (·.record term (some server.id))

def startElection : Work σ τ Unit := do
  openElection arithmetic
  let server ← server
  modifyProgress ({ · with tally := .start server.term server.id })
  modifyTimer Countdown.restart
  let ours ← lastKey arithmetic
  server.config.peerIds.forM fun peer =>
    post peer (.voteRequest ⟨server.term, server.id, ours⟩)

/-! ## Following -/

def answerAppend (receiver : ServerId) (successful : Bool) (matchLogIndex : Index) :
    Work σ τ Unit := do
  let server ← server
  post receiver (.appendResponse ⟨server.term, successful, server.id, matchLogIndex⟩)

def refuseAppend (receiver : ServerId) : Work σ τ Unit := do
  let last ← lastIndex arithmetic
  answerAppend receiver false last

/-- Takes over a leader's entry, dropping a suffix that conflicts with it. -/
def takeEntry (entry : PlacedEntry) : Work σ τ Unit := do
  match (← server).log.standing entry.key with
  | .held => return ()
  | .beyond => extendLog entry.index ⟨entry.term, entry.command⟩
  | .conflicting =>
    truncateLog arithmetic entry.index
    extendLog entry.index ⟨entry.term, entry.command⟩

def followCommit (request : AppendRequest) : Work σ τ Unit :=
  modifyProgress (·.raiseCommit (min request.leaderCommit request.lastNewIndex))

/-- Takes what a request carries behind a key that the log holds. -/
def acceptAppend (request : AppendRequest) : Work σ τ Bool := do
  match request.entry with
  | none =>
    followCommit request
    return true
  | some entry =>
    let expected ← form (arithmetic.next request.prevLogEntry.index)
    let server ← server
    if entry.index ≠ expected ∨
        (server.log.standing entry.key = .conflicting ∧ entry.index ≤ server.commitIndex) then
      return false
    else
      takeEntry arithmetic entry
      followCommit request
      return true

def dropConflict (key : LogKey) : Work σ τ Unit := do
  if (← server).commitIndex < key.index then
    truncateLog arithmetic key.index

def answerAppendRequest (sender : ServerId) (request : AppendRequest) : Work σ τ Unit := do
  let server ← server
  if request.term < server.term then
    refuseAppend arithmetic sender
  else
    match server.log.standing request.prevLogEntry with
    | .beyond => refuseAppend arithmetic sender
    | .conflicting =>
      dropConflict arithmetic request.prevLogEntry
      refuseAppend arithmetic sender
    | .held =>
      if ← acceptAppend arithmetic request then
        answerAppend sender true request.lastNewIndex
      else
        refuseAppend arithmetic sender

/-! ## Leading -/

/-- Sends a follower the entry at its cursor, or a heartbeat when it has everything. -/
def sendAppend (peer : ServerId) : Work σ τ Unit := do
  let before ← server
  match before.progress.cursor? peer with
  | none => return ()
  | some cursor =>
    let next := min cursor.nextIndex before.log.size
    modifyProgress (·.updateCursor peer ({ · with nextIndex := next }))
    let server ← server
    let index ← form (arithmetic.prev next)
    match server.log.termAt? index with
    | none => return ()
    | some term =>
      post peer (.appendRequest {
        term := server.term
        leaderId := server.id
        prevLogEntry := ⟨term, index⟩
        leaderCommit := server.commitIndex
        entry := server.log.entryAt? next })

/-- Commits what a majority holds, if it is of this term. -/
def raiseCommit : Work σ τ Unit := do
  let last ← lastIndex arithmetic
  let server ← server
  let held := server.progress.cursors.majorityMatch last server.config.majority
  if server.Commits held then
    modifyProgress (·.raiseCommit held)

/-- Adds a client's command to the log and sends it to the followers that have the rest. -/
def appendCommand (command : Command) : Work σ τ Unit := do
  let before ← server
  match command.encode with
  | .error cause => fail (.malformed cause)
  | .ok bytes =>
    extendLog before.log.size ⟨before.term, bytes⟩
    before.config.peerIds.forM fun peer => do
      let caughtUp := ((← server).progress.cursor? peer).any (·.nextIndex == before.log.size)
      if caughtUp then sendAppend arithmetic peer
    raiseCommit arithmetic

/-- Moves the cursor of a follower that took what it was sent, and sends the next entry. -/
def followerMatched (last : Index) (peer : ServerId) (cursor : Cursor) (matchLogIndex : Index) :
    Work σ τ Unit := do
  let moved ← form (cursor.advanceBy arithmetic (min matchLogIndex last))
  modifyProgress (·.updateCursor peer fun _ => moved)
  raiseCommit arithmetic
  if moved.nextIndex ≤ last then sendAppend arithmetic peer

/-- Moves the cursor of a follower that refused back, and sends what is there. -/
def followerRefused (peer : ServerId) (hint : Index) : Work σ τ Unit := do
  let progress := (← server).progress
  let cursors ← form (progress.cursors.updateBy peer (·.backOffBy arithmetic hint))
  modifyProgress ({ · with cursors })
  sendAppend arithmetic peer

/-- Takes the answer of the follower that it names. -/
def takeAppendResponse (response : AppendResponse) : Work σ τ Unit := do
  let last ← lastIndex arithmetic
  match (← server).progress.cursor? response.serverId with
  | none => return ()
  | some cursor =>
    if response.successful then
      followerMatched arithmetic last response.serverId cursor response.matchLogIndex
    else
      followerRefused arithmetic response.serverId response.matchLogIndex

/-- Sends to every follower when a heartbeat is due. -/
def sendHeartbeats (nextHeartbeat : Duration) : Work σ τ Unit := do
  let now ← now
  if nextHeartbeat ≤ now then
    let config := (← server).config
    setRole (.leader (now + config.heartbeat))
    config.peerIds.forM (sendAppend arithmetic)

end Consensus.Work
