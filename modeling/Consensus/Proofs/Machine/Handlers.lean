import Consensus.Machine.Handlers
import Consensus.Proofs.Machine.InStep
import Consensus.Proofs.Machine.Room

/-! # Handlers in step

With room for its sums, a machine does with requests, answers and commands what a server does.
Only an entry that is added takes up room.
-/

namespace Consensus

variable {σ τ : Type} [Store σ] [Transport τ] {outbox : Outbox τ} {arithmetic : Arithmetic}
variable {spare : Nat} {turn : Turn σ}

/-- The server that is left has room for so many entries. -/
def Turn.Roomy (arithmetic : Arithmetic) (spare : Nat) (turn : Turn σ) : Prop :=
  Room arithmetic spare turn.server

/-! ## The log -/

theorem inStep_lastIndex (h : turn.Roomy arithmetic spare) {α : Type}
    {done : α → Turn σ → Prop} {rest : Index → Work σ τ α} {action : Action σ α} :
    InStep outbox (Work.lastIndex arithmetic >>= rest) action done turn ↔
      InStep outbox (rest turn.server.log.lastIndex) action done turn := by
  unfold Work.lastIndex
  rw [bind_assoc, inStep_work_server, inStep_form h.prev_size]

theorem inStep_lastKey (h : turn.Roomy arithmetic spare) {α : Type}
    {done : α → Turn σ → Prop} {rest : LogKey → Work σ τ α} {action : Action σ α} :
    InStep outbox (Work.lastKey arithmetic >>= rest) action done turn ↔
      InStep outbox (rest turn.server.log.lastKey) action done turn := by
  unfold Work.lastKey
  rw [bind_assoc, inStep_lastIndex h, bind_assoc, inStep_work_server, pure_bind]
  exact Iff.rfl

/-- The turn with another log. -/
def Turn.withLog (turn : Turn σ) (log : Log σ) : Turn σ :=
  { turn with server := { turn.server with durable := { turn.server.durable with log } } }

/-- What a machine is left with when its log was written to. -/
def Turn.written (turn : Turn σ) (outbox : Outbox τ) :
    Except StorageFailure (Log σ) → EStateM.Result Halt (Station σ τ) Unit
  | .ok log => .ok () ((turn.withLog log).station outbox)
  | .error cause => .error (.failure (.storage cause)) (turn.station outbox)

omit [Store σ] [Transport τ] in
theorem run_server_bind {α : Type} (rest : Server σ → Work σ τ α) (station : Station σ τ) :
    (Work.server >>= rest).run station = (rest station.server).run station := rfl

omit [Store σ] in
/-- Where the log alone is written to, a machine is in step if it is left with what is written. -/
theorem inStep_written {work : Work σ τ Unit} {written : Except StorageFailure (Log σ)}
    {change : Durable σ → Except Failure (Durable σ)} {done : Unit → Turn σ → Prop}
    (hrun : work.run (turn.station outbox) = turn.written outbox written)
    (hchange : change turn.server.durable =
      (written.map ({ turn.server.durable with log := · })).mapError .storage)
    (h : ∀ log, written = .ok log → done () (turn.withLog log)) :
    InStep outbox work (Action.changeDurable change) done turn := by
  unfold Action.changeDurable
  rw [inStep_action_server, hchange]
  unfold InStep
  rw [hrun]
  cases written with
  | ok log => exact ⟨h log rfl, rfl⟩
  | error cause => rfl

theorem run_extendLog (index : Index) (entry : Entry) :
    (Work.extendLog index entry : Work σ τ Unit).run (turn.station outbox) =
      turn.written outbox (turn.server.log.extend index entry) := by
  unfold Work.extendLog Log.extend
  rw [run_server_bind]
  dsimp only [Turn.station]
  cases Store.append turn.server.log.store index entry <;> rfl

/-- The term at the last index is the one that the store's entries give. -/
theorem storedLastTerm_eq_termAt? (log : Log σ) :
    (log.termAt? log.lastIndex).getD nullTerm = Log.storedLastTerm log.store := by
  unfold Log.termAt? Log.storedLastTerm
  split
  next hempty =>
    have hlast : Store.size log.store - 1 = -1 := hempty
    rw [hlast]
    rfl
  next =>
    change ((Store.read? log.store (Store.size log.store - 1)).map Entry.term).getD nullTerm = _
    cases Store.read? log.store (Store.size log.store - 1) <;> rfl

omit [Transport τ] in
theorem run_refreshLastTerm {station : Station σ τ}
    (hsum : arithmetic.prev station.server.log.size = some station.server.log.lastIndex) :
    (Work.refreshLastTerm arithmetic : Work σ τ Unit).run station =
      .ok () { station with
        server := { station.server with
          durable := { station.server.durable with
            log := .ofStore station.server.log.store } } } := by
  have hlast : (Work.lastIndex arithmetic : Work σ τ Index).run station =
      .ok station.server.log.lastIndex station := by
    change (Work.form (arithmetic.prev station.server.log.size) : Work σ τ Index).run station = _
    rw [hsum]
    rfl
  unfold Work.refreshLastTerm
  rw [EStateM.run_bind, hlast, Log.ofStore, ← storedLastTerm_eq_termAt?]
  rfl

/-- A log that was cut off is read anew. -/
theorem run_truncateLog (h : turn.Roomy arithmetic spare) {index : Index} (hnonneg : 0 ≤ index) :
    (Work.truncateLog arithmetic index : Work σ τ Unit).run (turn.station outbox) =
      turn.written outbox (turn.server.log.truncate index) := by
  unfold Work.truncateLog
  rw [run_server_bind]
  dsimp only [Turn.station]
  by_cases hlong : turn.server.log.size ≤ index
  · rw [if_pos hlong, Log.truncate, if_pos hlong]
    rfl
  · rw [if_neg hlong]
    cases htruncate : Store.truncate turn.server.log.store index with
    | error cause =>
      rw [Log.truncate, if_neg hlong, htruncate]
      rfl
    | ok store =>
      have hok : turn.server.log.truncate index = .ok (.ofStore store) := by
        rw [Log.truncate, if_neg hlong, htruncate]
        rfl
      -- The size of the log is what it will be, so there is room for the sum.
      have hsum : arithmetic.prev (Log.size ⟨store, turn.server.log.lastTerm⟩) =
          some (Log.lastIndex ⟨store, turn.server.log.lastTerm⟩) :=
        (Room.truncate h hnonneg hok).prev_size
      let cut : Station σ τ := (turn.withLog ⟨store, turn.server.log.lastTerm⟩).station outbox
      have hrefreshed : (Work.refreshLastTerm arithmetic : Work σ τ Unit).run cut = _ :=
        run_refreshLastTerm hsum
      rw [hok]
      exact hrefreshed

/-! ## Voting -/

theorem answerVoteRequest_inStep (h : turn.Roomy arithmetic spare) (sender : ServerId)
    (request : VoteRequest) :
    InStep outbox (Work.answerVoteRequest arithmetic sender request)
      (Action.answerVoteRequest sender request) (fun _ => Turn.Roomy arithmetic spare) turn := by
  unfold Work.answerVoteRequest Action.answerVoteRequest
  rw [inStep_server, inStep_lastKey h]
  refine inStep_ite (fun _ => ?_) fun _ => ?_
  · refine inStep_ite (fun _ => ?_) fun _ => ?_
    · apply inStep_bind
      refine inStep_changeDurable rfl fun durable hvote => ?_
      apply inStep_bind
      exact inStep_post (inStep_pure (Room.record h hvote))
    · apply inStep_bind
      exact inStep_post (inStep_pure h)
  · apply inStep_bind
    exact inStep_post (inStep_pure h)

theorem countVote_inStep (h : turn.Roomy arithmetic spare) (sender : ServerId)
    (response : VoteResponse) :
    InStep outbox (Work.countVote sender response) (Action.countVote sender response)
      (fun _ => Turn.Roomy arithmetic spare) turn := by
  unfold Work.countVote Action.countVote
  rw [inStep_server]
  refine inStep_ite (fun _ => ?_) fun _ => inStep_pure h
  apply inStep_bind
  exact inStep_modifyProgress (inStep_pure (Room.of_same h rfl rfl rfl rfl))

/-- The next term is there unless the present one is the last. -/
theorem openElection_inStep {rest : Unit → Work σ τ Unit} {rest' : Unit → Action σ Unit}
    {done : Unit → Turn σ → Prop}
    (hterm : arithmetic.nextTerm turn.server.term = Arithmetic.exact.nextTerm turn.server.term)
    (h : ∀ durable, turn.server.durable.record (turn.server.term + 1) (some turn.server.id) =
        .ok durable →
      InStep outbox (rest ()) (rest' ()) done
        { turn with server := { turn.server with durable } }) :
    InStep outbox (Work.openElection arithmetic >>= rest)
      (Action.server >>= fun before =>
        Action.changeDurable (·.openElection before.id) >>= rest') done turn := by
  unfold Work.openElection
  rw [bind_assoc, inStep_server, hterm]
  simp only [Arithmetic.exact]
  by_cases hlast : maxTerm ≤ turn.server.term
  · have hrefused : turn.server.durable.openElection turn.server.id =
        .error (.termExhausted turn.server.term) := if_pos hlast
    have hfails : InStep outbox (Work.fail (.termExhausted turn.server.term) : Work σ τ Unit)
        (Action.changeDurable (·.openElection turn.server.id))
        (fun _ last => InStep outbox (rest ()) (rest' ()) done last) turn := by
      unfold Action.changeDurable
      rw [inStep_action_server]
      dsimp only
      rw [hrefused]
      exact inStep_fail _
    rw [if_pos hlast]
    exact inStep_bind hfails
  · have hopen : turn.server.durable.openElection turn.server.id =
        (turn.server.durable.record (turn.server.term + 1) (some turn.server.id)).mapError
          .storage := if_neg hlast
    rw [if_neg hlast]
    apply inStep_bind
    exact inStep_changeDurable hopen h

theorem startElection_inStep (h : turn.Roomy arithmetic spare)
    (hterm : arithmetic.nextTerm turn.server.term = Arithmetic.exact.nextTerm turn.server.term) :
    InStep outbox (Work.startElection arithmetic) Action.startElection
      (fun _ => Turn.Roomy arithmetic spare) turn := by
  unfold Work.startElection Action.startElection
  refine openElection_inStep hterm fun durable hopen => ?_
  rw [inStep_server]
  apply inStep_bind
  apply inStep_modifyProgress
  apply inStep_bind
  apply inStep_modifyTimer
  have hroomy : Turn.Roomy arithmetic spare { turn with server :=
      { turn.server with
        durable
        progress := { turn.server.progress with tally := .start durable.term turn.server.id }
        timer := turn.server.timer.restart turn.now } } :=
    (Room.record h hopen).of_same rfl rfl rfl rfl
  refine (inStep_lastKey hroomy).mpr (inStep_forM (Turn.Roomy arithmetic spare) ?_ hroomy)
  exact fun _ _ _ hlast => inStep_post hlast

/-! ## Following -/

theorem answerAppend_inStep (h : turn.Roomy arithmetic spare) (receiver : ServerId)
    (successful : Bool) (matchLogIndex : Index) :
    InStep outbox (Work.answerAppend receiver successful matchLogIndex)
      (Action.answerAppend receiver successful matchLogIndex)
      (fun _ => Turn.Roomy arithmetic spare) turn := by
  unfold Work.answerAppend Action.answerAppend
  rw [inStep_server]
  exact inStep_post h

theorem refuseAppend_inStep (h : turn.Roomy arithmetic spare) (receiver : ServerId) :
    InStep outbox (Work.refuseAppend arithmetic receiver) (Action.refuseAppend receiver)
      (fun _ => Turn.Roomy arithmetic spare) turn :=
  (inStep_lastIndex h).mpr (answerAppend_inStep h receiver false _)

/-- Keeps the log that is left, whether or not an entry was placed. -/
def keepLog (left : Log σ × Except StorageFailure Placement) : Action σ Unit := do
  Action.modifyServer fun server => { server with durable := { server.durable with log := left.1 } }
  match left.2 with
  | .ok _ => return ()
  | .error cause => throw (.storage cause)

theorem place_inStep (h : turn.Roomy arithmetic (spare + 1)) (entry : PlacedEntry)
    (placement : Placement) :
    InStep outbox (Work.extendLog entry.index ⟨entry.term, entry.command⟩)
      (keepLog (turn.server.log.place entry placement))
      (fun _ => Turn.Roomy arithmetic spare) turn := by
  unfold InStep
  rw [run_extendLog, Log.place]
  cases hextend : turn.server.log.extend entry.index ⟨entry.term, entry.command⟩ with
  | ok log => exact ⟨Room.extend h hextend, rfl⟩
  | error cause => exact rfl

/-- What is left of a log when an entry is taken has room for one entry less. -/
theorem takeEntry_inStep (h : turn.Roomy arithmetic (spare + 1)) (entry : PlacedEntry) :
    InStep outbox (Work.takeEntry arithmetic entry) (Action.takeEntry entry)
      (fun _ => Turn.Roomy arithmetic spare) turn := by
  change InStep outbox (Work.takeEntry arithmetic entry)
    (Action.server >>= fun server => keepLog (server.log.accept entry)) _ turn
  unfold Work.takeEntry
  rw [inStep_server, Log.accept]
  cases hstanding : turn.server.log.standing entry.key with
  | held => exact ⟨h.fewer, rfl⟩
  | beyond => exact place_inStep h entry .added
  | conflicting =>
    obtain ⟨_, hread, _⟩ := Log.conflicts_of_standing hstanding
    have hnonneg : 0 ≤ entry.index := (Entries.bounds_of_read? hread).1
    unfold InStep
    rw [EStateM.run_bind, run_truncateLog h hnonneg]
    cases htruncate : turn.server.log.truncate entry.index with
    | error cause => exact rfl
    | ok shorter =>
      -- The log that is kept in the end takes the place of the shorter one.
      have hshorter : Turn.Roomy arithmetic (spare + 1) (turn.withLog shorter) :=
        Room.truncate h hnonneg htruncate
      exact place_inStep hshorter entry (.replaced entry.index)

theorem followCommit_inStep (h : turn.Roomy arithmetic spare) {request : AppendRequest}
    (hreaches : arithmetic.Reaches request.lastNewIndex) :
    InStep outbox (Work.followCommit request) (Action.followCommit request)
      (fun _ => Turn.Roomy arithmetic spare) turn :=
  inStep_modifyProgress (Room.raiseCommit h (hreaches.mono (Int.min_le_right _ _)))

/-- A log that holds a key has a term at its index. -/
theorem exists_termAt?_of_held {log : Log σ} {key : LogKey} (h : log.standing key = .held) :
    ∃ term, log.termAt? key.index = some term := by
  rw [Log.termAt?_eq]
  rcases Log.standing_eq_held.mp h with hnull | ⟨entry, hread, _⟩
  · exact ⟨nullTerm, if_pos hnull⟩
  · exact ⟨entry.term, Entries.termAt?_of_read? hread⟩

theorem acceptAppend_inStep (h : turn.Roomy arithmetic (spare + 1)) {request : AppendRequest}
    (hprev : turn.server.log.standing request.prevLogEntry = .held) :
    InStep outbox (Work.acceptAppend arithmetic request) (Action.acceptAppend request)
      (fun _ => Turn.Roomy arithmetic spare) turn := by
  obtain ⟨term, hterm⟩ := exists_termAt?_of_held hprev
  unfold Work.acceptAppend Action.acceptAppend
  cases hentry : request.entry with
  | none =>
    have hlast : request.lastNewIndex = request.prevLogEntry.index := by
      rw [AppendRequest.lastNewIndex, hentry]
    apply inStep_bind
    apply (followCommit_inStep h (hlast ▸ h.reaches_of_termAt? hterm)).mono
    exact fun _ _ hlast => inStep_pure hlast.fewer
  | some entry =>
    have hlast : request.lastNewIndex = entry.index := by
      rw [AppendRequest.lastNewIndex, hentry]
    dsimp only
    rw [inStep_form (h.next_of_termAt? hterm), inStep_server]
    refine inStep_ite (fun _ => inStep_pure h.fewer) fun haccepts => ?_
    have hplace : entry.index = request.prevLogEntry.index + 1 :=
      Decidable.of_not_not (not_or.mp haccepts).1
    apply inStep_bind
    apply (takeEntry_inStep h entry).mono
    intro _ taken htaken
    apply inStep_bind
    apply (followCommit_inStep htaken (by rw [hlast, hplace]; exact h.reaches_next hterm)).mono
    exact fun _ _ hfollowed => inStep_pure hfollowed

/-- The suffix is read, so it starts at an index of the log. -/
theorem dropConflict_inStep (h : turn.Roomy arithmetic spare) {key : LogKey}
    (hconflict : turn.server.log.standing key = .conflicting) :
    InStep outbox (Work.dropConflict arithmetic key) (Action.dropConflict key)
      (fun _ => Turn.Roomy arithmetic spare) turn := by
  obtain ⟨_, hread, _⟩ := Log.conflicts_of_standing hconflict
  have hnonneg : 0 ≤ key.index := (Entries.bounds_of_read? hread).1
  unfold Work.dropConflict Action.dropConflict
  rw [inStep_server]
  refine inStep_ite (fun _ => ?_) fun _ => inStep_pure h
  exact inStep_written (run_truncateLog h hnonneg) rfl fun _ hok => Room.truncate h hnonneg hok

theorem answerAppendRequest_inStep (h : turn.Roomy arithmetic (spare + 1)) (sender : ServerId)
    (request : AppendRequest) :
    InStep outbox (Work.answerAppendRequest arithmetic sender request)
      (Action.answerAppendRequest sender request) (fun _ => Turn.Roomy arithmetic spare) turn := by
  unfold Work.answerAppendRequest Action.answerAppendRequest
  rw [inStep_server]
  refine inStep_ite (fun _ => refuseAppend_inStep h.fewer sender) fun _ => ?_
  cases hstanding : turn.server.log.standing request.prevLogEntry with
  | beyond => exact refuseAppend_inStep h.fewer sender
  | conflicting =>
    apply inStep_bind
    apply (dropConflict_inStep h hstanding).mono
    exact fun _ _ hlast => refuseAppend_inStep hlast.fewer sender
  | held =>
    apply inStep_bind
    apply (acceptAppend_inStep h hstanding).mono
    intro accepted last hlast
    exact inStep_ite (fun _ => answerAppend_inStep hlast sender true request.lastNewIndex)
      fun _ => refuseAppend_inStep hlast sender

/-! ## Leading -/

/-- The request is the one that is made of the key in front of the cursor. -/
theorem sendRequest_inStep (h : turn.Roomy arithmetic spare) (peer : ServerId) (next : Index) :
    InStep outbox
      (match turn.server.log.termAt? (next - 1) with
        | none => pure ()
        | some term => Work.post peer (.appendRequest {
            term := turn.server.term
            leaderId := turn.server.id
            prevLogEntry := ⟨term, next - 1⟩
            leaderCommit := turn.server.commitIndex
            entry := turn.server.log.entryAt? next }))
      (match turn.server.appendRequest? next with
        | none => pure ()
        | some request => Action.post peer (.appendRequest request))
      (fun _ => Turn.Roomy arithmetic spare) turn := by
  unfold Server.appendRequest? Log.keyBefore?
  cases turn.server.log.termAt? (next - 1) with
  | none => exact inStep_pure h
  | some term => exact inStep_post h

theorem sendAppend_inStep (h : turn.Roomy arithmetic spare) (peer : ServerId) :
    InStep outbox (Work.sendAppend arithmetic peer) (Action.sendAppend peer)
      (fun _ => Turn.Roomy arithmetic spare) turn := by
  unfold Work.sendAppend Action.sendAppend
  rw [inStep_server]
  cases hcursor : turn.server.progress.cursor? peer with
  | none => exact inStep_pure h
  | some cursor =>
    apply inStep_bind
    apply inStep_modifyProgress
    rw [inStep_server, inStep_form (h.prev_clamped hcursor)]
    have hclamped : Turn.Roomy arithmetic spare { turn with server := { turn.server with
        progress := turn.server.progress.updateCursor peer
          ({ · with nextIndex := min cursor.nextIndex turn.server.log.size }) } } :=
      Room.clamp h hcursor
    exact sendRequest_inStep hclamped peer _

theorem raiseCommit_inStep (h : turn.Roomy arithmetic spare) :
    InStep outbox (Work.raiseCommit arithmetic) Action.raiseCommit
      (fun _ => Turn.Roomy arithmetic spare) turn := by
  unfold Work.raiseCommit Action.raiseCommit
  rw [inStep_lastIndex h, inStep_server]
  refine inStep_ite (fun hcommits => ?_) fun _ => inStep_pure h
  exact inStep_modifyProgress (Room.raiseCommit h (h.reaches_of_termAt? hcommits.2))

theorem appendCommand_inStep (h : turn.Roomy arithmetic (spare + 1)) (command : Command) :
    InStep outbox (Work.appendCommand arithmetic command) (Action.appendCommand command)
      (fun _ => Turn.Roomy arithmetic spare) turn := by
  unfold Work.appendCommand Action.appendCommand
  rw [inStep_server]
  cases command.encode with
  | error cause => exact inStep_fail (.malformed cause)
  | ok bytes =>
    apply inStep_bind
    refine inStep_written (run_extendLog _ _) ?_ fun log hlog => ?_
    · simp only [Log.push, Server.log, Server.term]
      cases turn.server.durable.log.extend turn.server.durable.log.size
        ⟨turn.server.durable.term, bytes⟩ <;> rfl
    · have hpushed : Turn.Roomy arithmetic spare (turn.withLog log) := Room.extend h hlog
      apply inStep_bind
      refine InStep.mono (inStep_forM (Turn.Roomy arithmetic spare) ?_ hpushed)
        fun _ _ hlast => raiseCommit_inStep hlast
      intro peer _ last hlast
      rw [inStep_server]
      exact inStep_ite (fun _ => sendAppend_inStep hlast peer) fun _ => inStep_pure hlast

theorem followerMatched_inStep (h : turn.Roomy arithmetic spare) {peer : ServerId}
    {cursor : Cursor} (hcursor : turn.server.progress.cursor? peer = some cursor)
    (matchLogIndex : Index) :
    InStep outbox
      (Work.followerMatched arithmetic turn.server.log.lastIndex peer cursor matchLogIndex)
      (Action.followerMatched peer cursor matchLogIndex)
      (fun _ => Turn.Roomy arithmetic spare) turn := by
  unfold Work.followerMatched Action.followerMatched
  rw [inStep_form (h.advanceBy hcursor matchLogIndex), inStep_action_server]
  apply inStep_bind
  apply inStep_modifyProgress
  apply inStep_bind
  have hmoved : Turn.Roomy arithmetic spare { turn with server := { turn.server with
      progress := turn.server.progress.updateCursor peer
        fun _ => cursor.advance (min matchLogIndex turn.server.log.lastIndex) } } :=
    Room.advance h hcursor matchLogIndex
  apply (raiseCommit_inStep hmoved).mono
  intro _ last hlast
  exact inStep_ite (fun _ => sendAppend_inStep hlast peer) fun _ => inStep_pure hlast

theorem followerRefused_inStep (h : turn.Roomy arithmetic spare) (peer : ServerId)
    (hint : Index) :
    InStep outbox (Work.followerRefused arithmetic peer hint) (Action.followerRefused peer hint)
      (fun _ => Turn.Roomy arithmetic spare) turn := by
  unfold Work.followerRefused Action.followerRefused
  rw [inStep_work_server, inStep_form (h.updateBy peer hint)]
  apply inStep_bind
  have hmoved : Turn.Roomy arithmetic spare { turn with server := { turn.server with
      progress := turn.server.progress.updateCursor peer (·.backOff hint) } } :=
    Room.backOff h peer hint
  exact ⟨sendAppend_inStep hmoved peer, rfl⟩

theorem takeAppendResponse_inStep (h : turn.Roomy arithmetic spare)
    (response : AppendResponse) :
    InStep outbox (Work.takeAppendResponse arithmetic response)
      (Action.takeAppendResponse response) (fun _ => Turn.Roomy arithmetic spare) turn := by
  unfold Work.takeAppendResponse Action.takeAppendResponse
  rw [inStep_lastIndex h, inStep_server]
  cases hcursor : turn.server.progress.cursor? response.serverId with
  | none => exact inStep_pure h
  | some cursor =>
    exact inStep_ite (fun _ => followerMatched_inStep h hcursor response.matchLogIndex)
      fun _ => followerRefused_inStep h response.serverId response.matchLogIndex

theorem sendHeartbeats_inStep (h : turn.Roomy arithmetic spare) (nextHeartbeat : Duration) :
    InStep outbox (Work.sendHeartbeats arithmetic nextHeartbeat)
      (Action.sendHeartbeats nextHeartbeat) (fun _ => Turn.Roomy arithmetic spare) turn := by
  unfold Work.sendHeartbeats Action.sendHeartbeats
  rw [inStep_now]
  refine inStep_ite (fun _ => ?_) fun _ => inStep_pure h
  rw [inStep_server]
  apply inStep_bind
  apply inStep_setRole
  refine inStep_forM (Turn.Roomy arithmetic spare) ?_ (Room.of_same h rfl rfl rfl rfl)
  exact fun peer _ _ hlast => sendAppend_inStep hlast peer

end Consensus
