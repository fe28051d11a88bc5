import Consensus.Proofs.Replication.Cursors
import Consensus.Proofs.Turn.Trace
import Consensus.Server.Leading

/-! # Leaders trace the protocol

A leader shows its followers its own log, and what it commits is of its term and held by
a majority, as far as the answers it took can tell.
-/

namespace Consensus

variable {σ : Type} [Store σ] [LawfulStore σ] {intake : View.Intake} {first turn : Turn σ}

omit [LawfulStore σ] in
/-- A request shows the log it is made from. -/
theorem Server.appendRequest?_eq_some {server : Server σ} {next : Index} {request : AppendRequest}
    (h : server.appendRequest? next = some request) :
    request.term = server.term ∧ request.leaderId = server.id ∧
      request.leaderCommit = server.commitIndex ∧ server.view.log.Shows request := by
  obtain ⟨key, hkey, rfl⟩ := Option.map_eq_some_iff.mp h
  obtain ⟨term, hterm, rfl⟩ := Option.map_eq_some_iff.mp hkey
  refine ⟨rfl, rfl, rfl, hterm, ?_⟩
  rw [show next - 1 + 1 = next from Int.sub_add_cancel next 1]
  rfl

omit [LawfulStore σ] in
/-- What a majority holds is known to be replicated to a majority. -/
theorem Server.replicated_of_commits {server : Server σ} {index : Index}
    (hcommit : nullIndex ≤ server.commitIndex) (hindex : server.majorityMatch = index)
    (hcommits : server.Commits index) : server.view.Replicated index := by
  subst hindex
  exact Cursors.le_countP_of_majorityMatch _ _ (Nat.succ_pos _)
    (Int.lt_of_le_of_lt hcommit hcommits.1)

namespace Action

/-- The action keeps a leader in the lead and traces the protocol. -/
def LeadsOn (intake : View.Intake) (action : Action σ Unit) : Prop :=
  ∀ ⦃first turn : Turn σ⦄, Turn.Trace intake first turn → turn.server.role.isLeader = true →
    action.Ends (fun _ last => Turn.Trace intake first last ∧ last.server.role.isLeader = true)
      (Turn.Trace intake first) turn

/-- For the trace it does not matter that the leader still leads. -/
theorem LeadsOn.ends {action : Action σ Unit} (h : LeadsOn intake action)
    (htrace : Turn.Trace intake first turn) (hleads : turn.server.role.isLeader = true) :
    action.Ends (fun _ last => Turn.Trace intake first last) (Turn.Trace intake first) turn :=
  (h htrace hleads).mono fun _ _ hlast => hlast.1

/-- A change of what a leader is to send next, and of nothing else. -/
theorem trace_of_cursor (h : Turn.Trace intake first turn)
    (hleads : turn.server.role.isLeader = true) (peer : ServerId) (change : Cursor → Cursor)
    (hserver : ∀ cursor, (change cursor).serverId = cursor.serverId)
    (hmatch : ∀ cursor, (change cursor).matchIndex = cursor.matchIndex) :
    Turn.Trace intake first { turn with server := { turn.server with
      progress := turn.server.progress.updateCursor peer change } } := by
  apply h.still
  · have hmatched := Cursors.matched_update turn.server.progress.cursors peer hserver hmatch
    exact congrArg (fun matched => { turn.server.view with matched }) hmatched
  · refine ⟨h.coherent.durable, h.coherent.commit_ge, fun hfollows => ?_⟩
    rw [show turn.server.role.isLeader = false from hfollows] at hleads
    exact absurd hleads (by decide)

/-- A leader sends an entry along the protocol. -/
theorem sendAppend_leadsOn (peer : ServerId) :
    LeadsOn intake (sendAppend peer : Action σ Unit) := by
  intro first turn h hleads
  unfold sendAppend
  simp only [ends_bind, ends_server]
  split
  next => exact ⟨h, hleads⟩
  next cursor _ =>
    simp only [ends_bind, ends_modifyProgress, ends_server]
    have hmoved := trace_of_cursor h hleads peer
      ({ · with nextIndex := min cursor.nextIndex turn.server.log.size })
      (fun _ => rfl) (fun _ => rfl)
    split
    next => exact ⟨hmoved, hleads⟩
    next request hrequest =>
      obtain ⟨hterm, hleader, hcommit, hshows⟩ := Server.appendRequest?_eq_some hrequest
      exact ⟨hmoved.post (.replicate hleads hterm hleader hcommit hshows), hleads⟩

/-- A leader raises its commit index along the protocol. -/
theorem raiseCommit_leadsOn : LeadsOn intake (raiseCommit : Action σ Unit) := by
  intro first turn h hleads
  unfold raiseCommit
  simp only [ends_bind, ends_server]
  refine ends_ite (fun hcommits => ?_) (fun _ => ⟨h, hleads⟩)
  have hraise : turn.server.progress.raiseCommit turn.server.majorityMatch =
      { turn.server.progress with commitIndex := turn.server.majorityMatch } :=
    if_pos hcommits.1
  rw [ends_modifyProgress, hraise]
  have hcoherent := h.coherent
  have hmove : turn.server.view.Move intake { turn.server.view with
      commitIndex := turn.server.majorityMatch } :=
    .commit hleads hcommits.1 hcommits.2
      (Server.replicated_of_commits hcoherent.commit_ge rfl hcommits)
  refine ⟨h.move hmove ⟨hcoherent.durable, ?_, hcoherent.cursors_eq⟩, hleads⟩
  exact Int.le_trans hcoherent.commit_ge (Int.le_of_lt hcommits.1)

/-- Sending to each peer is a leader's business throughout. -/
theorem forM_leadsOn {peers : List ServerId} {body : ServerId → Action σ Unit}
    (hbody : ∀ peer, LeadsOn intake (body peer)) : LeadsOn intake (peers.forM body) := by
  intro first turn h hleads
  exact ends_forM (fun last => Turn.Trace intake first last ∧ last.server.role.isLeader = true)
    (fun peer _ _ hlast => hbody peer hlast.1 hlast.2) ⟨h, hleads⟩

/-- A leader appends a submitted command along the protocol. -/
theorem appendCommand_ends {command : Command} (h : Turn.Trace intake first turn)
    (hleads : turn.server.role.isLeader = true)
    (hsubmitted : ∀ bytes, command.encode = .ok bytes →
      intake.submitted turn.server.log.entries bytes) :
    (appendCommand command).Ends (fun _ last => Turn.Trace intake first last)
      (Turn.Trace intake first) turn := by
  unfold appendCommand
  simp only [ends_bind, ends_server]
  split
  next => exact h
  next bytes hencode =>
    rw [ends_bind]
    refine ends_changeDurable (fun durable hchange => ?_) h
    obtain ⟨⟨longer, key⟩, hpush, rfl⟩ := map_eq_ok.mp (mapError_eq_ok.mp hchange)
    obtain ⟨extended, hextend, hpair⟩ := map_eq_ok.mp hpush
    obtain rfl : extended = longer := congrArg Prod.fst hpair
    have hcoherent := h.coherent
    obtain ⟨hextended, _, hentries, hload⟩ := hcoherent.durable.log.extend_ok hextend
    have hmove : turn.server.view.Move intake
        { turn.server.view with log := extended.entries } := by
      rw [hentries]
      exact .extend hleads (hsubmitted bytes hencode)
    have hadded : Turn.Trace intake first { turn with server := { turn.server with
        durable := { turn.server.durable with log := extended } } } :=
      h.move hmove { hcoherent with durable := hcoherent.durable.with_log hextended hload }
    rw [ends_bind]
    apply (forM_leadsOn ?_ hadded hleads).mono
    · rintro _ last ⟨hlast, hstill⟩
      exact raiseCommit_leadsOn.ends hlast hstill
    · intro peer first turn h hleads
      simp only [ends_bind, ends_server]
      exact ends_ite (fun _ => sendAppend_leadsOn peer h hleads) (fun _ => ⟨h, hleads⟩)

/-- A leader notes how far a peer has come along the protocol. -/
theorem followerMatched_ends {sender : ServerId} {response : AppendResponse} {cursor : Cursor}
    (h : Turn.Trace intake first turn)
    (harrived : intake.received sender (.appendResponse response))
    (hleads : turn.server.role.isLeader = true)
    (hterm : response.term = turn.server.term) (hsuccessful : response.successful = true)
    (hcursor : turn.server.progress.cursor? response.serverId = some cursor) :
    (followerMatched response.serverId cursor response.matchLogIndex).Ends
      (fun _ last => Turn.Trace intake first last) (Turn.Trace intake first) turn := by
  unfold followerMatched
  simp only [ends_bind, ends_server, ends_modifyProgress]
  obtain ⟨hknown, hserver⟩ := Cursors.mem_of_find? hcursor
  generalize hmoved : cursor.advance (min response.matchLogIndex turn.server.log.lastIndex) = moved
  have hmoved_server : moved.serverId = response.serverId := by
    rw [← hmoved, Cursor.serverId_advance, hserver]
  have hmove : turn.server.view.Move intake
      { turn.server.view with
        matched := (turn.server.progress.cursors.update response.serverId
          fun _ => moved).matched } := by
    refine .learn hleads (Cursors.servers_update _ hmoved_server) fun follower hfollower => ?_
    rcases Cursors.mem_matched_update hfollower with hold | rfl
    · exact .inl hold
    -- The cursor that moved knows what it knew, or at most what the follower reported.
    rcases Cursor.matchIndex_advance cursor
      (min response.matchLogIndex turn.server.log.lastIndex) with hkept | htold
    · refine .inl (List.mem_map.mpr ⟨cursor, hknown, ?_⟩)
      rw [← hmoved, hkept, Cursor.serverId_advance]
    · refine .inr ⟨sender, response, harrived, hterm, hsuccessful, hmoved_server.symm, ?_⟩
      rw [← hmoved, htold]
      exact Int.min_le_left _ _
  have hlearnt : Turn.Trace intake first { turn with server := { turn.server with
      progress := turn.server.progress.updateCursor response.serverId fun _ => moved } } := by
    refine h.move hmove ⟨h.coherent.durable, h.coherent.commit_ge, fun hfollows => ?_⟩
    rw [show turn.server.role.isLeader = false from hfollows] at hleads
    exact absurd hleads (by decide)
  apply (raiseCommit_leadsOn hlearnt hleads).mono
  rintro _ last ⟨hlast, hstill⟩
  exact ends_ite (fun _ => (sendAppend_leadsOn _).ends hlast hstill) (fun _ => hlast)

/-- A leader takes every response of its term along the protocol. -/
theorem takeAppendResponse_ends {sender : ServerId} {response : AppendResponse}
    (h : Turn.Trace intake first turn)
    (harrived : intake.received sender (.appendResponse response))
    (hleads : turn.server.role.isLeader = true) (hterm : response.term = turn.server.term) :
    (takeAppendResponse response).Ends (fun _ last => Turn.Trace intake first last)
      (Turn.Trace intake first) turn := by
  unfold takeAppendResponse
  simp only [ends_bind, ends_server]
  split
  next => exact h
  next cursor hcursor =>
    apply ends_ite
    · intro hsuccessful
      exact followerMatched_ends h harrived hleads hterm hsuccessful hcursor
    · intro _
      unfold followerRefused
      rw [ends_bind, ends_modifyProgress]
      have hmoved := trace_of_cursor h hleads response.serverId
        (·.backOff response.matchLogIndex) (fun _ => rfl) (fun _ => rfl)
      exact (sendAppend_leadsOn _).ends hmoved hleads

theorem sendHeartbeats_leadsOn (nextHeartbeat : Duration) :
    LeadsOn intake (sendHeartbeats nextHeartbeat : Action σ Unit) := by
  intro first turn h hleads
  unfold sendHeartbeats
  simp only [ends_bind, ends_now]
  refine ends_ite (fun _ => ?_) (fun _ => ⟨h, hleads⟩)
  simp only [ends_bind, ends_server, ends_setRole]
  exact forM_leadsOn sendAppend_leadsOn (h.role _ hleads.symm) rfl

end Action

end Consensus
