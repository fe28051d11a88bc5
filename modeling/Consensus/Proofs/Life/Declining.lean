import Consensus.Proofs.Life.Faults

/-! # Declining

A server does nothing about a frame of a server that is no peer, about a frame that is no message
and about a message of an older term. It refuses a request of an older term in the term that it is
in, so that the sender learns of it, and leaves all other messages without an answer.
-/

namespace Consensus

variable {σ : Type} [Store σ]

/-- How the server refuses an append request. -/
def Server.appendRefusal (server : Server σ) : Message :=
  .appendResponse ⟨server.term, false, server.id, server.log.lastIndex⟩

/-- What the server answers to a message that it declines. -/
def Server.refusal? (server : Server σ) : Message → Option Message
  | .voteRequest _ => some (.voteResponse ⟨server.term, false⟩)
  | .appendRequest _ => some server.appendRefusal
  | .voteResponse _ => none
  | .appendResponse _ => none
  | .timeoutNow _ => none

/-- What has been posted when a message of `sender` is declined. -/
def Server.refusals (server : Server σ) (sender : ServerId) (message : Message) :
    List (Posting σ) :=
  (server.refusal? message).toList.map fun reply => ⟨sender, reply, server⟩

namespace Action

variable {turn : Turn σ} {sender : ServerId} {message : Message}

/-- The message makes no difference to the server, which refuses it if it is a request. -/
def Declines (action : Action σ RoleChange) (sender : ServerId) (message : Message)
    (turn : Turn σ) : Prop :=
  action.Ends
    (fun change last => change = .stay ∧
      last = { turn with postings := turn.postings ++ turn.server.refusals sender message })
    (fun _ => False) turn

/-- A message that asks for no refusal is declined by doing nothing. -/
theorem declines_of_silent {action : Action σ RoleChange}
    (hquiet : turn.server.refusal? message = none)
    (hends : action.Ends (fun change last => change = .stay ∧ last = turn) (fun _ => False) turn) :
    action.Declines sender message turn := by
  apply hends.mono
  rintro change last ⟨hstay, rfl⟩
  refine ⟨hstay, ?_⟩
  rw [Server.refusals, hquiet]
  simp

/-- No vote is granted for an older term. -/
theorem not_grants_of_stale {vote : VoteRequest} (hstale : vote.term < turn.server.term) :
    ¬ turn.server.Grants vote :=
  fun hgrants => absurd hgrants.1 (Int.ne_of_lt hstale)

omit [Store σ] in
/-- A vote of an older term does not count. -/
theorem countVote_of_stale {response : VoteResponse} {done : Bool → Turn σ → Prop}
    {failed : Turn σ → Prop} (hstale : response.term < turn.server.term) :
    (countVote sender response).Ends done failed turn ↔ done false turn := by
  have hother : ¬ (response.granted = true ∧ response.term = turn.server.term ∧
      turn.server.progress.tally.Counts turn.server.term sender) :=
    fun hcounted => absurd hcounted.2.1 (Int.ne_of_lt hstale)
  unfold countVote
  rw [ends_bind, ends_server, if_neg hother]
  rfl

/-- A follower declines what is of an older term. -/
theorem followerEvent_declines (hstale : message.term < turn.server.term) :
    (followerEvent (.received sender message)).Declines sender message turn := by
  have hother : message.term ≠ turn.server.term := Int.ne_of_lt hstale
  unfold Declines followerEvent
  rw [ends_bind, ends_server]
  cases message with
  | appendRequest append =>
    dsimp only
    refine ends_ite (fun hterm => absurd hterm hother) (fun _ => ?_)
    unfold answerAppendRequest
    simp only [ends_bind, ends_server]
    exact ends_ite (fun _ => ⟨rfl, rfl⟩) (fun hcurrent => absurd hstale hcurrent)
  | voteRequest vote =>
    simp only [ends_bind]
    rw [ends_answerVoteRequest_of_refused (not_grants_of_stale hstale)]
    exact ⟨rfl, rfl⟩
  | timeoutNow request =>
    refine ends_ite (fun hmeant => absurd hmeant.2 hother) (fun _ => ?_)
    exact declines_of_silent rfl ⟨rfl, rfl⟩
  | voteResponse response => exact declines_of_silent rfl ⟨rfl, rfl⟩
  | appendResponse response => exact declines_of_silent rfl ⟨rfl, rfl⟩

/-- A candidate declines what is of an older term. -/
theorem candidateEvent_declines (hstale : message.term < turn.server.term) :
    (candidateEvent (.received sender message)).Declines sender message turn := by
  have hother : message.term ≠ turn.server.term := Int.ne_of_lt hstale
  unfold Declines candidateEvent
  rw [ends_bind, ends_server]
  cases message with
  | appendRequest append => exact ends_ite (fun hterm => absurd hterm hother) fun _ => ⟨rfl, rfl⟩
  | voteRequest vote =>
    simp only [ends_bind]
    rw [ends_answerVoteRequest_of_refused (not_grants_of_stale hstale)]
    exact ⟨rfl, rfl⟩
  | voteResponse response =>
    simp only [ends_bind]
    rw [countVote_of_stale hstale, ends_server]
    refine ends_ite (fun hwon => absurd hwon.1 (by decide)) (fun _ => ?_)
    exact declines_of_silent rfl ⟨rfl, rfl⟩
  | appendResponse response => exact declines_of_silent rfl ⟨rfl, rfl⟩
  | timeoutNow request => exact declines_of_silent rfl ⟨rfl, rfl⟩

/-- A leader declines what is of an older term. -/
theorem leaderEvent_declines (hstale : message.term < turn.server.term) :
    (leaderEvent (.received sender message)).Declines sender message turn := by
  have hother : message.term ≠ turn.server.term := Int.ne_of_lt hstale
  unfold Declines leaderEvent
  rw [ends_bind, ends_server]
  cases message with
  | appendRequest append => exact ⟨rfl, rfl⟩
  | appendResponse response =>
    refine ends_ite (fun hterm => absurd hterm hother) (fun _ => ?_)
    exact declines_of_silent rfl ⟨rfl, rfl⟩
  | voteRequest vote =>
    simp only [ends_bind]
    rw [ends_answerVoteRequest_of_refused (not_grants_of_stale hstale)]
    exact ⟨rfl, rfl⟩
  | voteResponse response =>
    simp only [ends_bind]
    rw [countVote_of_stale hstale]
    exact declines_of_silent rfl ⟨rfl, rfl⟩
  | timeoutNow request => exact declines_of_silent rfl ⟨rfl, rfl⟩

/-- In whatever role, a server declines a message of an older term. -/
theorem handle_declines (hstale : message.term < turn.server.term) :
    (handle (.received sender message)).Declines sender message turn := by
  apply ends_handle_of_current (Int.le_of_lt hstale)
  unfold roleEvent
  rw [ends_bind, ends_server]
  split
  next => exact followerEvent_declines hstale
  next => exact candidateEvent_declines hstale
  next => exact leaderEvent_declines hstale

/-- A server that has nothing to apply has done with what it declines. -/
theorem Declines.dispatch (h : (handle (.received sender message)).Declines sender message turn)
    (happlied : turn.server.commitIndex ≤ turn.server.progress.lastApplied) :
    (Action.dispatch (.received sender message)).Ends
      (fun _ last => last =
        { turn with postings := turn.postings ++ turn.server.refusals sender message })
      (fun _ => False) turn := by
  rw [dispatch_eq, ends_bind]
  apply (ends_react (h.mono fun _ _ hlast => .inl hlast)).mono
  rintro _ last rfl
  exact ends_applyCommitted_of_le happlied rfl

end Action

namespace Server

variable [LawfulStore σ] {server : Server σ}

/-- Frames of servers that are no peers, frames that are no messages and messages of older terms
are inert. The call succeeds and leaves the whole server as it was, its timer included, and nothing
is sent but the refusal of a request of an older term. -/
theorem inert_frames (hreachable : server.Reachable)
    (hdecodes : ∀ entry ∈ server.log.entries, Command.Decodes entry.command) (now : Duration)
    (sender : ServerId) (frame : Bytes) :
    (server.config.isPeer sender = false → server.receive now sender frame = .idle server ()) ∧
      (∀ cause, Message.decode frame = .error cause →
        server.receive now sender frame = .idle server ()) ∧
      ∀ message, server.config.isPeer sender = true → Message.decode frame = .ok message →
        message.term < server.term →
          server.receive now sender frame = ⟨server, server.refusals sender message, .ok ()⟩ := by
  refine ⟨fun hforeign => ?_, fun cause hcause => ?_, fun message hpeer hdecode hstale => ?_⟩
  · simp [receive, hforeign]
  · simp [receive, hcause]
  · have happlied := Int.le_of_eq (hreachable.lastApplied_eq hdecodes).symm
    have hdispatch : (Action.dispatch (.received sender message)).Ends
        (fun _ last => last = ⟨server, now, server.refusals sender message⟩)
        (fun _ => False) ⟨server, now, []⟩ :=
      (Action.handle_declines hstale).dispatch happlied
    rw [receive_eq_turn hpeer hdecode]
    obtain ⟨_, last, hturn, rfl⟩ := hdispatch.turn_done
    exact hturn

end Server

namespace Trio

/-- Server 2 asks for a vote in term 0. -/
def relic : Message := .voteRequest ⟨0, 2, .null⟩

end Trio

/-- A leader of term 1 is asked for its vote in term 0, by a server that is no peer and by a peer,
and gets a frame that is no message. -/
theorem Server.inert_frames_relic :
    (Trio.server.after Trio.campaign).Reachable ∧
      (Trio.server.after Trio.campaign).role.isLeader = true ∧
      (Trio.server.after Trio.campaign).receive .zero 9 Trio.relic.encode =
        .idle (Trio.server.after Trio.campaign) () ∧
      (Trio.server.after Trio.campaign).receive .zero 2 [] =
        .idle (Trio.server.after Trio.campaign) () ∧
      (Trio.server.after Trio.campaign).receive .zero 2 Trio.relic.encode =
        ⟨Trio.server.after Trio.campaign,
          [⟨2, .voteResponse ⟨1, false⟩, Trio.server.after Trio.campaign⟩], .ok ()⟩ := by
  have hreachable : (Trio.server.after Trio.campaign).Reachable := Trio.reachable_server.after _
  have hdecodes : ∀ entry ∈ (Trio.server.after Trio.campaign).log.entries,
      Command.Decodes entry.command := by
    decide +kernel
  have hterm : (Trio.server.after Trio.campaign).term = 1 := by
    decide +kernel
  have hpeer : (Trio.server.after Trio.campaign).config.isPeer 2 = true := by
    decide +kernel
  have hinert := inert_frames hreachable hdecodes .zero
  refine ⟨hreachable, by decide +kernel, ?_, ?_, ?_⟩
  · exact (hinert 9 Trio.relic.encode).1 (by decide +kernel)
  · exact (hinert 2 []).2.1 (.shortFrame 0) (by decide +kernel)
  · have hrefused := (hinert 2 Trio.relic.encode).2.2 Trio.relic hpeer (by decide +kernel)
      (by rw [hterm]; decide)
    rw [hrefused, refusals, Trio.relic, refusal?, hterm]
    rfl

end Consensus
