import Consensus.Proofs.Turn.Answering
import Consensus.Proofs.Turn.Trace

/-! # Votes trace the protocol

A vote is stored before it is granted, and an election before anyone is asked.
-/

namespace Consensus

variable {σ : Type} [Store σ] [LawfulStore σ] {intake : View.Intake} {first turn : Turn σ}

namespace Action

/-- A vote request is answered along the protocol, and a vote that is granted is stored. -/
theorem answerVoteRequest_ends {sender : ServerId} {request : VoteRequest}
    (h : Turn.Trace intake first turn)
    (harrived : intake.received sender (.voteRequest request)) :
    (answerVoteRequest sender request).Ends
      (fun granted last => Turn.Trace intake first last ∧
        (granted = true → last.server.votedFor = some request.candidateId))
      (Turn.Trace intake first) turn := by
  have hcoherent := h.coherent
  apply ends_answerVoteRequest
  · rintro voted ⟨hterm, hfree, hkey⟩ hvotes
    rw [hcoherent.lastKey_eq] at hkey
    obtain ⟨hvoted, rfl⟩ | ⟨hnone, durable, hrecord, rfl⟩ := hvotes
    -- The vote of this term was given to the same candidate before.
    · have hvote := hfree.resolve_left hvoted
      exact ⟨h.post (.grant harrived hterm hvote hkey), fun _ => hvote⟩
    · obtain ⟨hdurable, hsame, hvoted, hentries⟩ := hcoherent.durable.record_ok hrecord
      have hview : ({ turn.server with durable } : Server σ).view =
          { turn.server.view with votedFor := some request.candidateId } := by
        rw [Server.view_with_durable, hsame, hvoted, hentries]
        rfl
      have hmove : turn.server.view.Move intake ({ turn.server with durable } : Server σ).view := by
        rw [hview]
        exact .vote harrived hterm hnone
      have hgrant : ({ turn.server with durable } : Server σ).view.Vouches intake sender
          (.voteResponse ⟨turn.server.term, true⟩) := by
        rw [hview]
        exact .grant harrived hterm rfl hkey
      exact ⟨(h.move hmove { hcoherent with durable := hdurable }).post hgrant, fun _ => hvoted⟩
  · exact fun _ => ⟨h.post .refuse, fun hgranted => Bool.noConfusion hgranted⟩
  · exact fun _ _ _ => h

/-- A vote is counted along the protocol, and counts only for an election of the current term. -/
theorem countVote_ends {sender : ServerId} {response : VoteResponse}
    (h : Turn.Trace intake first turn)
    (harrived : intake.received sender (.voteResponse response)) :
    (countVote sender response).Ends
      (fun counted last => Turn.Trace intake first last ∧ last.server.role = turn.server.role ∧
        (counted = true → last.server.progress.tally.term = last.server.term))
      (Turn.Trace intake first) turn := by
  apply ends_countVote
  · intro hgranted hterm hcounts
    obtain ⟨term, granted⟩ := response
    obtain rfl : granted = true := hgranted
    obtain rfl : term = turn.server.term := hterm
    have hmove : turn.server.view.Move intake { turn.server.view with
        tally := turn.server.progress.tally.record turn.server.term sender } :=
      .countVote harrived hcounts
    refine ⟨h.move hmove ⟨h.coherent.durable, h.coherent.commit_ge, h.coherent.cursors_eq⟩, rfl,
      fun _ => ?_⟩
    -- A vote that counts leaves the tally in the term that it counted for.
    simp only [Tally.record, if_pos hcounts]
    exact hcounts.1.symm
  · exact ⟨h, rfl, fun hcounted => Bool.noConfusion hcounted⟩

end Action

/-- A server that has stored its candidacy and has yet to ask for votes. -/
def Server.opened (server : Server σ) (durable : Durable σ) (now : Duration) : Server σ :=
  { server with
    durable
    progress := { server.progress with tally := .start durable.term server.id }
    timer := server.timer.restart now }

namespace Action

/-- An election is opened in one move, by which the server votes for itself. -/
theorem opened_of_openElection (h : Turn.Trace intake first turn)
    (hfollows : turn.server.role.isLeader = false) {durable : Durable σ}
    (hopen : turn.server.durable.openElection turn.server.id = .ok durable) :
    Turn.Trace intake first { turn with server := turn.server.opened durable turn.now } ∧
      durable.votedFor = some turn.server.id := by
  have hcoherent := h.coherent
  obtain ⟨hroom, hdurable, hterm, hvote, hentries⟩ := hcoherent.durable.openElection_ok hopen
  have hview : (turn.server.opened durable turn.now).view = { turn.server.view with
      term := turn.server.term + 1
      votedFor := some turn.server.id
      tally := .start (turn.server.term + 1) turn.server.id } := by
    simp only [Server.opened, Server.view, Server.log, Server.term, Server.votedFor, hentries,
      hterm, hvote]
    rfl
  have hmove : turn.server.view.Move intake (turn.server.opened durable turn.now).view := by
    rw [hview]
    exact .campaign hfollows hroom
  exact ⟨h.move hmove ⟨hdurable, hcoherent.commit_ge, hcoherent.cursors_eq⟩, hvote⟩

/-- An election is started along the protocol, with a tally of the new term. -/
theorem startElection_ends (h : Turn.Trace intake first turn)
    (hfollows : turn.server.role.isLeader = false) :
    startElection.Ends
      (fun _ last => Turn.Trace intake first last ∧ last.server.role = turn.server.role ∧
        last.server.progress.tally.term = last.server.term)
      (Turn.Trace intake first) turn := by
  unfold startElection
  simp only [ends_bind, ends_server, ends_modifyProgress, ends_modifyTimer]
  refine ends_changeDurable (fun durable hchange => ?_) h
  obtain ⟨hopened, hvote⟩ := opened_of_openElection h hfollows hchange
  have hask : ∀ peer, (turn.server.opened durable turn.now).view.Vouches intake peer
      (.voteRequest ⟨durable.term, turn.server.id, durable.log.lastKey⟩) := by
    intro peer
    have hkey := hopened.coherent.lastKey_eq
    rw [show durable.log.lastKey = _ from hkey]
    exact .askVote hvote
  -- While it asks one peer after the other, the server stays as it is.
  apply (ends_forM (fun last => Turn.Trace intake first last ∧
    last.server = turn.server.opened durable turn.now) ?_ ⟨hopened, rfl⟩).mono
  · rintro _ last ⟨hlast, hsame⟩
    rw [hsame]
    exact ⟨hlast, rfl, rfl⟩
  · rintro peer _ last ⟨hlast, hsame⟩
    exact ⟨hlast.post (hsame ▸ hask peer), hsame⟩

end Action

end Consensus
