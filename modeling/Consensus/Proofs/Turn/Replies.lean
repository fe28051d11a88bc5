import Consensus.Proofs.Turn.Halting

/-! # Replies to requests

A server that becomes a follower by a request handles it again as one, so a reply belongs in one
of the two passes. It is in the second one for a newer term or a leader that is conceded to. A
candidate or a leader that grants its vote replies in both.
-/

namespace Consensus

/-- The kind of message that a request of a kind is replied to with. -/
def MessageKind.reply? : MessageKind → Option MessageKind
  | .voteRequest => some .voteResponse
  | .appendRequest => some .appendResponse
  | _ => none

variable {σ : Type} [Store σ]

/-- The server does not follow, and grants its vote. -/
def Server.RepliesTwice (server : Server σ) (request : Message) : Prop :=
  (∀ leader, server.role ≠ .follower leader) ∧
    ∃ vote, request = .voteRequest vote ∧ server.Grants vote

namespace Server

variable {server voted : Server σ} {request : Message} {vote : VoteRequest}

/-- A follower does not reply twice. -/
theorem not_repliesTwice_of_follower {leader : Option ServerId}
    (hrole : server.role = .follower leader) : ¬ server.RepliesTwice request :=
  fun htwice => htwice.1 leader hrole

/-- No server replies twice to a request of a newer term. -/
theorem not_repliesTwice_of_newer (hnewer : server.term < request.term) :
    ¬ server.RepliesTwice request := by
  rintro ⟨_, vote, rfl, hterm, _⟩
  exact Int.ne_of_gt hnewer hterm

/-- No server replies twice to an append request. -/
theorem not_repliesTwice_of_append {append : AppendRequest} :
    ¬ server.RepliesTwice (.appendRequest append) := by
  rintro ⟨_, _, hrequest, _⟩
  cases hrequest

/-- No server replies twice to a vote request that it refuses. -/
theorem not_repliesTwice_of_refused (hrefused : ¬ server.Grants vote) :
    ¬ server.RepliesTwice (.voteRequest vote) := by
  rintro ⟨_, _, hrequest, hgrants⟩
  cases hrequest
  exact hrefused hgrants

/-- A server that has granted its vote would do so again. -/
theorem Votes.grants_again [LawfulStore σ] (h : server.Votes vote.candidateId voted)
    (hcoherent : server.durable.Coherent) (hgrants : server.Grants vote) :
    voted.durable.Coherent ∧ voted.Grants vote := by
  obtain ⟨_, rfl⟩ | ⟨_, durable, hvote, rfl⟩ := h
  · exact ⟨hcoherent, hgrants⟩
  · obtain ⟨hrecorded, hterm, hvoted, hentries⟩ := hcoherent.record_ok hvote
    obtain ⟨hsame, _, hlog⟩ := hgrants
    refine ⟨hrecorded, hsame.trans hterm.symm, .inr hvoted, ?_⟩
    show vote.lastLogEntry.AtLeastAsUpToDate durable.log.lastKey
    rw [hrecorded.log.lastKey_eq, hentries, ← hcoherent.log.lastKey_eq]
    exact hlog

end Server

/-! ## Turns -/

namespace Turn

/-- The turn has come from `first` to `last` in one role and term, without a message. -/
structure Silent (first last : Turn σ) : Prop where
  role_eq : last.server.role = first.server.role
  term_eq : last.server.term = first.server.term
  postings_eq : last.postings = first.postings

/-- The turn has come from `first` to `last` in one term, with one reply in it. -/
structure Replies (peer : ServerId) (request reply : Message) (first last : Turn σ) : Prop where
  kind_eq : request.kind.reply? = some reply.kind
  reply_term : reply.term = first.server.term
  term_eq : last.server.term = first.server.term
  messages_eq : last.messages = first.messages ++ [(peer, reply)]

/-- What the first look at a request comes to: a reply, or a change to follower without one, or
with the granted vote. -/
inductive Reacts [LawfulStore σ] (peer : ServerId) (request : Message) (first last : Turn σ) :
    RoleChange → Prop
  | replied {reply : Message} (h : first.Replies peer request reply last)
      (honce : ¬ first.server.RepliesTwice request) : Reacts peer request first last .stay
  | deferred (hcoherent : last.server.durable.Coherent)
      (hterm : request.term ≤ last.server.term) (hsilent : last.postings = first.postings)
      (honce : ¬ first.server.RepliesTwice request) : Reacts peer request first last .follow
  | granted {vote : VoteRequest} (hrequest : request = .voteRequest vote)
      (hcoherent : last.server.durable.Coherent) (hgrants : last.server.Grants vote)
      (h : first.Replies peer request (.voteResponse ⟨first.server.term, true⟩) last)
      (htwice : first.server.RepliesTwice request) : Reacts peer request first last .follow

/-- The turn has come from `first` to `last` with one reply, of the term in the end, which is
there twice if the server replies in both passes. -/
def Serves (peer : ServerId) (request : Message) (first last : Turn σ) : Prop :=
  ∃ reply : Message, request.kind.reply? = some reply.kind ∧ reply.term = last.server.term ∧
    (¬ first.server.RepliesTwice request →
      last.messages = first.messages ++ [(peer, reply)]) ∧
    (first.server.RepliesTwice request →
      last.messages = first.messages ++ [(peer, reply), (peer, reply)])

variable {first middle last : Turn σ} {peer : ServerId} {request reply : Message}

omit [Store σ] in
theorem messages_eq_of_postings (h : last.postings = first.postings) :
    last.messages = first.messages := by
  rw [messages, h]
  rfl

omit [Store σ] in
theorem silent_refl (turn : Turn σ) : turn.Silent turn := ⟨rfl, rfl, rfl⟩

omit [Store σ] in
/-- A reply that is posted is the only one. -/
theorem Silent.replies (h : first.Silent last) (hkind : request.kind.reply? = some reply.kind)
    (hreply : reply.term = last.server.term) {sender : Server σ}
    (hsender : sender.term = last.server.term) :
    first.Replies peer request reply { last with
      server := sender, postings := last.postings ++ [⟨peer, reply, sender⟩] } := by
  refine ⟨hkind, hreply.trans h.term_eq, hsender.trans h.term_eq, ?_⟩
  rw [← messages_eq_of_postings h.postings_eq]
  exact List.map_append

omit [Store σ] in
/-- A reply stays the only one while nothing more is posted. -/
theorem Replies.silent_after (h : first.Replies peer request reply middle)
    (hsilent : middle.Silent last) : first.Replies peer request reply last :=
  ⟨h.kind_eq, h.reply_term, hsilent.term_eq.trans h.term_eq,
    (messages_eq_of_postings hsilent.postings_eq).trans h.messages_eq⟩

omit [Store σ] in
theorem Replies.of_same (h : middle.Replies peer request reply last)
    (hterm : middle.server.term = first.server.term)
    (hpostings : middle.postings = first.postings) : first.Replies peer request reply last := by
  refine ⟨h.kind_eq, h.reply_term.trans hterm, h.term_eq.trans hterm, ?_⟩
  rw [h.messages_eq, messages_eq_of_postings hpostings]

/-- A request stays served when commands are applied. -/
theorem Serves.applied (h : first.Serves peer request middle)
    (happlies : Action.Applies middle last) : first.Serves peer request last := by
  have hterm : last.server.term = middle.server.term :=
    congrArg Durable.term happlies.1.durable_eq
  unfold Serves
  rw [messages_eq_of_postings happlies.2, hterm]
  exact h

end Turn

namespace Action

open Turn

variable {first turn : Turn σ} {peer : ServerId} {request : Message}

/-! ## Entries -/

/-- An entry is taken over silently. -/
theorem takeEntry_silent {entry : PlacedEntry} :
    (takeEntry entry).Ends (fun _ last => turn.Silent last) (fun _ => True) turn := by
  unfold takeEntry
  simp only [ends_bind, ends_server, ends_modifyServer]
  split
  next => exact ⟨rfl, rfl, rfl⟩
  next => trivial

/-- What a request carries is accepted silently. -/
theorem acceptAppend_silent {append : AppendRequest} :
    (acceptAppend append).Ends (fun _ last => turn.Silent last) (fun _ => True) turn := by
  unfold acceptAppend followCommit
  split
  next =>
    simp only [ends_bind, ends_modifyProgress, ends_pure]
    exact ⟨rfl, rfl, rfl⟩
  next entry _ =>
    simp only [ends_bind, ends_server]
    refine ends_ite (fun _ => silent_refl turn) (fun _ => ?_)
    rw [ends_bind]
    apply takeEntry_silent.mono
    intro _ last hlast
    simp only [ends_bind, ends_modifyProgress, ends_pure]
    exact ⟨hlast.role_eq, hlast.term_eq, hlast.postings_eq⟩

theorem dropConflict_silent {key : LogKey} :
    (dropConflict key : Action σ Unit).Ends (fun _ last => turn.Silent last) (fun _ => True)
      turn := by
  unfold dropConflict
  simp only [ends_bind, ends_server]
  refine ends_ite (fun _ => ?_) (fun _ => silent_refl turn)
  refine ends_changeDurable (fun durable hchange => ?_) trivial
  obtain ⟨shorter, _, rfl⟩ := map_eq_ok.mp (mapError_eq_ok.mp hchange)
  exact ⟨rfl, rfl, rfl⟩

theorem refuseAppend_replies {append : AppendRequest} {failed : Turn σ → Prop}
    (h : first.Silent turn) :
    (refuseAppend peer).Ends
      (fun _ last => ∃ reply, first.Replies peer (.appendRequest append) reply last)
      failed turn :=
  ends_refuseAppend peer |>.mpr ⟨_, h.replies rfl rfl rfl⟩

/-- An append request gets one reply. -/
theorem answerAppendRequest_replies {append : AppendRequest} :
    (answerAppendRequest peer append).Ends
      (fun _ last => ∃ reply, turn.Replies peer (.appendRequest append) reply last)
      (fun _ => True) turn := by
  unfold answerAppendRequest
  rw [ends_bind, ends_server]
  refine ends_ite (fun _ => refuseAppend_replies (silent_refl turn)) (fun _ => ?_)
  split
  next => exact refuseAppend_replies (silent_refl turn)
  next =>
    rw [ends_bind]
    exact dropConflict_silent.mono fun _ last hlast => refuseAppend_replies hlast
  next =>
    rw [ends_bind]
    apply acceptAppend_silent.mono
    intro accepted last hlast
    apply ends_ite
    · exact fun _ => (ends_answerAppend _ _ _).mpr ⟨_, hlast.replies rfl rfl rfl⟩
    · exact fun _ => refuseAppend_replies hlast

variable [LawfulStore σ]

/-! ## Votes -/

/-- A vote request gets one reply, which tells whether the vote is granted. -/
theorem answerVoteRequest_replies {vote : VoteRequest} (hcoherent : turn.server.durable.Coherent) :
    (answerVoteRequest peer vote).Ends
      (fun granted last =>
        turn.Replies peer (.voteRequest vote) (.voteResponse ⟨turn.server.term, granted⟩) last ∧
          (granted = true → last.server.durable.Coherent ∧ last.server.Grants vote) ∧
          (granted = true ↔ turn.server.Grants vote))
      (fun _ => True) turn := by
  have hsilent := silent_refl turn
  apply ends_answerVoteRequest
  · intro voted hgrants hvotes
    obtain ⟨hvoted, hagain⟩ := hvotes.grants_again hcoherent hgrants
    have hterm : voted.term = turn.server.term := hagain.1.symm.trans hgrants.1
    exact ⟨hsilent.replies rfl rfl hterm, fun _ => ⟨hvoted, hagain⟩, fun _ => hgrants,
      fun _ => rfl⟩
  · intro hrefused
    refine ⟨hsilent.replies rfl rfl rfl, ?_, ?_, fun hgrants => absurd hgrants hrefused⟩
    · exact fun hgranted => Bool.noConfusion hgranted
    · exact fun hgranted => Bool.noConfusion hgranted
  · exact fun _ _ _ => trivial

/-- Who does not follow steps down for the candidate that it votes for. -/
theorem grantVote_reacts {vote : VoteRequest} (hcoherent : turn.server.durable.Coherent)
    (hrole : ∀ leader, turn.server.role ≠ .follower leader) :
    (do if ← answerVoteRequest peer vote then return .follow else return .stay :
        Action σ RoleChange).Ends
      (fun change last => turn.Reacts peer (.voteRequest vote) last change)
      (fun _ => True) turn := by
  rw [ends_bind]
  apply (answerVoteRequest_replies hcoherent).mono
  rintro granted last ⟨hreplies, hgranted, hgrants⟩
  cases granted with
  | true =>
    obtain ⟨hvoted, hagain⟩ := hgranted rfl
    exact .granted rfl hvoted hagain hreplies ⟨hrole, vote, rfl, hgrants.mp rfl⟩
  | false =>
    refine .replied hreplies (Server.not_repliesTwice_of_refused fun hnow => ?_)
    cases hgrants.mpr hnow

/-! ## One look at a request -/

/-- A follower replies at once, and grants the vote that it can. -/
theorem followerEvent_replies (hcoherent : turn.server.durable.Coherent)
    (hrequest : request.kind.reply?.isSome) :
    (followerEvent (.received peer request)).Ends
      (fun change last => change = .stay ∧ ∃ reply, turn.Replies peer request reply last ∧
        ∀ vote, request = .voteRequest vote → turn.server.Grants vote →
          reply = .voteResponse ⟨turn.server.term, true⟩)
      (fun _ => True) turn := by
  unfold followerEvent
  simp only [ends_bind, ends_server]
  cases request with
  | appendRequest append =>
    dsimp only
    apply ends_ite
    · intro _
      simp only [ends_bind, ends_modifyTimer, ends_setRole, ends_pure]
      apply answerAppendRequest_replies.mono
      rintro _ last ⟨reply, hreplies⟩
      exact ⟨trivial, reply, hreplies.of_same rfl rfl, fun _ hvote => Message.noConfusion hvote⟩
    · intro _
      simp only [ends_bind, ends_pure]
      apply answerAppendRequest_replies.mono
      rintro _ last ⟨reply, hreplies⟩
      exact ⟨trivial, reply, hreplies, fun _ hvote => Message.noConfusion hvote⟩
  | voteRequest vote =>
    dsimp only
    rw [ends_bind]
    apply (answerVoteRequest_replies hcoherent).mono
    rintro granted last ⟨hreplies, _, hgrants⟩
    -- A vote that could be granted was granted, since the write did not fail.
    have hgiven : ∀ other, Message.voteRequest vote = .voteRequest other →
        turn.server.Grants other →
        Message.voteResponse ⟨turn.server.term, granted⟩ =
          .voteResponse ⟨turn.server.term, true⟩ := by
      rintro _ ⟨⟩ hgranted
      rw [hgrants.mpr hgranted]
    apply ends_ite
    · intro _
      simp only [ends_bind, ends_modifyTimer, ends_pure]
      exact ⟨trivial, _, hreplies.silent_after ⟨rfl, rfl, rfl⟩, hgiven⟩
    · exact fun _ => ⟨rfl, _, hreplies, hgiven⟩
  | voteResponse response => cases hrequest
  | appendResponse response => cases hrequest
  | timeoutNow target => cases hrequest

/-- A follower whose term is no older replies at once. -/
theorem handle_replies {leader : Option ServerId} (hrole : turn.server.role = .follower leader)
    (hterm : request.term ≤ turn.server.term) (hcoherent : turn.server.durable.Coherent)
    (hrequest : request.kind.reply?.isSome) :
    (handle (.received peer request)).Ends
      (fun change last => change = .stay ∧ ∃ reply, turn.Replies peer request reply last ∧
        ∀ vote, request = .voteRequest vote → turn.server.Grants vote →
          reply = .voteResponse ⟨turn.server.term, true⟩)
      (fun _ => True) turn := by
  apply ends_handle_of_current hterm
  unfold roleEvent
  rw [ends_bind, ends_server, hrole]
  exact followerEvent_replies hcoherent hrequest

/-- A candidate leaves the reply to a leader of its term to the follower that it becomes. -/
theorem candidateEvent_reacts {electionPending : Bool}
    (hrole : turn.server.role = .candidate electionPending)
    (hterm : request.term ≤ turn.server.term) (hcoherent : turn.server.durable.Coherent)
    (hrequest : request.kind.reply?.isSome) :
    (candidateEvent (.received peer request)).Ends
      (fun change last => turn.Reacts peer request last change)
      (fun _ => True) turn := by
  unfold candidateEvent
  rw [ends_bind, ends_server]
  cases request with
  | appendRequest append =>
    dsimp only
    apply ends_ite
    · intro _
      exact .deferred hcoherent hterm rfl Server.not_repliesTwice_of_append
    · intro _
      rw [ends_bind]
      apply (refuseAppend_replies (silent_refl turn)).mono
      rintro _ last ⟨reply, hreplies⟩
      exact .replied hreplies Server.not_repliesTwice_of_append
  | voteRequest vote => exact grantVote_reacts hcoherent (by simp [hrole])
  | voteResponse response => cases hrequest
  | appendResponse response => cases hrequest
  | timeoutNow target => cases hrequest

/-- A leader replies to a request, or follows and leaves the reply to the replay. -/
theorem leaderEvent_reacts {nextHeartbeat : Duration}
    (hrole : turn.server.role = .leader nextHeartbeat)
    (hcoherent : turn.server.durable.Coherent) (hrequest : request.kind.reply?.isSome) :
    (leaderEvent (.received peer request)).Ends
      (fun change last => turn.Reacts peer request last change)
      (fun _ => True) turn := by
  unfold leaderEvent
  rw [ends_bind, ends_server]
  cases request with
  | appendRequest append =>
    dsimp only
    rw [ends_bind]
    apply (refuseAppend_replies (silent_refl turn)).mono
    rintro _ last ⟨reply, hreplies⟩
    exact .replied hreplies Server.not_repliesTwice_of_append
  | voteRequest vote => exact grantVote_reacts hcoherent (by simp [hrole])
  | voteResponse response => cases hrequest
  | appendResponse response => cases hrequest
  | timeoutNow target => cases hrequest

/-- A server of any role reacts to a request, also to one of a newer term. -/
theorem handle_reacts (hcoherent : turn.server.durable.Coherent)
    (hrequest : request.kind.reply?.isSome) :
    (handle (.received peer request)).Ends
      (fun change last => turn.Reacts peer request last change) (fun _ => True) turn := by
  by_cases hnewer : turn.server.term < request.term
  · refine ends_handle_of_newer hnewer (fun durable hmoved => ?_) fun _ _ => trivial
    obtain ⟨hstill, hterm, _⟩ := hcoherent.moveTo_ok hnewer hmoved
    exact .deferred hstill (Int.le_of_eq hterm.symm) rfl (Server.not_repliesTwice_of_newer hnewer)
  · have hterm := Int.not_lt.mp hnewer
    cases hrole : turn.server.role with
    | follower leader =>
      apply (handle_replies hrole hterm hcoherent hrequest).mono
      rintro _ last ⟨rfl, reply, hreplies, _⟩
      exact .replied hreplies (Server.not_repliesTwice_of_follower hrole)
    | candidate electionPending =>
      apply ends_handle_of_current hterm
      unfold roleEvent
      rw [ends_bind, ends_server, hrole]
      exact candidateEvent_reacts hrole hterm hcoherent hrequest
    | leader nextHeartbeat =>
      apply ends_handle_of_current hterm
      unfold roleEvent
      rw [ends_bind, ends_server, hrole]
      exact leaderEvent_reacts hrole hcoherent hrequest

/-! ## Both looks -/

/-- A server that becomes a follower handles the request as one, in the term that it is in. -/
theorem follow_replies (hcoherent : turn.server.durable.Coherent)
    (hterm : request.term ≤ turn.server.term) (hrequest : request.kind.reply?.isSome)
    (hserves : ∀ reply last, turn.Replies peer request reply last →
      (∀ vote, request = .voteRequest vote → turn.server.Grants vote →
        reply = .voteResponse ⟨turn.server.term, true⟩) → first.Serves peer request last) :
    (handle (.received peer request)).Ends
      (fun change last => change = .stay ∧ first.Serves peer request last) (fun _ => True)
      { turn with server := turn.server.stepDown turn.now } := by
  refine Ends.mono (handle_replies rfl hterm hcoherent hrequest) ?_
  rintro _ last ⟨rfl, reply, hreplies, hgrants⟩
  exact ⟨rfl, hserves reply last (hreplies.of_same rfl rfl) hgrants⟩

/-- A request is replied to once, or twice with the same vote. -/
theorem react_serves (hcoherent : turn.server.durable.Coherent)
    (hrequest : request.kind.reply?.isSome) :
    (react (.received peer request)).Ends (fun _ last => turn.Serves peer request last)
      (fun _ => True) turn := by
  apply ends_react
  apply (handle_reacts hcoherent hrequest).mono
  intro change middle hreacts
  cases hreacts with
  | @replied reply h honce =>
    refine .inl ⟨rfl, reply, h.kind_eq, h.reply_term.trans h.term_eq.symm, ?_, ?_⟩
    · exact fun _ => h.messages_eq
    · exact fun htwice => absurd htwice honce
  | deferred hstill hterm hsilent honce =>
    refine .inr ⟨rfl, follow_replies hstill hterm hrequest fun reply last h _ => ?_⟩
    refine ⟨reply, h.kind_eq, h.reply_term.trans h.term_eq.symm, fun _ => ?_, ?_⟩
    · rw [h.messages_eq, messages_eq_of_postings hsilent]
    · exact fun htwice => absurd htwice honce
  | @granted vote hrequested hstill hgrants hfirst htwice =>
    have hterm : request.term ≤ middle.server.term := by
      rw [hrequested]
      exact Int.le_of_eq hgrants.1
    refine .inr ⟨rfl, follow_replies hstill hterm hrequest fun reply last h hgiven => ?_⟩
    refine ⟨reply, h.kind_eq, h.reply_term.trans h.term_eq.symm, ?_, fun _ => ?_⟩
    · exact fun honce => absurd htwice honce
    · rw [h.messages_eq, hfirst.messages_eq, hgiven vote hrequested hgrants, hfirst.term_eq,
        List.append_assoc]
      rfl

/-- Only a write that fails can keep the server from replying. -/
theorem dispatch_serves {intake : View.Intake} (hcoherent : turn.server.Coherent)
    (hlegible : intake.Legible) (hreceived : intake.received peer request)
    (hrequest : request.kind.reply?.isSome) :
    (dispatch (.received peer request)).Ends (fun _ last => turn.Serves peer request last)
      (fun last => turn.Serves peer request last ∨ ¬ Store.Reliable turn.server.log.store)
      turn := by
  rw [dispatch_eq, ends_bind]
  apply ((react_serves hcoherent.durable hrequest).and
    (react_halts hcoherent hlegible hreceived)).imp
  · rintro _ last ⟨hserves, _⟩
    exact applyCommitted_applies.imp (fun _ _ hlast => hserves.applied hlast)
      fun _ hlast => .inl (hserves.applied hlast.1)
  · rintro last ⟨_, hhalts⟩
    refine .inr fun hreliable => ?_
    obtain ⟨⟨_, command, _, hevent, _⟩, _⟩ := hhalts.excused hreliable
    cases hevent

end Action

end Consensus
