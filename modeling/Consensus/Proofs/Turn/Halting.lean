import Consensus.Proofs.Log.Writes
import Consensus.Proofs.Turn.Submission

/-! # Halting

A server writes before it does anything that could be noticed. A call that halts over a write has
therefore said nothing and has committed and applied nothing. What it has written by then is
written for good, but a store that took one write takes the rest.
-/

namespace Consensus

variable {σ : Type} [Store σ]

namespace Turn

/-- Nothing was posted, committed or applied from `first` to `last`. -/
structure Quiet (first last : Turn σ) : Prop where
  postings_eq : last.postings = first.postings
  commitIndex_eq : last.server.commitIndex = first.server.commitIndex
  lastApplied_eq : last.server.progress.lastApplied = first.server.progress.lastApplied
  delivered_eq : last.server.delivered = first.server.delivered

/-- Whatever was written from `first` to `last` was taken, and the store is as reliable as it
was. -/
structure Wrote (first last : Turn σ) : Prop where
  reliable : Store.Reliable first.server.log.store → Store.Reliable last.server.log.store
  sealed : Store.Sealed first.server.log.store → last.server.durable = first.server.durable

/-- The turn has halted quietly. A sealed store holds what it held, and a reliable one does so
too, since only the excuse is a reason to halt then. -/
structure Halts (excuse : Prop) (first last : Turn σ) : Prop where
  quiet : first.Quiet last
  sealed : Store.Sealed first.server.log.store → last.server.durable = first.server.durable
  excused : Store.Reliable first.server.log.store →
    excuse ∧ last.server.durable = first.server.durable

variable {first middle last : Turn σ} {excuse wider : Prop}

omit [Store σ] in
theorem Quiet.refl (turn : Turn σ) : turn.Quiet turn := ⟨rfl, rfl, rfl, rfl⟩

omit [Store σ] in
theorem Quiet.trans (h : first.Quiet middle) (hnext : middle.Quiet last) : first.Quiet last :=
  ⟨hnext.postings_eq.trans h.postings_eq, hnext.commitIndex_eq.trans h.commitIndex_eq,
    hnext.lastApplied_eq.trans h.lastApplied_eq, hnext.delivered_eq.trans h.delivered_eq⟩

theorem wrote_of_durable (h : last.server.durable = first.server.durable) : first.Wrote last := by
  have hstore : last.server.log.store = first.server.log.store :=
    congrArg (fun durable => durable.log.store) h
  exact ⟨fun hreliable => hstore ▸ hreliable, fun _ => h⟩

/-- A sealed store stays sealed. -/
theorem Wrote.sealed_store (h : first.Wrote last) (hsealed : Store.Sealed first.server.log.store) :
    Store.Sealed last.server.log.store := by
  have hstore : last.server.log.store = first.server.log.store :=
    congrArg (fun durable => durable.log.store) (h.sealed hsealed)
  exact hstore ▸ hsealed

theorem Wrote.trans (h : first.Wrote middle) (hnext : middle.Wrote last) : first.Wrote last :=
  ⟨fun hreliable => hnext.reliable (h.reliable hreliable),
    fun hsealed => (hnext.sealed (h.sealed_store hsealed)).trans (h.sealed hsealed)⟩

/-- A quiet turn over an unreliable store has halted, if a sealed one holds what it held. -/
theorem halts_of_unreliable (hquiet : first.Quiet last)
    (hsealed : Store.Sealed first.server.log.store → last.server.durable = first.server.durable)
    (hunreliable : ¬ Store.Reliable first.server.log.store) : first.Halts excuse last :=
  ⟨hquiet, hsealed, fun hreliable => absurd hreliable hunreliable⟩

/-- What excuses a halt may be widened. -/
theorem Halts.imp (h : first.Halts excuse last) (himp : excuse → wider) :
    first.Halts wider last :=
  ⟨h.quiet, h.sealed, fun hreliable => (h.excused hreliable).imp_left himp⟩

/-- To halt without an excuse after having been quiet is to halt. -/
theorem Halts.after (h : middle.Halts False last) (hquiet : first.Quiet middle)
    (hwrote : first.Wrote middle) : first.Halts excuse last := by
  refine ⟨hquiet.trans h.quiet, fun hsealed => ?_, fun hreliable => ?_⟩
  · exact (h.sealed (hwrote.sealed_store hsealed)).trans (hwrote.sealed hsealed)
  · exact (h.excused (hwrote.reliable hreliable)).1.elim

/-- What changes nothing that is durable or noticed in front of a halt makes no difference. -/
theorem Halts.behind (h : middle.Halts excuse last) (hquiet : first.Quiet middle)
    (hdurable : middle.server.durable = first.server.durable) : first.Halts excuse last := by
  have hstore : middle.server.log.store = first.server.log.store :=
    congrArg (fun durable => durable.log.store) hdurable
  refine ⟨hquiet.trans h.quiet, fun hsealed => ?_, fun hreliable => ?_⟩
  · exact (h.sealed (hstore ▸ hsealed)).trans hdurable
  · exact (h.excused (hstore ▸ hreliable)).imp_right fun hlast => hlast.trans hdurable

end Turn

/-! ## Excuses -/

/-- The event is a command submitted to a leader, and too long to be written. -/
def Event.Overlong (event : Event) (server : Server σ) : Prop :=
  server.role.isLeader = true ∧
    ∃ command cause, event = .submitted command ∧ command.encode = .error cause

/-- The server owes an election in a term behind the last one. -/
def Server.Exhausted (server : Server σ) : Prop :=
  server.role = .candidate true ∧ maxTerm ≤ server.term

/-! ## Votes and entries -/

namespace Action

open Turn

variable {turn : Turn σ} {peer : ServerId}

/-- Who has granted a vote has given one by then. -/
theorem answerVoteRequest_halts {vote : VoteRequest} :
    (answerVoteRequest peer vote).Ends
      (fun granted last => turn.Wrote last ∧
        (granted = true → vote.term = last.server.term ∧ last.server.votedFor ≠ none))
      (turn.Halts False) turn := by
  apply ends_answerVoteRequest
  · rintro voted hgrants (⟨hvoted, rfl⟩ | ⟨_, durable, hvote, rfl⟩)
    · exact ⟨wrote_of_durable rfl, fun _ => ⟨hgrants.1, hvoted⟩⟩
    · refine ⟨⟨fun hreliable => ?_, fun hsealed => ?_⟩, fun _ => ?_⟩
      · exact (of_exists_ok (Durable.exists_record hreliable _ _) hvote :)
      · exact absurd hvote (Durable.record_ne_ok hsealed _ _ _)
      · obtain ⟨saved, _, rfl⟩ := map_eq_ok.mp hvote
        exact ⟨hgrants.1, by simp [Server.votedFor]⟩
  · exact fun _ => ⟨wrote_of_durable rfl, fun hgranted => Bool.noConfusion hgranted⟩
  · intro _ cause hfailed
    refine halts_of_unreliable (.refl turn) (fun _ => rfl) fun hreliable => ?_
    exact ne_error_of_exists_ok cause (Durable.exists_record hreliable _ _) hfailed

variable [LawfulStore σ]

/-- An entry that leaves no gap is taken over unless the store fails. -/
theorem takeEntry_halts {entry : PlacedEntry} (hcoherent : turn.server.log.Coherent)
    (hnonneg : 0 ≤ entry.index) (hindex : entry.index ≤ turn.server.log.entries.length)
    (hdecodes : Command.Decodes entry.command) :
    (takeEntry entry).Ends (fun _ last => turn.Wrote last) (turn.Halts False) turn := by
  have haccept := fun hreliable =>
    Log.exists_accept hcoherent hreliable hnonneg hindex hdecodes.length_lt
  have hsealed : Store.Sealed turn.server.log.store →
      { turn.server.durable with log := (turn.server.log.accept entry).1 } =
        turn.server.durable := by
    intro hsealed
    rw [Log.accept_eq_of_sealed hsealed entry]
    rfl
  unfold takeEntry
  simp only [ends_bind, ends_server, ends_modifyServer]
  split
  next =>
    refine ⟨fun hreliable => ?_, hsealed⟩
    obtain ⟨_, _, htaken⟩ := haccept hreliable
    exact htaken
  next cause hfailed =>
    refine halts_of_unreliable ⟨rfl, rfl, rfl, rfl⟩ hsealed fun hreliable => ?_
    obtain ⟨_, htaken, _⟩ := haccept hreliable
    cases hfailed.symm.trans htaken

/-- An entry that a log takes over belongs in it or right behind it. -/
theorem acceptAppend_halts {append : AppendRequest} (hcoherent : turn.server.log.Coherent)
    (hprev : Entries.Holds turn.server.log.entries append.prevLogEntry)
    (hcarried : Message.Carried (.appendRequest append)) :
    (acceptAppend append).Ends (fun _ last => turn.Wrote last) (turn.Halts False) turn := by
  unfold acceptAppend followCommit
  split
  next =>
    simp only [ends_bind, ends_modifyProgress, ends_pure]
    exact wrote_of_durable rfl
  next entry hentry =>
    simp only [ends_bind, ends_server]
    refine ends_ite (fun _ => wrote_of_durable rfl) (fun haccepts => ?_)
    have hplace : entry.index = append.prevLogEntry.index + 1 := by
      by_contra hmisplaced
      exact haccepts (.inl hmisplaced)
    have hlow : -1 ≤ append.prevLogEntry.index := Entries.Holds.index_ge hprev
    have hhigh := Entries.Holds.index_lt hprev
    rw [ends_bind]
    apply (takeEntry_halts hcoherent (by lia) (by lia) (hcarried append entry rfl hentry)).mono
    intro _ last hlast
    simp only [ends_bind, ends_modifyProgress, ends_pure]
    exact ⟨hlast.reliable, hlast.sealed⟩

omit [LawfulStore σ] in
theorem dropConflict_halts {key : LogKey} (hnonneg : 0 ≤ key.index) :
    (dropConflict key : Action σ Unit).Ends (fun _ last => turn.Wrote last) (turn.Halts False)
      turn := by
  unfold dropConflict
  simp only [ends_bind, ends_server]
  refine ends_ite (fun _ => ?_) (fun _ => wrote_of_durable rfl)
  apply ends_changeDurable_cases
  · intro durable hchange
    obtain ⟨shorter, htruncate, rfl⟩ := map_eq_ok.mp (mapError_eq_ok.mp hchange)
    refine ⟨fun hreliable => ?_, fun hsealed => ?_⟩
    · exact (of_exists_ok (Log.exists_truncate hreliable hnonneg) htruncate :)
    · rw [Log.truncate_eq_of_sealed hsealed htruncate]
      rfl
  · intro failure hfailed
    refine halts_of_unreliable (.refl turn) (fun _ => rfl) fun hreliable => ?_
    obtain ⟨cause, htruncate⟩ := exists_of_mapError_eq_error hfailed
    exact ne_error_of_exists_ok cause (Log.exists_truncate hreliable hnonneg)
      (map_eq_error.mp htruncate)

/-- An append request that can be read is answered unless the store fails. -/
theorem answerAppendRequest_halts {append : AppendRequest}
    (hcoherent : turn.server.log.Coherent) (hcarried : Message.Carried (.appendRequest append)) :
    (answerAppendRequest peer append).Ends (fun _ last => turn.Wrote last) (turn.Halts False)
      turn := by
  unfold answerAppendRequest
  rw [ends_bind, ends_server]
  refine ends_ite (fun _ => wrote_of_durable rfl) (fun _ => ?_)
  split
  next => exact wrote_of_durable rfl
  next hstanding =>
    obtain ⟨_, hread, _⟩ := Log.conflicts_of_standing hstanding
    rw [ends_bind]
    apply (dropConflict_halts (Entries.bounds_of_read? hread).1).mono
    exact fun _ last hlast => ⟨hlast.reliable, hlast.sealed⟩
  next hstanding =>
    rw [ends_bind]
    apply (acceptAppend_halts hcoherent (Log.standing_eq_held.mp hstanding) hcarried).mono
    intro accepted last hlast
    apply ends_ite
    · exact fun _ => ⟨hlast.reliable, hlast.sealed⟩
    · exact fun _ => ⟨hlast.reliable, hlast.sealed⟩

/-! ## Commands and elections -/

omit [LawfulStore σ] in
/-- A calm action adds nothing to what was written. -/
theorem Calm.wrote {action : Action σ Unit} {first : Turn σ} {failed : Turn σ → Prop}
    (h : Calm action) (hwrote : first.Wrote turn) :
    action.Ends (fun _ last => first.Wrote last) failed turn :=
  (h turn).imp (fun _ _ hlast => hwrote.trans (wrote_of_durable hlast.1))
    fun _ hnever => hnever.elim

omit [LawfulStore σ] in
/-- A command is appended unless it is too long or the store fails. -/
theorem appendCommand_halts {command : Command} :
    (appendCommand command).Ends (fun _ last => turn.Wrote last)
      (turn.Halts (∃ cause, command.encode = .error cause)) turn := by
  unfold appendCommand
  simp only [ends_bind, ends_server]
  split
  next cause hencode => exact ⟨.refl turn, fun _ => rfl, fun _ => ⟨⟨cause, hencode⟩, rfl⟩⟩
  next bytes hencode =>
    have hpush : Store.Reliable turn.server.log.store →
        ∃ pushed, turn.server.log.push turn.server.term bytes = .ok pushed ∧
          Store.Reliable pushed.1.store :=
      fun hreliable => Log.exists_push hreliable _ (Command.decodes_of_encode hencode).length_lt
    rw [ends_bind]
    apply ends_changeDurable_cases
    · intro durable hchange
      obtain ⟨pushed, hpushed, rfl⟩ := map_eq_ok.mp (mapError_eq_ok.mp hchange)
      have hwrote : turn.Wrote { turn with server := { turn.server with
          durable := { turn.server.durable with log := pushed.1 } } } := by
        refine ⟨fun hreliable => ?_, fun hsealed => ?_⟩
        · exact (of_exists_ok (hpush hreliable) hpushed :)
        · exact absurd hpushed (Log.push_ne_ok hsealed _ _ _)
      exact (offerCommand_calm turn.server).wrote hwrote
    · intro failure hfailed
      refine halts_of_unreliable (.refl turn) (fun _ => rfl) fun hreliable => ?_
      obtain ⟨cause, herror⟩ := exists_of_mapError_eq_error hfailed
      exact ne_error_of_exists_ok cause (hpush hreliable) (map_eq_error.mp herror)

omit [LawfulStore σ] in
theorem takeAppendResponse_calm (response : AppendResponse) :
    Calm (takeAppendResponse response : Action σ Unit) := by
  intro turn
  unfold takeAppendResponse
  rw [ends_bind, ends_server]
  split
  next => exact ⟨rfl, rfl⟩
  next cursor _ =>
    apply ends_ite
    · intro _
      unfold followerMatched
      rw [ends_bind, ends_server, ends_bind, ends_modifyProgress]
      refine raiseCommit_calm.then (fun middle => ?_) _
      exact ends_ite (fun _ => sendAppend_calm _ middle) (fun _ => ⟨rfl, rfl⟩)
    · intro _
      unfold followerRefused
      rw [ends_bind, ends_modifyProgress]
      exact sendAppend_calm _ _

omit [LawfulStore σ] in
/-- A server that has come to the last term cannot stand for election. -/
theorem startElection_halts :
    startElection.Ends (fun _ last => turn.Wrote last)
      (turn.Halts (maxTerm ≤ turn.server.term)) turn := by
  unfold startElection
  simp only [ends_bind, ends_server, ends_modifyProgress, ends_modifyTimer]
  apply ends_changeDurable_cases
  · intro durable hopen
    unfold Durable.openElection at hopen
    split at hopen
    next => cases hopen
    next =>
      have hrecord := mapError_eq_ok.mp hopen
      refine ends_forM turn.Wrote (fun peer _ last hlast => ⟨hlast.reliable, hlast.sealed⟩) ?_
      refine ⟨fun hreliable => ?_, fun hsealed => ?_⟩
      · exact (of_exists_ok (Durable.exists_record hreliable _ _) hrecord :)
      · exact absurd hrecord (Durable.record_ne_ok hsealed _ _ _)
  · intro failure hfailed
    unfold Durable.openElection at hfailed
    split at hfailed
    next hlast => exact ⟨.refl turn, fun _ => rfl, fun _ => ⟨hlast, rfl⟩⟩
    next =>
      refine halts_of_unreliable (.refl turn) (fun _ => rfl) fun hreliable => ?_
      obtain ⟨cause, hrecord⟩ := exists_of_mapError_eq_error hfailed
      exact ne_error_of_exists_ok cause (Durable.exists_record hreliable _ _) hrecord

omit [LawfulStore σ] in
theorem sendHeartbeats_wrote {first : Turn σ} {failed : Turn σ → Prop} (nextHeartbeat : Duration)
    (h : first.Wrote turn) :
    (sendHeartbeats nextHeartbeat).Ends (fun _ last => first.Wrote last) failed turn := by
  unfold sendHeartbeats
  rw [ends_bind, ends_now]
  refine ends_ite (fun _ => ?_) (fun _ => h)
  simp only [ends_bind, ends_server, ends_setRole]
  exact (forM_calm sendAppend_calm).wrote ⟨h.reliable, h.sealed⟩

omit [LawfulStore σ] in
/-- The duties of a role are done unless the terms run out or the store fails. -/
theorem duties_halts :
    duties.Ends (fun _ last => turn.Wrote last) (turn.Halts turn.server.Exhausted) turn := by
  unfold duties
  rw [ends_bind, ends_server]
  split
  next => exact wrote_of_durable rfl
  next electionPending hrole =>
    unfold campaign
    refine ends_ite (fun hpending => ?_) (fun _ => wrote_of_durable rfl)
    simp only [ends_bind, ends_setRole]
    apply startElection_halts.imp
    · intro _ last hlast
      have hwrote : turn.Wrote last := ⟨hlast.reliable, hlast.sealed⟩
      rw [ends_server]
      refine ends_ite (fun _ => ?_) (fun _ => hwrote)
      unfold becomeLeader
      simp only [ends_bind, ends_server, ends_now, ends_setRole, ends_modifyTimer,
        ends_modifyProgress]
      exact sendHeartbeats_wrote _ ⟨hwrote.reliable, hwrote.sealed⟩
    · intro last hlast
      have hhalts : turn.Halts (maxTerm ≤ turn.server.term) last :=
        hlast.behind ⟨rfl, rfl, rfl, rfl⟩ rfl
      exact hhalts.imp fun hterm => ⟨by rw [hrole, hpending], hterm⟩
  next => exact sendHeartbeats_wrote _ (wrote_of_durable rfl)

end Action

/-! ## Events -/

/-- The event asks for a vote in the server's term, in which the server has voted. -/
def Server.VotedOn (server : Server σ) (event : Event) : Prop :=
  ∃ sender vote, event = .received sender (.voteRequest vote) ∧ vote.term = server.term ∧
    server.votedFor ≠ none

/-- Whoever is to handle the event once more as a follower has not done anything about it, or has
voted on it. -/
structure Turn.Defers (event : Event) (change : RoleChange) (first last : Turn σ) : Prop where
  wrote : first.Wrote last
  again : change = .follow → first.Quiet last ∨ last.server.VotedOn event

namespace Action

open Turn

variable [LawfulStore σ] {turn : Turn σ} {event : Event}

omit [LawfulStore σ] in
theorem defers_of_ne {change : RoleChange} {first : Turn σ} (hwrote : first.Wrote turn)
    (hchange : change ≠ .follow) : first.Defers event change turn :=
  ⟨hwrote, fun hfollow => absurd hfollow hchange⟩

omit [LawfulStore σ] in
/-- A vote is granted or refused unless the store fails. -/
theorem grantVote_halts {sender : ServerId} {vote : VoteRequest}
    (hevent : event = .received sender (.voteRequest vote)) :
    (do if ← answerVoteRequest sender vote then return .follow else return .stay :
        Action σ RoleChange).Ends
      (fun change last => turn.Defers event change last) (turn.Halts False) turn := by
  rw [ends_bind]
  apply answerVoteRequest_halts.mono
  rintro granted last ⟨hwrote, hvoted⟩
  apply ends_ite
  · intro hgranted
    exact ⟨hwrote, fun _ => .inr ⟨sender, vote, hevent, hvoted hgranted⟩⟩
  · exact fun _ => defers_of_ne hwrote (by decide)

/-- A follower handles an event without asking for a replay, unless its store fails. -/
theorem followerEvent_halts (hcoherent : turn.server.log.Coherent)
    (hcarried : ∀ sender message, event = .received sender message → message.Carried) :
    (followerEvent event).Ends (fun change last => turn.Wrote last ∧ change ≠ .follow)
      (turn.Halts False) turn := by
  have hnothing : turn.Wrote turn := wrote_of_durable rfl
  unfold followerEvent
  rw [ends_bind, ends_server]
  cases event with
  | timerRanOut => exact ⟨hnothing, by decide⟩
  | submitted command => exact ⟨hnothing, by decide⟩
  | received sender message =>
    cases message with
    | appendRequest append =>
      have hanswered := hcarried sender _ rfl
      dsimp only
      apply ends_ite
      · intro _
        simp only [ends_bind, ends_modifyTimer, ends_setRole]
        refine Ends.imp (answerAppendRequest_halts ?_ hanswered) ?_ ?_
        · exact hcoherent
        · exact fun _ last hlast => ⟨⟨hlast.reliable, hlast.sealed⟩, by decide⟩
        · exact fun last hlast => hlast.behind ⟨rfl, rfl, rfl, rfl⟩ rfl
      · intro _
        rw [ends_bind]
        apply (answerAppendRequest_halts hcoherent hanswered).mono
        exact fun _ last hlast => ⟨hlast, by decide⟩
    | voteRequest vote =>
      simp only [ends_bind]
      apply answerVoteRequest_halts.mono
      rintro granted last ⟨hwrote, _⟩
      apply ends_ite
      · exact fun _ => ⟨⟨hwrote.reliable, hwrote.sealed⟩, by decide⟩
      · exact fun _ => ⟨hwrote, by decide⟩
    | timeoutNow request =>
      apply ends_ite
      · exact fun _ => ⟨wrote_of_durable rfl, by decide⟩
      · exact fun _ => ⟨hnothing, by decide⟩
    | voteResponse response => exact ⟨hnothing, by decide⟩
    | appendResponse response => exact ⟨hnothing, by decide⟩

omit [LawfulStore σ] in
theorem countVote_wrote {sender : ServerId} {response : VoteResponse} {failed : Turn σ → Prop} :
    (countVote sender response).Ends (fun _ last => turn.Wrote last) failed turn :=
  ends_countVote (fun _ _ _ => wrote_of_durable rfl) (wrote_of_durable rfl)

omit [LawfulStore σ] in
/-- A candidate handles an event or defers it to its replay, unless its store fails. -/
theorem candidateEvent_halts :
    (candidateEvent event).Ends (fun change last => turn.Defers event change last)
      (turn.Halts False) turn := by
  have hnothing : turn.Wrote turn := wrote_of_durable rfl
  unfold candidateEvent
  rw [ends_bind, ends_server]
  cases event with
  | timerRanOut => exact defers_of_ne (wrote_of_durable rfl) (by decide)
  | submitted command => exact defers_of_ne hnothing (by decide)
  | received sender message =>
    cases message with
    | appendRequest append =>
      apply ends_ite
      · exact fun _ => ⟨hnothing, fun _ => .inl (.refl turn)⟩
      · exact fun _ => defers_of_ne (wrote_of_durable rfl) (by decide)
    | voteRequest vote => exact grantVote_halts rfl
    | voteResponse response =>
      rw [ends_bind]
      apply countVote_wrote.mono
      intro _ last hwrote
      rw [ends_bind, ends_server]
      apply ends_ite
      · exact fun _ => defers_of_ne hwrote (by decide)
      · exact fun _ => defers_of_ne hwrote (by decide)
    | appendResponse response => exact defers_of_ne hnothing (by decide)
    | timeoutNow request => exact defers_of_ne hnothing (by decide)

omit [LawfulStore σ] in
/-- A leader does so unless its store fails or a command is too long. -/
theorem leaderEvent_halts (hleads : turn.server.role.isLeader = true) :
    (leaderEvent event).Ends (fun change last => turn.Defers event change last)
      (turn.Halts (event.Overlong turn.server)) turn := by
  have hnothing : turn.Wrote turn := wrote_of_durable rfl
  unfold leaderEvent
  rw [ends_bind, ends_server]
  cases event with
  | timerRanOut => exact defers_of_ne (wrote_of_durable rfl) (by decide)
  | submitted command =>
    rw [ends_bind]
    apply appendCommand_halts.imp
    · exact fun _ last hwrote => defers_of_ne hwrote (by decide)
    · intro last hlast
      exact hlast.imp fun ⟨cause, hencode⟩ => ⟨hleads, command, cause, rfl, hencode⟩
  | received sender message =>
    cases message with
    | appendRequest append => exact defers_of_ne (wrote_of_durable rfl) (by decide)
    | appendResponse response =>
      apply ends_ite
      · intro _
        rw [ends_bind]
        apply ((takeAppendResponse_calm response).wrote hnothing).mono
        exact fun _ last hwrote => defers_of_ne hwrote (by decide)
      · exact fun _ => defers_of_ne hnothing (by decide)
    | voteRequest vote =>
      exact (grantVote_halts rfl).imp (fun _ _ hlast => hlast) fun _ hlast => hlast.imp False.elim
    | voteResponse response =>
      rw [ends_bind]
      apply countVote_wrote.mono
      exact fun _ last hwrote => defers_of_ne hwrote (by decide)
    | timeoutNow request => exact defers_of_ne hnothing (by decide)

theorem roleEvent_halts (hcoherent : turn.server.log.Coherent)
    (hcarried : ∀ sender message, event = .received sender message → message.Carried) :
    (roleEvent event).Ends (fun change last => turn.Defers event change last)
      (turn.Halts (event.Overlong turn.server)) turn := by
  unfold roleEvent
  rw [ends_bind, ends_server]
  split
  next =>
    apply (followerEvent_halts hcoherent hcarried).imp
    · exact fun change last hlast => defers_of_ne hlast.1 hlast.2
    · exact fun last hlast => hlast.imp False.elim
  next =>
    exact candidateEvent_halts.imp (fun _ _ hlast => hlast) fun _ hlast => hlast.imp False.elim
  next hrole => exact leaderEvent_halts (by rw [hrole]; rfl)

/-- A server of any role halts quietly, over its store or an overlong command, whatever the term. -/
theorem handle_halts (hcoherent : turn.server.log.Coherent)
    (hcarried : ∀ sender message, event = .received sender message → message.Carried) :
    (handle event).Ends (fun change last => turn.Defers event change last)
      (turn.Halts (event.Overlong turn.server)) turn := by
  have hrole := roleEvent_halts hcoherent hcarried
  cases event with
  | timerRanOut => exact hrole
  | submitted command => exact hrole
  | received sender message =>
    by_cases hnewer : turn.server.term < message.term
    · apply ends_handle_of_newer hnewer
      · intro durable hmoved
        refine ⟨⟨fun hreliable => ?_, fun hsealed => ?_⟩, fun _ => .inl ⟨rfl, rfl, rfl, rfl⟩⟩
        · exact (of_exists_ok (Durable.exists_moveTo hreliable message.term) hmoved :)
        · exact Durable.moveTo_eq_of_sealed hsealed hmoved
      · intro cause hfailed
        refine halts_of_unreliable (.refl turn) (fun _ => rfl) fun hreliable => ?_
        exact ne_error_of_exists_ok cause (Durable.exists_moveTo hreliable _) hfailed
    · exact ends_handle_of_current (Int.not_lt.mp hnewer) hrole

omit [LawfulStore σ] in
/-- A vote that has been given is not written again. -/
theorem handle_of_voted {leader : Option ServerId} (hrole : turn.server.role = .follower leader)
    (hvoted : turn.server.VotedOn event) :
    (handle event).Ends (fun _ last => turn.Wrote last) (fun _ => False) turn := by
  obtain ⟨sender, vote, rfl, hterm, hfree⟩ := hvoted
  have hcurrent : (Message.voteRequest vote).term ≤ turn.server.term := Int.le_of_eq hterm
  apply ends_handle_of_current hcurrent
  unfold roleEvent followerEvent
  simp only [ends_bind, ends_server, hrole]
  apply ends_answerVoteRequest
  · rintro voted _ (⟨_, rfl⟩ | ⟨hnone, _⟩)
    · exact ends_ite (fun _ => wrote_of_durable rfl) (fun _ => wrote_of_durable rfl)
    · exact absurd hnone hfree
  · intro _
    exact ends_ite (fun _ => wrote_of_durable rfl) (fun _ => wrote_of_durable rfl)
  · exact fun hnone => absurd hnone hfree

/-- A follower that looks at an event again halts before anything was done about it. Behind a vote
that has been given there is nothing left to write. -/
theorem handle_again_halts {leader : Option ServerId} {first : Turn σ} {excuse : Prop}
    (hrole : turn.server.role = .follower leader) (hcoherent : turn.server.log.Coherent)
    (hcarried : ∀ sender message, event = .received sender message → message.Carried)
    (hwrote : first.Wrote turn) (hagain : first.Quiet turn ∨ turn.server.VotedOn event) :
    (handle event).Ends (fun _ last => first.Wrote last) (first.Halts excuse) turn := by
  rcases hagain with hquiet | hvoted
  · apply (handle_halts hcoherent hcarried).imp
    · exact fun _ last hlast => hwrote.trans hlast.wrote
    · intro last hlast
      have hexcused : ¬ event.Overlong turn.server := by
        rintro ⟨hleads, _⟩
        rw [hrole] at hleads
        cases hleads
      exact (hlast.imp hexcused).after hquiet hwrote
  · apply (handle_of_voted hrole hvoted).imp
    · exact fun _ last hlast => hwrote.trans hlast
    · exact fun _ hnever => hnever.elim

omit [LawfulStore σ] in
theorem enter_wrote {change : RoleChange} {first : Turn σ} {failed : Turn σ → Prop}
    (h : first.Wrote turn) : (enter change).Ends (fun _ last => first.Wrote last) failed turn := by
  cases change with
  | stay => exact h
  | follow => exact ⟨h.reliable, h.sealed⟩
  | campaign => exact ⟨h.reliable, h.sealed⟩
  | lead => exact ⟨h.reliable, h.sealed⟩

/-- A server halts over an event before it has done anything about it. -/
theorem react_halts {intake : View.Intake} (hcoherent : turn.server.Coherent)
    (hlegible : intake.Legible) (hgiven : event.Given intake turn.server) :
    (react event).Ends (fun _ last => turn.Wrote last) (turn.Halts (event.Overlong turn.server))
      turn := by
  have hcarried : ∀ sender message, event = .received sender message → message.Carried := by
    rintro sender message rfl
    exact hlegible.received sender message hgiven
  unfold react
  simp only [ends_bind]
  apply ((handle_halts hcoherent.durable.log hcarried).and
    (handle_ends (.start hcoherent) hgiven)).imp
  · rintro change middle ⟨⟨hwrote, hagain⟩, hcompletes⟩
    by_cases hfollow : change = .follow
    · obtain rfl := hfollow
      have hentered : Turn.Trace intake turn
          { middle with server := middle.server.stepDown middle.now } :=
        ends_becomeFollower.mp hcompletes.enters
      refine ends_becomeFollower.mpr ?_
      rw [if_pos rfl, ends_bind]
      refine Ends.mono (handle_again_halts rfl hentered.coherent.durable.log hcarried
        ⟨hwrote.reliable, hwrote.sealed⟩ ?_) fun _ _ hlast => enter_wrote hlast
      exact (hagain rfl).imp_left fun h =>
        ⟨h.postings_eq, h.commitIndex_eq, h.lastApplied_eq, h.delivered_eq⟩
    · rw [if_neg hfollow]
      exact enter_wrote hwrote
  · exact fun last hlast => hlast.1

end Action

end Consensus
