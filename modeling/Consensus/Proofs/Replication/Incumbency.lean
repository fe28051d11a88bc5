import Consensus.Proofs.Replication.Reckoning
import Consensus.Proofs.Turn.Replies

/-! # How a leadership begins and ends

A leader steps down for a newer term, or by granting its vote to a candidate of its own term. A
server begins to lead without knowing anything of its followers, and commits nothing by that.
-/

namespace Consensus

variable {σ : Type} [Store σ]

theorem Role.exists_heartbeat {role : Role} (hleads : role.isLeader = true) :
    ∃ nextHeartbeat, role = .leader nextHeartbeat := by
  cases role with
  | follower leader => cases hleads
  | candidate electionPending => cases hleads
  | leader nextHeartbeat => exact ⟨nextHeartbeat, rfl⟩

/-- A newer term that is moved to is the term then. -/
theorem Durable.term_of_moveTo {durable moved : Durable σ} {term : Term}
    (hnewer : durable.term < term) (hmoved : durable.moveTo term = .ok moved) :
    moved.term = term := by
  rw [moveTo, if_neg (Int.not_le.mpr hnewer)] at hmoved
  obtain ⟨store, _, rfl⟩ := map_eq_ok.mp hmoved
  rfl

/-! ## Stepping down -/

/-- The server remains in its term, and does not begin to lead. -/
structure Server.Remains (earlier later : Server σ) : Prop where
  term_eq : later.term = earlier.term
  led : later.role.isLeader = true → earlier.role.isLeader = true

instance : IsPreorder (Server σ) Server.Remains where
  refl _ := ⟨rfl, fun hleads => hleads⟩
  trans _ _ _ h hnext :=
    ⟨hnext.term_eq.trans h.term_eq, fun hleads => h.led (hnext.led hleads)⟩

theorem Server.remains_tolerates :
    Server.Tolerates (Server.Remains : Server σ → Server σ → Prop) where
  timer _ _ := ⟨rfl, fun hleads => hleads⟩
  follow _ _ := ⟨rfl, fun hleads => Bool.noConfusion hleads⟩
  vote hvote := by
    obtain ⟨store, _, rfl⟩ := map_eq_ok.mp hvote
    exact ⟨rfl, fun hleads => hleads⟩
  log _ _ := ⟨rfl, fun hleads => hleads⟩
  commit _ _ := ⟨rfl, fun hleads => hleads⟩

/-- The turn has come from `first` to `last` in one term, and the server does not lead in the
end. What it has posted it has posted. -/
structure Turn.Subsides (first last : Turn σ) : Prop where
  follows : last.server.role.isLeader = false
  term_eq : last.server.term = first.server.term
  posted : ∀ message ∈ first.messages, message ∈ last.messages

/-- In the end the server does not lead, in the term that it was in, and has sent its vote. -/
structure Turn.Concedes (sender : ServerId) (first last : Turn σ) : Prop where
  follows : last.server.role.isLeader = false
  term_eq : last.server.term = first.server.term
  granted : (sender, .voteResponse ⟨first.server.term, true⟩) ∈ last.messages

/-- The turn has come from `first` to `last` without an end to the leadership, or the server
follows in the end: by its vote for a candidate of its term, or in a newer term. -/
inductive Turn.Fares (heard : Hearing) (first last : Turn σ) : Prop
  | goesOn (h : first.GoesOn heard last)
  | concedes {sender : ServerId} {request : VoteRequest}
      (hheard : heard sender (.voteRequest request)) (hgrants : first.server.Grants request)
      (h : first.Concedes sender last)
  | retires (hfollows : last.server.role.isLeader = false)
      (hnewer : first.server.term < last.server.term)

/-- What a leader makes of an event at the first look. -/
inductive Turn.Decides (heard : Hearing) (event : Event) (first last : Turn σ) : RoleChange → Prop
  | stay (h : first.GoesOn heard last) : Decides heard event first last .stay
  | concede {sender : ServerId} {request : VoteRequest}
      (hevent : event = .received sender (.voteRequest request))
      (hgrants : first.server.Grants request) (hterm : last.server.term = first.server.term)
      (hgranted : (sender, .voteResponse ⟨first.server.term, true⟩) ∈ last.messages) :
      Decides heard event first last .follow
  | retire {sender : ServerId} {message : Message} (hevent : event = .received sender message)
      (hnewer : first.server.term < message.term) (hterm : last.server.term = message.term) :
      Decides heard event first last .follow

namespace Action

open Server (Remains)

variable {first turn : Turn σ} {heard : Hearing}

theorem enter_remains {change : RoleChange} (hchange : change ≠ .lead)
    (h : first.Through Remains turn) :
    (enter change).Ends (fun _ last => first.Through Remains last) (first.Through Remains)
      turn := by
  cases change with
  | stay => exact h
  | follow => exact h.step rfl ⟨rfl, fun hleads => Bool.noConfusion hleads⟩
  | campaign => exact h.step rfl ⟨rfl, fun hleads => Bool.noConfusion hleads⟩
  | lead => exact absurd rfl hchange

theorem applyCommitted_remains : KeepsTo Remains (applyCommitted : Action σ Unit) := by
  have hstep : ∀ ⦃first turn last : Turn σ⦄, first.Through Remains turn → Applies turn last →
      first.Through Remains last := by
    rintro first turn last h ⟨happlied, hpostings⟩
    exact h.step hpostings ⟨congrArg Durable.term happlied.durable_eq,
      fun hleads => happlied.role_eq ▸ hleads⟩
  intro first turn h
  exact applyCommitted_applies.imp (fun _ _ hlast => hstep h hlast) fun _ hlast => hstep h hlast.1

/-- A follower remains one by a message that is not of a newer term. -/
theorem follower_remains {sender : ServerId} {message : Message}
    (hrole : turn.server.role = .follower none) (hterm : message.term ≤ turn.server.term) :
    (do enter (← handle (.received sender message))
        applyCommitted : Action σ Unit).Ends
      (fun _ last => turn.Through Remains last) (turn.Through Remains) turn := by
  have hhandle : (handle (.received sender message)).Ends
      (fun change last => change ≠ .lead ∧ turn.Through Remains last)
      (turn.Through Remains) turn := by
    apply ends_handle_of_current hterm
    unfold roleEvent
    rw [ends_bind, ends_server, hrole]
    exact followerEvent_keepsTo Server.remains_tolerates _ (Turn.through_refl turn)
  rw [ends_bind]
  apply hhandle.mono
  rintro change last ⟨hchange, hlast⟩
  rw [ends_bind]
  exact (enter_remains hchange hlast).mono fun _ _ hentered => applyCommitted_remains hentered

/-- A server that becomes a follower of a message's term remains one by the message. -/
theorem follow_subsides {sender : ServerId} {message : Message}
    (hterm : message.term ≤ turn.server.term) :
    (do enter .follow
        enter (← handle (.received sender message))
        applyCommitted : Action σ Unit).Ends (fun _ last => turn.Subsides last)
      turn.Subsides turn := by
  have hsubsides : ∀ last, ({ turn with server := turn.server.stepDown turn.now } :
      Turn σ).Through Remains last → turn.Subsides last := by
    intro last hlast
    refine ⟨?_, hlast.ends.term_eq, fun message hmessage => ?_⟩
    · exact Bool.eq_false_iff.mpr fun hleads => Bool.noConfusion (hlast.ends.led hleads)
    · obtain ⟨posted, hpostings, _⟩ := hlast
      unfold Turn.messages
      rw [hpostings, List.map_append]
      exact List.mem_append_left _ hmessage
  rw [ends_bind]
  unfold enter
  rw [ends_becomeFollower]
  exact Ends.imp (follower_remains rfl hterm) (fun _ last hlast => hsubsides last hlast) hsubsides

/-- Whoever leads handles an event as a leader does. -/
theorem ends_roleEvent_of_leads {done : RoleChange → Turn σ → Prop} {failed : Turn σ → Prop}
    {event : Event} (hleads : turn.server.role.isLeader = true)
    (hleader : (leaderEvent event).Ends done failed turn) :
    (roleEvent event).Ends done failed turn := by
  obtain ⟨nextHeartbeat, hrole⟩ := Role.exists_heartbeat hleads
  unfold roleEvent
  rw [ends_bind, ends_server, hrole]
  exact hleader

/-- Only a vote has a leader step down in its term. -/
theorem leaderEvent_decides {event : Event} (hleads : turn.server.role.isLeader = true)
    (hheard : ∀ sender message, event = .received sender message → heard sender message) :
    (leaderEvent event).Ends (fun change last => turn.Decides heard event last change)
      (turn.GoesOn heard) turn := by
  have hstart := Turn.Retains.refl turn
  have hgoes : turn.GoesOn heard turn := hstart.goesOn hleads
  unfold leaderEvent
  rw [ends_bind, ends_server]
  cases event with
  | timerRanOut =>
    rw [ends_bind, ends_modifyTimer]
    have hrestarted : turn.server.Retains { turn.server with
        timer := turn.server.timer.restart turn.now } := ⟨rfl, rfl, rfl, rfl, rfl, rfl, rfl⟩
    exact .stay ((hstart.step hrestarted).goesOn hleads)
  | submitted command =>
    rw [ends_bind]
    exact (appendCommand_goesOn command hleads).mono fun _ _ hlast => .stay hlast
  | received sender message =>
    cases message with
    | appendRequest request =>
      rw [ends_bind]
      exact (refuseAppend_retaining sender turn).imp (fun _ _ hlast => .stay (hlast.goesOn hleads))
        fun _ hnever => hnever.elim
    | appendResponse response =>
      dsimp only
      apply ends_ite
      · intro hterm
        rw [ends_bind]
        exact (takeAppendResponse_goesOn hleads (hheard _ _ rfl) hterm).mono
          fun _ _ hlast => .stay hlast
      · exact fun _ => .stay hgoes
    | voteRequest request =>
      rw [ends_bind]
      apply ends_answerVoteRequest
      · intro voted hgrants hvotes
        -- A vote that was given before is granted again without a write.
        have hterm : voted.term = turn.server.term := by
          obtain ⟨_, rfl⟩ | ⟨_, durable, hvote, rfl⟩ := hvotes
          · rfl
          · exact (Server.remains_tolerates.vote hvote).term_eq
        refine .concede rfl hgrants hterm ?_
        unfold Turn.messages
        rw [List.map_append]
        exact List.mem_append_right _ (List.mem_singleton_self _)
      · exact fun _ => .stay ((hstart.post sender (not_grantsVote_refuse _)).goesOn hleads)
      · exact fun _ _ _ => hgoes
    | voteResponse response =>
      rw [ends_bind]
      exact (countVote_retaining sender response turn).imp
        (fun _ _ hlast => .stay (hlast.goesOn hleads)) fun _ hnever => hnever.elim
    | timeoutNow request => exact .stay hgoes

theorem handle_decides {event : Event} (hleads : turn.server.role.isLeader = true)
    (hheard : ∀ sender message, event = .received sender message → heard sender message) :
    (handle event).Ends (fun change last => turn.Decides heard event last change)
      (turn.GoesOn heard) turn := by
  have hgoes : turn.GoesOn heard turn := (Turn.Retains.refl turn).goesOn hleads
  have hrole : (roleEvent event).Ends (fun change last => turn.Decides heard event last change)
      (turn.GoesOn heard) turn :=
    ends_roleEvent_of_leads hleads (leaderEvent_decides hleads hheard)
  cases event with
  | timerRanOut => exact hrole
  | submitted command => exact hrole
  | received sender message =>
    by_cases hnewer : turn.server.term < message.term
    · refine ends_handle_of_newer hnewer (fun durable hmoved => ?_) fun _ _ => hgoes
      exact .retire rfl hnewer (Durable.term_of_moveTo hnewer hmoved)
    · exact ends_handle_of_current (Int.not_lt.mp hnewer) hrole

/-- Whatever the event, a leader goes on or steps down. -/
theorem dispatch_fares {event : Event} (hleads : turn.server.role.isLeader = true)
    (hheard : ∀ sender message, event = .received sender message → heard sender message) :
    (dispatch event).Ends (fun _ last => turn.Fares heard last) (turn.Fares heard) turn := by
  unfold dispatch
  rw [ends_bind]
  apply (handle_decides hleads hheard).imp ?_ fun _ hlast => .goesOn hlast
  intro change middle hdecides
  rw [ends_bind]
  cases hdecides with
  | stay h =>
    exact applyCommitted_retains.imp (fun _ _ hlast => .goesOn (h.retains hlast))
      fun _ hlast => .goesOn (h.retains hlast)
  | @concede sender request hevent hgrants hterm hgranted =>
    rw [hevent]
    have hpresent : (Message.voteRequest request).term ≤ middle.server.term :=
      Int.le_of_eq (hgrants.1.trans hterm.symm)
    have hconcedes : ∀ last, middle.Subsides last → turn.Concedes sender last := fun last hlast =>
      ⟨hlast.follows, hlast.term_eq.trans hterm, hlast.posted _ hgranted⟩
    exact (follow_subsides hpresent).imp
      (fun _ last hlast => .concedes (hheard _ _ hevent) hgrants (hconcedes last hlast))
      fun last hlast => .concedes (hheard _ _ hevent) hgrants (hconcedes last hlast)
  | @retire sender message hevent hnewer hterm =>
    have hretires : ∀ last, middle.Subsides last → turn.Fares heard last := by
      intro last hlast
      refine .retires hlast.follows ?_
      rw [hlast.term_eq, hterm]
      exact hnewer
    rw [hevent]
    exact (follow_subsides (Int.le_of_eq hterm.symm)).imp (fun _ last hlast => hretires last hlast)
      hretires

/-- The duties of a leader leave its books as they are. -/
theorem perform_retains (hleads : turn.server.role.isLeader = true) :
    (perform : Action σ Unit).Ends (fun _ last => turn.Retains last)
      (fun last => turn.Retains last) turn := by
  obtain ⟨nextHeartbeat, hrole⟩ := Role.exists_heartbeat hleads
  unfold perform duties
  simp only [ends_bind, ends_server]
  rw [hrole]
  apply (sendHeartbeats_retains nextHeartbeat hleads).imp ?_ fun _ hnever => hnever.elim
  intro _ middle hmiddle
  exact applyCommitted_retains.imp (fun _ _ hlast => hmiddle.trans hlast)
    fun _ hlast => hmiddle.trans hlast

/-- A leader that has voted steps down for the candidate that it has voted for. -/
theorem dispatch_concedes {sender : ServerId} {request : VoteRequest}
    (hleads : turn.server.role.isLeader = true) (hvoted : turn.server.votedFor ≠ none)
    (hgrants : turn.server.Grants request) :
    (dispatch (.received sender (.voteRequest request))).Ends
      (fun _ last => turn.Concedes sender last) (turn.Concedes sender) turn := by
  have hpresent : (Message.voteRequest request).term ≤ turn.server.term :=
    Int.le_of_eq hgrants.1
  let granted : Turn σ := { turn with
    postings := turn.postings ++
      [⟨sender, .voteResponse ⟨turn.server.term, true⟩, turn.server⟩] }
  have hhandle : (handle (.received sender (.voteRequest request))).Ends
      (fun change last => change = .follow ∧ last = granted) (fun _ => False) turn := by
    refine ends_handle_of_current hpresent (ends_roleEvent_of_leads hleads ?_)
    unfold leaderEvent answerVoteRequest
    simp only [ends_bind, ends_server]
    -- The vote is stored already, so nothing is written that could fail.
    rw [if_pos hgrants, if_neg hvoted]
    exact ⟨rfl, rfl⟩
  have hconcedes : ∀ last, granted.Subsides last → turn.Concedes sender last := by
    intro last hlast
    refine ⟨hlast.follows, hlast.term_eq, hlast.posted _ ?_⟩
    unfold Turn.messages
    rw [List.map_append]
    exact List.mem_append_right _ (List.mem_singleton_self _)
  unfold dispatch
  rw [ends_bind]
  apply hhandle.imp ?_ fun _ hnot => hnot.elim
  rintro change _ ⟨rfl, rfl⟩
  refine Ends.imp (follow_subsides ?_) (fun _ last hlast => hconcedes last hlast) hconcedes
  exact hpresent

end Action

/-! ## Beginning to lead -/

/-- The server has begun to lead. It knows nothing of its followers, and what it has committed is
what it had. One without peers leads a term that it has opened. -/
structure Server.Begins (earlier later : Server σ) : Prop where
  leads : later.role.isLeader = true
  config_eq : later.config = earlier.config
  entries_eq : later.log.entries = earlier.log.entries
  commitIndex_eq : later.commitIndex = earlier.commitIndex
  unknown : ∀ follower ∈ later.progress.cursors.matched, follower.2 = nullIndex
  supported : (∃ peer, later.config.isPeer peer = true) ∨ later.term = earlier.term + 1

/-- The server has opened the election of the next term. -/
structure Server.Campaigns (earlier later : Server σ) : Prop where
  config_eq : later.config = earlier.config
  leads_eq : later.role.isLeader = earlier.role.isLeader
  entries_eq : later.log.entries = earlier.log.entries
  commitIndex_eq : later.commitIndex = earlier.commitIndex
  term_eq : later.term = earlier.term + 1

namespace Server

variable {earlier middle later won : Server σ}

theorem Begins.retains (h : earlier.Begins middle) (hnext : middle.Retains later) :
    earlier.Begins later := by
  refine ⟨hnext.leads_eq.trans h.leads, hnext.config_eq.trans h.config_eq,
    hnext.entries_eq.trans h.entries_eq, hnext.commitIndex_eq.trans h.commitIndex_eq,
    fun follower hfollower => h.unknown follower (hnext.matched_eq ▸ hfollower), ?_⟩
  rw [hnext.config_eq, hnext.term_eq]
  exact h.supported

/-- Who is elected by a peer or for a new term begins to lead. -/
theorem begins_elected (now : Duration) (hconfig : won.config = earlier.config)
    (hentries : won.log.entries = earlier.log.entries)
    (hcommit : won.commitIndex = earlier.commitIndex)
    (hsupported : (∃ peer, won.config.isPeer peer = true) ∨ won.term = earlier.term + 1) :
    earlier.Begins (won.elected now) := by
  refine ⟨rfl, hconfig, hentries, hcommit, fun follower hfollower => ?_, hsupported⟩
  obtain ⟨cursor, hcursor, rfl⟩ := List.mem_map.mp hfollower
  exact (Cursors.mem_reset cursor hcursor).2

/-- The server does not lead, unless it has begun to. -/
def MayBegin (earlier later : Server σ) : Prop :=
  later.role.isLeader = true → earlier.Begins later

theorem mayBegin_of_follows (hfollows : later.role.isLeader = false) : earlier.MayBegin later :=
  fun hleads => absurd hleads (by simp [hfollows])

theorem MayBegin.retains (h : earlier.MayBegin middle) (hnext : middle.Retains later) :
    earlier.MayBegin later :=
  fun hleads => (h (hnext.leads_eq ▸ hleads)).retains hnext

/-- Books that are upheld without an election do not make a leader. -/
theorem Upholds.mayBegin (h : earlier.Upholds later) (horder : earlier.InOrder)
    (hfollows : earlier.role.isLeader = false) : earlier.MayBegin later := by
  intro hleads
  have hled := ((h horder).2 hleads).leads
  rw [hfollows] at hled
  cases hled

end Server

namespace Action

variable {turn : Turn σ}

theorem becomeLeader_ends_elected {done : Unit → Turn σ → Prop} {failed : Turn σ → Prop} :
    becomeLeader.Ends done failed turn ↔
      done () { turn with server := turn.server.elected turn.now } := Iff.rfl

theorem applyCommitted_mayBegin {server : Server σ} (h : server.MayBegin turn.server) :
    (applyCommitted : Action σ Unit).Ends (fun _ last => server.MayBegin last.server)
      (fun last => server.MayBegin last.server) turn :=
  applyCommitted_retains.imp (fun _ _ hlast => h.retains hlast.server)
    fun _ hlast => h.retains hlast.server

variable [LawfulStore σ]

/-- Over an event a server that does not lead may begin to. -/
theorem dispatch_begins {event : Event} (horder : turn.server.InOrder)
    (hfollows : turn.server.role.isLeader = false)
    (hpeer : ∀ sender message, event = .received sender message →
      turn.server.config.isPeer sender = true) :
    (dispatch event).Ends (fun _ last => turn.server.MayBegin last.server)
      (fun last => turn.server.MayBegin last.server) turn := by
  have hupheld : ∀ last, turn.Through Server.Upholds last → turn.server.MayBegin last.server :=
    fun last hlast => hlast.ends.mayBegin horder hfollows
  have hcoherent : turn.server.role.isLeader = true → turn.server.durable.Coherent := by
    simp [hfollows]
  unfold dispatch
  rw [ends_bind]
  apply (handle_poises event (Turn.through_refl turn) hcoherent).imp ?_ hupheld
  intro change middle hpoised
  by_cases hlead : change = .lead
  · obtain ⟨_, ⟨sender, hevent, _, hwon⟩, _⟩ := hpoised.won hlead
    subst hlead
    unfold enter
    rw [ends_bind, becomeLeader_ends_elected]
    refine applyCommitted_mayBegin fun _ => ?_
    rw [hwon]
    exact Server.begins_elected _ rfl rfl rfl (.inl ⟨sender, hpeer _ _ hevent⟩)
  · exact (reenter_upholds hpoised hlead).imp (fun _ last hlast => hupheld last hlast) hupheld

/-- An election is started by campaigning in the next term, or fails and nothing has changed. -/
theorem startElection_campaigns (hcoherent : turn.server.durable.Coherent) :
    startElection.Ends (fun _ last => turn.server.Campaigns last.server)
      (fun last => last.server = turn.server) turn := by
  unfold startElection
  simp only [ends_bind, ends_server, ends_modifyProgress, ends_modifyTimer]
  apply ends_changeDurable
  · intro durable hchange
    obtain ⟨_, _, hterm, _, hentries⟩ := hcoherent.openElection_ok hchange
    apply ends_forM (fun last => turn.server.Campaigns last.server)
    · exact fun peer _ last hlast => hlast
    · exact ⟨rfl, rfl, hentries, rfl, hterm⟩
  · rfl

/-- Over a campaign a server that does not lead may begin to. -/
theorem campaign_begins (hcoherent : turn.server.durable.Coherent) (electionPending : Bool)
    (hfollows : turn.server.role.isLeader = false) :
    (campaign electionPending).Ends (fun _ last => turn.server.MayBegin last.server)
      (fun last => turn.server.MayBegin last.server) turn := by
  unfold campaign
  apply ends_ite
  · intro _
    let candidate : Server σ := { turn.server with role := .candidate false }
    have hopens : startElection.Ends (fun _ last => candidate.Campaigns last.server)
        (fun last => last.server = candidate) { turn with server := candidate } :=
      startElection_campaigns hcoherent
    rw [ends_bind, ends_setRole, ends_bind]
    apply hopens.imp
    · intro _ opened hopened
      rw [ends_bind, ends_server]
      apply ends_ite
      · intro _
        simp only [ends_bind, ends_now, becomeLeader_ends_elected]
        have hbegun : turn.server.Begins (opened.server.elected opened.now) :=
          Server.begins_elected opened.now hopened.config_eq hopened.entries_eq
            hopened.commitIndex_eq (.inr hopened.term_eq)
        exact (sendHeartbeats_retains _ rfl).imp
          (fun _ _ hlast _ => hbegun.retains hlast.server) fun _ hnever => hnever.elim
      · exact fun _ => Server.mayBegin_of_follows hopened.leads_eq
    · intro last hlast
      rw [hlast]
      exact Server.mayBegin_of_follows rfl
  · exact fun _ => Server.mayBegin_of_follows hfollows

theorem duties_begins (hcoherent : turn.server.durable.Coherent)
    (hfollows : turn.server.role.isLeader = false) :
    (duties : Action σ Unit).Ends (fun _ last => turn.server.MayBegin last.server)
      (fun last => turn.server.MayBegin last.server) turn := by
  unfold duties
  rw [ends_bind, ends_server]
  cases hrole : turn.server.role with
  | follower leader => exact Server.mayBegin_of_follows hfollows
  | candidate electionPending => exact campaign_begins hcoherent electionPending hfollows
  | leader nextHeartbeat => simp [hrole, Role.isLeader] at hfollows

/-- Over its duties a server that does not lead may begin to. -/
theorem perform_begins (hcoherent : turn.server.durable.Coherent)
    (hfollows : turn.server.role.isLeader = false) :
    (perform : Action σ Unit).Ends (fun _ last => turn.server.MayBegin last.server)
      (fun last => turn.server.MayBegin last.server) turn := by
  unfold perform
  rw [ends_bind]
  exact (duties_begins hcoherent hfollows).mono fun _ _ hlast => applyCommitted_mayBegin hlast

end Action

/-! ## Calls -/

/-- What a call brings of the server's peers. -/
def Server.hears (server : Server σ) (call : Call) : Hearing := fun sender message =>
  server.config.isPeer sender = true ∧ call.intake.received sender message

namespace Server

variable {server : Server σ} {call : Call}

/-- Whatever the call, a leader goes on or steps down. -/
theorem call_fares (hleads : server.role.isLeader = true) (now : Duration) (call : Call) :
    (server.call now call).EndsIn (Turn.Fares (server.hears call) ⟨server, now, []⟩) := by
  have hstart : Turn.Retains (⟨server, now, []⟩ : Turn σ) ⟨server, now, []⟩ := .refl _
  apply call_endsIn
  · exact .goesOn (hstart.goesOn hleads)
  · exact fun event hbrought => Action.dispatch_fares hleads hbrought
  · intro _
    exact (Action.perform_retains hleads).imp (fun _ _ hlast => .goesOn (hlast.goesOn hleads))
      fun _ hlast => .goesOn (hlast.goesOn hleads)
  · intro target message hrequest
    have hquiet : ¬ message.GrantsVote := by
      rw [transferRequest, if_pos hleads] at hrequest
      rintro ⟨_, rfl⟩
      split at hrequest <;> cases hrequest
    exact .goesOn ((hstart.post target hquiet).goesOn hleads)

/-- A leader that leads on after a call has gone on. -/
theorem goesOn_of_leads (hleads : server.role.isLeader = true) {now : Duration} {call : Call}
    (hlater : (server.call now call).server.role.isLeader = true) :
    server.GoesOn (server.hears call) (server.call now call).server := by
  obtain ⟨last, hfares, hserver, _⟩ := call_fares hleads now call
  rw [hserver] at hlater ⊢
  cases hfares with
  | goesOn h => exact h.server
  | concedes _ _ h => exact absurd hlater (by simp [h.follows])
  | retires hfollows => exact absurd hlater (by simp [hfollows])

variable [LawfulStore σ]

/-- Whatever the call, a server that leads after it and did not before has begun to. -/
theorem call_begins (hcoherent : server.Coherent) (horder : server.InOrder)
    (hfollows : server.role.isLeader = false) (now : Duration) (call : Call) :
    server.MayBegin (server.call now call).server := by
  have hnever : server.MayBegin server := mayBegin_of_follows hfollows
  have hends : (server.call now call).EndsIn fun last => server.MayBegin last.server := by
    apply call_endsIn
    · exact hnever
    · exact fun event hbrought => Action.dispatch_begins horder hfollows
        fun sender message hevent => (hbrought sender message hevent).1
    · exact fun _ => Action.perform_begins hcoherent.durable hfollows
    · exact fun _ _ _ => hnever
  obtain ⟨last, hlast, hserver, _⟩ := hends
  rw [hserver]
  exact hlast

end Server

end Consensus
