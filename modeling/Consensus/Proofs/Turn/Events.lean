import Consensus.Proofs.Turn.Applying
import Consensus.Proofs.Turn.Following
import Consensus.Proofs.Turn.Leading
import Consensus.Proofs.Turn.Voting
import Consensus.Server.Events

/-! # Events trace the protocol

Whatever an event makes of a server's role, the change is a move of the protocol by the
time the server answers anyone again. Nothing is asked of the event itself.
-/

namespace Consensus

variable {σ : Type} [Store σ] [LawfulStore σ] {intake : View.Intake} {first turn : Turn σ}

/-- The event is one that the intake gives to the server. -/
def Event.Given (event : Event) (intake : View.Intake) (server : Server σ) : Prop :=
  match event with
  | .received sender message => intake.received sender message
  | .timerRanOut => True
  | .submitted command =>
    ∀ bytes, command.encode = .ok bytes → intake.submitted server.log.entries bytes

/-- The server can change its role in this way. -/
def RoleChange.Ready (change : RoleChange) (intake : View.Intake) (server : Server σ) : Prop :=
  match change with
  | .stay => True
  | .follow => server.role.isLeader = true → ∃ sender request,
      intake.received sender (.voteRequest request) ∧ server.votedFor = some request.candidateId
  | .campaign => server.role.isLeader = false
  | .lead => server.role.isLeader = false ∧ server.progress.tally.term = server.term ∧
      server.Elected

/-- The server as it is when it has become a follower. -/
def Server.stepDown (server : Server σ) (now : Duration) : Server σ :=
  { server with
    role := .follower none
    timer := server.timer.restart now
    progress := { server.progress.clearCursors with tally := server.progress.tally.clear } }

namespace Action

/-! ## Changes of role -/

omit [Store σ] [LawfulStore σ] in
theorem ends_becomeFollower {done : Unit → Turn σ → Prop} {failed : Turn σ → Prop} :
    becomeFollower.Ends done failed turn ↔
      done () { turn with server := turn.server.stepDown turn.now } := Iff.rfl

/-- Stepping down traces the protocol. -/
theorem becomeFollower_ends (h : Turn.Trace intake first turn)
    (hready : RoleChange.follow.Ready intake turn.server) :
    becomeFollower.Ends (fun _ last => Turn.Trace intake first last) (Turn.Trace intake first)
      turn := by
  rw [ends_becomeFollower]
  have hmove : turn.server.view.Move intake turn.server.view.retired := .concede hready
  exact h.move hmove ⟨h.coherent.durable, h.coherent.commit_ge, fun _ => rfl⟩

/-- A server that has stored a newer term is a follower of it before it does anything else. -/
theorem becomeFollower_ends_of_newer (h : Turn.Trace intake first turn) {sender : ServerId}
    {message : Message} (harrived : intake.received sender message)
    (hnewer : turn.server.term < message.term) {durable : Durable σ}
    (hmoved : turn.server.durable.moveTo message.term = .ok durable) :
    becomeFollower.Ends (fun _ last => Turn.Trace intake first last) (Turn.Trace intake first)
      { turn with server := { turn.server with durable } } := by
  rw [ends_becomeFollower]
  have hcoherent := h.coherent
  obtain ⟨hdurable, hterm, hvote, hentries⟩ := hcoherent.durable.moveTo_ok hnewer hmoved
  have hmove : turn.server.view.Move intake { turn.server.view.retired with
      term := durable.term, votedFor := durable.votedFor, log := durable.log.entries } := by
    rw [hterm, hvote, hentries]
    exact .adopt harrived hnewer
  exact h.move hmove ⟨hdurable, hcoherent.commit_ge, fun _ => rfl⟩

/-- Beginning to campaign traces the protocol. -/
theorem becomeCandidate_ends (h : Turn.Trace intake first turn)
    (hfollows : turn.server.role.isLeader = false) :
    becomeCandidate.Ends (fun _ last => Turn.Trace intake first last) (Turn.Trace intake first)
      turn := by
  unfold becomeCandidate
  simp only [ends_bind, ends_setRole, ends_modifyProgress]
  have hcoherent := h.coherent
  refine h.still ?_ ⟨hcoherent.durable, hcoherent.commit_ge, fun _ => rfl⟩
  have hmatched : turn.server.view.matched = [] := by
    simp [Server.view, hcoherent.cursors_eq hfollows]
  have hview : { turn.server.view with leads := false, matched := [] } = turn.server.view := by
    rw [← hmatched, ← hfollows]
    rfl
  exact hview

/-- Beginning to lead traces the protocol. -/
theorem becomeLeader_ends (h : Turn.Trace intake first turn)
    (hready : RoleChange.lead.Ready intake turn.server) :
    becomeLeader.Ends
      (fun _ last => Turn.Trace intake first last ∧ last.server.role.isLeader = true)
      (Turn.Trace intake first) turn := by
  unfold becomeLeader
  simp only [ends_bind, ends_server, ends_now, ends_setRole, ends_modifyTimer,
    ends_modifyProgress]
  obtain ⟨hfollows, htally, hwon⟩ := hready
  have hmove : turn.server.view.Move intake { turn.server.view with
      leads := true
      matched := (Cursors.reset turn.server.config.peerIds turn.server.log.size).matched } := by
    refine .win hfollows htally hwon (Cursors.nodup_reset _ _) ?_ ?_
    · intro follower hfollower
      obtain ⟨cursor, hcursor, rfl⟩ := List.mem_map.mp hfollower
      exact (Cursors.mem_reset cursor hcursor).1
    · intro follower hfollower
      obtain ⟨cursor, hcursor, rfl⟩ := List.mem_map.mp hfollower
      exact (Cursors.mem_reset cursor hcursor).2
  refine ⟨h.move hmove ⟨h.coherent.durable, h.coherent.commit_ge, fun hfollows => ?_⟩, rfl⟩
  exact Bool.noConfusion hfollows

/-- A server takes up a role that it is ready for along the protocol. -/
theorem enter_ends {change : RoleChange} (h : Turn.Trace intake first turn)
    (hready : change.Ready intake turn.server) :
    (enter change).Ends (fun _ last => Turn.Trace intake first last) (Turn.Trace intake first)
      turn := by
  cases change with
  | stay => exact h
  | follow => exact becomeFollower_ends h hready
  | campaign => exact becomeCandidate_ends h hready
  | lead => exact (becomeLeader_ends h hready).mono fun _ _ hlast => hlast.1

/-! ## Roles -/

/-- What a role makes of an event leaves the server ready for the change it asks for. A
server is asked to follow by messages only. -/
structure Handled (intake : View.Intake) (first : Turn σ) (event : Event) (change : RoleChange)
    (last : Turn σ) : Prop where
  trace : Turn.Trace intake first last
  ready : change.Ready intake last.server
  follow_only : change = .follow → ∃ sender message, event = .received sender message

theorem Handled.stay {event : Event} (h : Turn.Trace intake first turn) :
    Handled intake first event .stay turn :=
  ⟨h, trivial, fun hfollow => nomatch hfollow⟩

/-- A role handles the event, whatever comes of it. -/
def Handles (intake : View.Intake) (first : Turn σ) (event : Event) (turn : Turn σ)
    (action : Action σ RoleChange) : Prop :=
  action.Ends (Handled intake first event) (Turn.Trace intake first) turn

theorem answerVoteRequest_handles {event : Event} {sender : ServerId} {request : VoteRequest}
    (hevent : event = .received sender (.voteRequest request))
    (harrived : intake.received sender (.voteRequest request))
    (h : Turn.Trace intake first turn) :
    Handles intake first event turn do
      if ← answerVoteRequest sender request then return .follow else return .stay := by
  unfold Handles
  rw [ends_bind]
  apply (answerVoteRequest_ends h harrived).mono
  rintro granted last ⟨hlast, hvoted⟩
  apply ends_ite
  · intro hgranted
    exact ⟨hlast, fun _ => ⟨sender, request, harrived, hvoted hgranted⟩, fun _ => ⟨_, _, hevent⟩⟩
  · intro _
    exact .stay hlast

/-- A follower handles every event that it may be given. -/
theorem followerEvent_handles {event : Event} (h : Turn.Trace intake first turn)
    (hgiven : event.Given intake turn.server)
    (hterm : ∀ term, event.term? = some term → term ≤ turn.server.term)
    (hfollows : turn.server.role.isLeader = false) :
    Handles intake first event turn (followerEvent event) := by
  unfold Handles followerEvent
  rw [ends_bind, ends_server]
  cases event with
  | timerRanOut => exact ⟨h, hfollows, fun hfollow => nomatch hfollow⟩
  | submitted command => exact .stay h
  | received sender message =>
    have hcurrent : message.term ≤ turn.server.term := hterm _ rfl
    cases message with
    | appendRequest request =>
      dsimp only
      apply ends_ite
      · intro _
        simp only [ends_bind, ends_modifyTimer, ends_setRole]
        have hfollowing := (h.timer (turn.server.timer.reset turn.now)).role
          (.follower (some request.leaderId)) hfollows.symm
        exact (answerAppendRequest_ends hfollowing hgiven rfl hcurrent).mono fun _ _ hlast =>
          .stay hlast
      · intro _
        rw [ends_bind]
        exact (answerAppendRequest_ends h hgiven hfollows hcurrent).mono fun _ _ hlast =>
          .stay hlast
    | voteRequest request =>
      simp only [ends_bind]
      apply (answerVoteRequest_ends h hgiven).mono
      rintro granted last ⟨hlast, _⟩
      exact ends_ite (fun _ => .stay (hlast.timer _)) (fun _ => .stay hlast)
    | timeoutNow request =>
      apply ends_ite
      · intro _
        rw [ends_bind, ends_modifyTimer]
        exact ⟨h.timer _, hfollows, fun hfollow => nomatch hfollow⟩
      · intro _
        exact .stay h
    | voteResponse response => exact .stay h
    | appendResponse response => exact .stay h

/-- A candidate handles every event that it may be given. -/
theorem candidateEvent_handles {event : Event} (h : Turn.Trace intake first turn)
    (hgiven : event.Given intake turn.server) (hfollows : turn.server.role.isLeader = false) :
    Handles intake first event turn (candidateEvent event) := by
  unfold Handles candidateEvent
  rw [ends_bind, ends_server]
  cases event with
  | timerRanOut =>
    rw [ends_bind, ends_setRole]
    exact .stay (h.role _ hfollows.symm)
  | submitted command => exact .stay h
  | received sender message =>
    cases message with
    | appendRequest request =>
      apply ends_ite
      · intro _
        refine ⟨h, fun hleads => ?_, fun _ => ⟨_, _, rfl⟩⟩
        rw [hfollows] at hleads
        exact absurd hleads (by decide)
      · intro _
        rw [ends_bind]
        exact (refuseAppend_faithful sender h).mono fun _ _ hlast => .stay hlast
    | voteRequest request => exact answerVoteRequest_handles rfl hgiven h
    | voteResponse response =>
      rw [ends_bind]
      apply (countVote_ends h hgiven).mono
      rintro counted last ⟨hlast, hrole, htally⟩
      rw [ends_bind, ends_server]
      apply ends_ite
      · rintro ⟨hcounted, helected⟩
        have hstill : last.server.role.isLeader = false := by
          rw [hrole]
          exact hfollows
        exact ⟨hlast, ⟨hstill, htally hcounted, helected⟩, fun hfollow => nomatch hfollow⟩
      · intro _
        exact .stay hlast
    | appendResponse response => exact .stay h
    | timeoutNow request => exact .stay h

/-- A leader handles every event that it may be given. -/
theorem leaderEvent_handles {event : Event} (h : Turn.Trace intake first turn)
    (hgiven : event.Given intake turn.server) (hleads : turn.server.role.isLeader = true) :
    Handles intake first event turn (leaderEvent event) := by
  unfold Handles leaderEvent
  rw [ends_bind, ends_server]
  cases event with
  | timerRanOut =>
    rw [ends_bind, ends_modifyTimer]
    exact .stay (h.timer _)
  | submitted command =>
    rw [ends_bind]
    exact (appendCommand_ends h hleads hgiven).mono fun _ _ hlast => .stay hlast
  | received sender message =>
    cases message with
    | appendRequest request =>
      rw [ends_bind]
      exact (refuseAppend_faithful sender h).mono fun _ _ hlast => .stay hlast
    | appendResponse response =>
      dsimp only
      apply ends_ite
      · intro hterm
        rw [ends_bind]
        exact (takeAppendResponse_ends h hgiven hleads hterm).mono fun _ _ hlast => .stay hlast
      · intro _
        exact .stay h
    | voteRequest request => exact answerVoteRequest_handles rfl hgiven h
    | voteResponse response =>
      rw [ends_bind]
      exact (countVote_ends h hgiven).mono fun _ _ hlast => .stay hlast.1
    | timeoutNow request => exact .stay h

/-- Whatever its role, a server handles every event of no newer term. -/
theorem roleEvent_handles {event : Event} (h : Turn.Trace intake first turn)
    (hgiven : event.Given intake turn.server)
    (hterm : ∀ term, event.term? = some term → term ≤ turn.server.term) :
    Handles intake first event turn (roleEvent event) := by
  unfold Handles roleEvent
  rw [ends_bind, ends_server]
  split
  next hrole => exact followerEvent_handles h hgiven hterm (by rw [hrole]; rfl)
  next hrole => exact candidateEvent_handles h hgiven (by rw [hrole]; rfl)
  next hrole => exact leaderEvent_handles h hgiven (by rw [hrole]; rfl)

/-! ## One look at an event -/

section Look

variable {sender : ServerId} {message : Message} {done : RoleChange → Turn σ → Prop}
variable {failed : Turn σ → Prop}

omit [LawfulStore σ] in
/-- A message of no newer term is handled in the role that the server has. -/
theorem ends_handle_of_current (hterm : message.term ≤ turn.server.term)
    (hrole : (roleEvent (.received sender message)).Ends done failed turn) :
    (handle (.received sender message)).Ends done failed turn := by
  unfold handle
  simp only [Event.term?, ends_bind, ends_server]
  rwa [if_neg (Int.not_lt.mpr hterm)]

omit [LawfulStore σ] in
/-- A newer term is stored before anything else is done about a message. -/
theorem ends_handle_of_newer (hnewer : turn.server.term < message.term)
    (hmoved : ∀ durable, turn.server.durable.moveTo message.term = .ok durable →
      done .follow { turn with server := { turn.server with durable } })
    (hfailed : ∀ cause, turn.server.durable.moveTo message.term = .error cause → failed turn) :
    (handle (.received sender message)).Ends done failed turn := by
  unfold handle
  simp only [Event.term?, ends_bind, ends_server]
  rw [if_pos hnewer, ends_bind]
  apply ends_changeDurable_cases
  · exact fun durable hchange => hmoved durable (mapError_eq_ok.mp hchange)
  · intro failure hchange
    obtain ⟨cause, hmove⟩ := exists_of_mapError_eq_error hchange
    exact hfailed cause hmove

variable {request : AppendRequest}

omit [LawfulStore σ] in
/-- A follower takes a request of its term for one of the leader that it then follows. -/
theorem ends_handle_of_follower {leader : Option ServerId}
    (hrole : turn.server.role = .follower leader) (hterm : request.term = turn.server.term)
    (hanswer : ∀ timer, (answerAppendRequest sender request).Ends (fun _ last => done .stay last)
      failed { turn with
        server := { turn.server with role := .follower (some request.leaderId), timer } }) :
    (handle (.received sender (.appendRequest request))).Ends done failed turn := by
  have hcurrent : (Message.appendRequest request).term ≤ turn.server.term := Int.le_of_eq hterm
  apply ends_handle_of_current hcurrent
  unfold roleEvent
  rw [ends_bind, ends_server, hrole]
  dsimp only
  unfold followerEvent
  rw [ends_bind, ends_server]
  refine ends_ite (fun _ => ?_) (fun hother => absurd hterm hother)
  simp only [ends_bind, ends_modifyTimer, ends_setRole]
  exact hanswer _

omit [LawfulStore σ] in
/-- A candidate follows the leader of its term before it does anything else about a request. -/
theorem ends_handle_of_candidate {electionPending : Bool}
    (hrole : turn.server.role = .candidate electionPending)
    (hterm : request.term = turn.server.term) (hdone : done .follow turn) :
    (handle (.received sender (.appendRequest request))).Ends done failed turn := by
  have hcurrent : (Message.appendRequest request).term ≤ turn.server.term := Int.le_of_eq hterm
  apply ends_handle_of_current hcurrent
  unfold roleEvent
  rw [ends_bind, ends_server, hrole]
  dsimp only
  unfold candidateEvent
  rw [ends_bind, ends_server]
  exact ends_ite (fun _ => hdone) (fun hother => absurd hterm hother)

end Look

/-- The change of role that an event asks for completes a trace. -/
structure Completes (intake : View.Intake) (first : Turn σ) (event : Event) (change : RoleChange)
    (last : Turn σ) : Prop where
  enters : (enter change).Ends (fun _ final => Turn.Trace intake first final)
    (Turn.Trace intake first) last
  follow_only : change = .follow → ∃ sender message, event = .received sender message

theorem Handled.completes {event : Event} {change : RoleChange}
    (h : Handled intake first event change turn) : Completes intake first event change turn :=
  ⟨enter_ends h.trace h.ready, h.follow_only⟩

/-- A server handles an event of any term, a newer one by following first. -/
theorem handle_ends {event : Event} (h : Turn.Trace intake first turn)
    (hgiven : event.Given intake turn.server) :
    (handle event).Ends (Completes intake first event) (Turn.Trace intake first) turn := by
  have hrole : (∀ term, event.term? = some term → term ≤ turn.server.term) →
      (roleEvent event).Ends (Completes intake first event) (Turn.Trace intake first) turn :=
    fun hterm => (roleEvent_handles h hgiven hterm).mono fun _ _ hlast => hlast.completes
  cases event with
  | timerRanOut => exact hrole (fun _ hnone => nomatch hnone)
  | submitted command => exact hrole (fun _ hnone => nomatch hnone)
  | received sender message =>
    by_cases hnewer : turn.server.term < message.term
    · -- The newer term is stored first, and only with the role of a follower is it a move.
      refine ends_handle_of_newer hnewer (fun durable hmoved => ?_) fun _ _ => h
      exact ⟨becomeFollower_ends_of_newer h hgiven hnewer hmoved, fun _ => ⟨_, _, rfl⟩⟩
    · refine ends_handle_of_current (Int.not_lt.mp hnewer) (hrole ?_)
      intro term hsome
      exact Option.some.inj hsome ▸ Int.not_lt.mp hnewer

/-! ## Applying -/

theorem applyCommitted_faithful : Faithful intake (applyCommitted : Action σ Unit) := by
  intro first turn h
  refine (ends_applyCommitted (Turn.Trace intake first) ?_ (fun _ hlast _ _ => hlast) h).mono
    fun _ _ hlast => hlast.1
  rintro last command hlast ⟨hwaits, entry, hread, hdecode⟩
  have hmove : last.server.view.Move intake (last.server.deliver command).view :=
    .deliver hwaits hread hdecode
  have hcoherent := hlast.coherent
  exact hlast.move hmove ⟨hcoherent.durable, hcoherent.commit_ge, hcoherent.cursors_eq⟩

/-! ## Dispatch and duties -/

/-- What is done with an event before what is committed is applied. -/
def react (event : Event) : Action σ Unit := do
  let change ← handle event
  enter change
  if change = .follow then
    enter (← handle event)

omit [LawfulStore σ] in
/-- An event is reacted to, and then what is committed is applied. -/
theorem dispatch_eq (event : Event) :
    (dispatch event : Action σ Unit) = react event >>= fun _ => applyCommitted := by
  unfold dispatch react
  simp only [bind_assoc]
  congr 1
  funext change
  congr 1
  funext _
  split
  next => simp only [bind_assoc]
  next => rw [pure_bind]

omit [LawfulStore σ] in
/-- An event that leaves the role to the server is not looked at again. One that makes the server
follow is looked at by the follower. -/
theorem ends_react {event : Event} {done failed : Turn σ → Prop}
    (h : (handle event).Ends
      (fun change last => (change = .stay ∧ done last) ∨ (change = .follow ∧
        (handle event).Ends (fun again final => again = .stay ∧ done final) failed
          { last with server := last.server.stepDown last.now })) failed turn) :
    (react event).Ends (fun _ last => done last) failed turn := by
  unfold react
  rw [ends_bind]
  apply h.mono
  rintro change last (⟨rfl, hlast⟩ | ⟨rfl, hfollower⟩)
  · exact hlast
  · rw [ends_bind]
    refine ends_becomeFollower.mpr ?_
    rw [if_pos rfl, ends_bind]
    apply hfollower.mono
    rintro again final ⟨rfl, hfinal⟩
    exact hfinal

/-- A reaction traces the protocol, its replay included. -/
theorem react_ends {event : Event} (h : Turn.Trace intake first turn)
    (hgiven : event.Given intake turn.server) :
    (react event).Ends (fun _ last => Turn.Trace intake first last) (Turn.Trace intake first)
      turn := by
  unfold react
  simp only [ends_bind]
  apply (handle_ends h hgiven).mono
  intro change middle hmiddle
  apply hmiddle.enters.mono
  intro _ entered hentered
  refine ends_ite (fun hfollow => ?_) (fun _ => hentered)
  -- Only a message is looked at again, and a message is given whatever the log is by then.
  obtain ⟨sender, message, rfl⟩ := hmiddle.follow_only hfollow
  rw [ends_bind]
  exact (handle_ends hentered hgiven).mono fun _ _ hagain => hagain.enters

theorem dispatch_ends {event : Event} (h : Turn.Trace intake first turn)
    (hgiven : event.Given intake turn.server) :
    (dispatch event).Ends (fun _ last => Turn.Trace intake first last) (Turn.Trace intake first)
      turn := by
  rw [dispatch_eq, ends_bind]
  exact (react_ends h hgiven).mono fun _ _ hlast => applyCommitted_faithful hlast

/-- A campaign traces the protocol up to the votes that are asked for. -/
theorem campaign_ends {electionPending : Bool} (h : Turn.Trace intake first turn)
    (hfollows : turn.server.role.isLeader = false) :
    (campaign electionPending).Ends (fun _ last => Turn.Trace intake first last)
      (Turn.Trace intake first) turn := by
  unfold campaign
  refine ends_ite (fun _ => ?_) (fun _ => h)
  simp only [ends_bind, ends_setRole]
  apply (startElection_ends (h.role (.candidate false) hfollows.symm) rfl).mono
  rintro _ last ⟨hlast, hrole, htally⟩
  rw [ends_server]
  refine ends_ite (fun hwon => ?_) (fun _ => hlast)
  simp only [ends_bind, ends_now]
  have hready : RoleChange.lead.Ready intake last.server := ⟨by rw [hrole]; rfl, htally, hwon⟩
  apply (becomeLeader_ends hlast hready).mono
  rintro _ leading ⟨hleading, hleads⟩
  exact (sendHeartbeats_leadsOn _).ends hleading hleads

/-- The duties of every role trace the protocol. -/
theorem duties_faithful : Faithful intake (duties : Action σ Unit) := by
  intro first turn h
  unfold duties
  rw [ends_bind, ends_server]
  split
  next => exact h
  next hrole => exact campaign_ends h (by rw [hrole]; rfl)
  next hrole => exact (sendHeartbeats_leadsOn _).ends h (by rw [hrole]; rfl)

theorem perform_faithful : Faithful intake (perform : Action σ Unit) := by
  intro first turn h
  unfold perform
  rw [ends_bind]
  exact (duties_faithful h).mono fun _ _ hlast => applyCommitted_faithful hlast

end Action

end Consensus
