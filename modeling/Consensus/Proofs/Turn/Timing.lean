import Consensus.Proofs.Replication.Incumbency
import Consensus.Proofs.Turn.Pace

/-! # Timing

A follower counts anew when it hears from the leader of its term and when it grants its vote, and
whoever becomes a follower does so with a fresh timeout. Nothing else sets its timer, unless it is
told to call an election. A timeout of zero is never left to a follower or a leader.
-/

namespace Consensus

def Role.isFollower : Role → Bool
  | .follower _ => true
  | _ => false

variable {σ : Type} [Store σ]

namespace Server

/-- The event is a reason for a follower to wait: it hears from the leader of its term, or grants
its vote. -/
inductive Reassured (server : Server σ) : Event → Prop
  | heard {sender : ServerId} {request : AppendRequest} (hterm : request.term = server.term) :
      Reassured server (.received sender (.appendRequest request))
  | granted {sender : ServerId} {request : VoteRequest} (hgrants : server.Grants request) :
      Reassured server (.received sender (.voteRequest request))

/-- The event tells the server to call an election, in its own term or a newer one. -/
inductive Summoned (server : Server σ) : Event → Prop
  | intro {sender : ServerId} {request : TimeoutNow} (hself : request.candidateId = server.id)
      (hterm : server.term ≤ request.term) :
      Summoned server (.received sender (.timeoutNow request))

end Server

namespace Pace

variable {pace : Pace}

def Follows (pace : Pace) : Prop := pace.role.isFollower = true

/-- The pace of a server that has changed its role. -/
def enter (pace : Pace) : RoleChange → Pace
  | .stay => pace
  | .follow => { pace with role := .follower none, timer := pace.timer.restart pace.now }
  | .campaign => { pace with role := .candidate true }
  | .lead => { pace with role := .leader pace.now, timer := pace.timer.restart pace.now }

theorem term_enter (pace : Pace) (change : RoleChange) : (pace.enter change).term = pace.term := by
  cases change <;> rfl

/-- The timer has the bounds of the configuration, and a timeout within them if it counts. -/
structure Regular (pace : Pace) : Prop where
  lower_eq : pace.timer.lower = pace.config.electionMin
  upper_eq : pace.timer.upper = pace.config.electionMax
  ordered : pace.config.electionMin ≤ pace.config.electionMax
  inBounds : (∀ pending, pace.role ≠ .candidate pending) → pace.timer.InBounds

theorem Regular.with_term (h : pace.Regular) (term : Term) :
    ({ pace with term } : Pace).Regular :=
  ⟨h.lower_eq, h.upper_eq, h.ordered, h.inBounds⟩

theorem Regular.restart (h : pace.Regular) (role : Role) :
    ({ pace with role, timer := pace.timer.restart pace.now } : Pace).Regular := by
  refine ⟨h.lower_eq, h.upper_eq, h.ordered, fun _ => Countdown.restart_inBounds ?_ _⟩
  rw [h.lower_eq, h.upper_eq]
  exact h.ordered

/-- A candidate's timeout may be anything. -/
theorem Regular.campaign (h : pace.Regular) {timer : Countdown}
    (hlower : timer.lower = pace.timer.lower) (hupper : timer.upper = pace.timer.upper)
    (pending : Bool) : ({ pace with role := .candidate pending, timer } : Pace).Regular :=
  ⟨hlower.trans h.lower_eq, hupper.trans h.upper_eq, h.ordered,
    fun hother => absurd rfl (hother pending)⟩

/-- A regular pace stays regular when a role is taken up. -/
theorem Regular.enter (h : pace.Regular) (change : RoleChange) : (pace.enter change).Regular := by
  cases change with
  | stay => exact h
  | follow => exact h.restart _
  | campaign => exact h.campaign rfl rfl true
  | lead => exact h.restart _

/-- What duties can make of the pace. A follower has none, and nobody becomes one over them. -/
structure Works (earlier later : Pace) : Prop where
  regular : earlier.Regular → later.Regular
  same : earlier.Follows ∨ later.Follows → later = earlier

/-- The pace of one that does not follow, and that does as well as an earlier one. -/
structure Apart (earlier later : Pace) : Prop where
  regular : earlier.Regular → later.Regular
  follows : ¬ later.Follows

theorem Apart.works {earlier later : Pace} (h : earlier.Apart later)
    (hother : ¬ earlier.Follows) : earlier.Works later :=
  ⟨h.regular, fun heither => heither.elim (absurd · hother) (absurd · h.follows)⟩

end Pace

/-! ## Handling an event -/

namespace Turn

variable {first middle : Turn σ} {event : Event} {change again : RoleChange} {pace final : Pace}

/-- What looking at an event can make of the pace, and the change of role that it asks for. -/
inductive Attends (first : Turn σ) (event : Event) : RoleChange → Pace → Prop
  | passes (hcalm : first.pace.Follows → ¬ first.server.Reassured event) :
      Attends first event .stay first.pace
  | reassured {role : Role} (hfollows : first.pace.Follows)
      (hreassured : first.server.Reassured event) (hrole : role.isFollower = true) :
      Attends first event .stay
        { first.pace with role, timer := first.pace.timer.reset first.now }
  | called {timer : Countdown} (hcause : event = .timerRanOut ∨ first.server.Summoned event)
      (hlower : timer.lower = first.server.timer.lower)
      (hupper : timer.upper = first.server.timer.upper) :
      Attends first event .campaign { first.pace with timer }
  | outdated {sender : ServerId} {message : Message} (hevent : event = .received sender message)
      (hnewer : first.server.term < message.term) :
      Attends first event .follow { first.pace with term := message.term }
  | gaveWay {sender : ServerId} {message : Message} (hevent : event = .received sender message)
      (hother : ¬ first.pace.Follows) : Attends first event .follow first.pace
  | won (hother : ¬ first.pace.Follows) : Attends first event .lead first.pace
  | waits (hother : ¬ first.pace.Follows) :
      Attends first event .stay { first.pace with role := .candidate true }
  | leads (hother : ¬ first.pace.Follows) :
      Attends first event .stay
        { first.pace with timer := first.pace.timer.restart first.now }

/-- What handling an event can make of the pace. A follower that is left has either been given a
reason to wait, or become one, and counts from now, or its timer is what it was. -/
structure Settles (first : Turn σ) (event : Event) (last : Pace) : Prop where
  regular : first.pace.Regular → last.Regular
  counts : last.Follows →
    (((first.pace.Follows ∧ first.server.Reassured event) ∨ ¬ first.pace.Follows ∨
        first.pace.term < last.term) ∧ last.timer.start = first.now) ∨
      (first.pace.Follows ∧ ¬ first.server.Reassured event ∧ last.term = first.pace.term ∧
        last.timer = first.pace.timer)
  follows : first.pace.Follows → event ≠ .timerRanOut → ¬ first.server.Summoned event →
    last.Follows

/-- What a failure can make of the pace. Over anything but a message it makes the same of it as
handling the event does. -/
structure Falters (first : Turn σ) (event : Event) (last : Pace) : Prop where
  regular : first.pace.Regular → last.Regular
  settles : (∀ sender message, event ≠ .received sender message) → first.Settles event last

theorem settles_of_same (hcalm : first.pace.Follows → ¬ first.server.Reassured event) :
    first.Settles event first.pace :=
  ⟨id, fun hfollows => .inr ⟨hfollows, hcalm hfollows, rfl, rfl⟩, fun hfollows _ _ => hfollows⟩

theorem not_reassured_of_ne (h : ∀ sender message, event ≠ .received sender message) :
    ¬ first.server.Reassured event := by
  rintro (_ | _)
  · exact h _ _ rfl
  · exact h _ _ rfl

theorem falters_of_same (hsame : pace = first.pace) : first.Falters event pace := by
  subst hsame
  exact ⟨id, fun hnone => settles_of_same fun _ => not_reassured_of_ne hnone⟩

/-- An event leaves a regular pace regular. -/
theorem Attends.regular (h : first.Attends event change pace) (hregular : first.pace.Regular) :
    (pace.enter change).Regular := by
  cases h with
  | passes => exact hregular
  | reassured hfollows =>
    refine ⟨hregular.lower_eq, hregular.upper_eq, hregular.ordered, fun _ => ?_⟩
    refine hregular.inBounds fun pending hcandidate => ?_
    unfold Pace.Follows at hfollows
    rw [hcandidate] at hfollows
    cases hfollows
  | called _ hlower hupper => exact hregular.campaign hlower hupper true
  | outdated => exact (hregular.with_term _).enter .follow
  | gaveWay => exact hregular.enter .follow
  | won => exact hregular.enter .lead
  | waits => exact hregular.campaign rfl rfl true
  | leads => exact hregular.restart first.pace.role

/-- A follower is left unless its timer has run out, or it is told to call an election. -/
theorem Attends.follows (h : first.Attends event change pace) (hfollows : first.pace.Follows)
    (hearly : event ≠ .timerRanOut) (hunsummoned : ¬ first.server.Summoned event) :
    (pace.enter change).Follows := by
  cases h with
  | passes => exact hfollows
  | reassured _ _ hrole => exact hrole
  | called hcause =>
    rcases hcause with hevent | hsummoned
    · exact absurd hevent hearly
    · exact absurd hsummoned hunsummoned
  | outdated => exact rfl
  | gaveWay _ hother => exact absurd hfollows hother
  | won hother | waits hother | leads hother => exact absurd hfollows hother

/-- An event that does not make the server a follower is handled at one look. -/
theorem Attends.settles (h : first.Attends event change pace) (honce : change ≠ .follow) :
    first.Settles event (pace.enter change) := by
  refine ⟨h.regular, fun hlast => ?_, h.follows⟩
  cases h with
  | passes hcalm => exact .inr ⟨hlast, hcalm hlast, rfl, rfl⟩
  | reassured hfollows hreassured => exact .inl ⟨.inl ⟨hfollows, hreassured⟩, rfl⟩
  | outdated | gaveWay => exact absurd rfl honce
  | leads hother => exact absurd hlast hother
  | called | won | waits => cases hlast

/-- An event does not take the term back. -/
theorem Attends.term_le (h : first.Attends event change pace) : first.pace.term ≤ pace.term := by
  cases h with
  | outdated _ hnewer => exact Int.le_of_lt hnewer
  | _ => exact Int.le_refl _

/-- A follower that counts from now still does when it has looked at an event. -/
theorem Attends.fresh (h : first.Attends event change pace) (hfollows : first.pace.Follows)
    (hfresh : first.pace.timer.start = first.now) (hlast : (pace.enter change).Follows) :
    (pace.enter change).timer.start = first.now := by
  cases h with
  | passes => exact hfresh
  | reassured => rfl
  | called => cases hlast
  | outdated => rfl
  | gaveWay _ hother => exact absurd hfollows hother
  | won hother | waits hother | leads hother => exact absurd hfollows hother

/-- Only what was received makes a server follow. -/
theorem Attends.received (h : first.Attends event .follow pace) :
    ∃ sender message, event = .received sender message := by
  cases h with
  | outdated hevent => exact ⟨_, _, hevent⟩
  | gaveWay hevent => exact ⟨_, _, hevent⟩

/-- An event that makes the server a follower is looked at by the follower, too. -/
theorem Attends.settles_again (h : first.Attends event .follow pace)
    (hmiddle : middle.pace = pace.enter .follow) (hagain : middle.Attends event again final) :
    first.Settles event (final.enter again) := by
  have hfollows : middle.pace.Follows := hmiddle ▸ rfl
  have hnow : pace.now = first.now := by
    cases h <;> rfl
  have hsame_now : middle.now = first.now :=
    (congrArg Pace.now hmiddle).trans hnow
  have hfresh : middle.pace.timer.start = middle.now := by
    rw [hmiddle, hsame_now]
    exact hnow
  have hterm : pace.term ≤ (final.enter again).term := by
    rw [Pace.term_enter]
    exact Int.le_trans (Int.le_of_eq (congrArg Pace.term hmiddle).symm) hagain.term_le
  refine ⟨fun hregular => hagain.regular (hmiddle ▸ h.regular hregular), fun hlast => ?_, ?_⟩
  · refine .inl ⟨.inr ?_, (hagain.fresh hfollows hfresh hlast).trans hsame_now⟩
    cases h with
    | outdated _ hnewer => exact .inr (Int.lt_of_lt_of_le hnewer hterm)
    | gaveWay _ hother => exact .inl hother
  · intro hfollowed hearly hunsummoned
    refine hagain.follows hfollows hearly ?_
    rintro ⟨hself, hnewest⟩
    cases h with
    | outdated _ hnewer =>
      have hterm_middle := congrArg Pace.term hmiddle
      have hid : middle.server.id = first.server.id :=
        congrArg (fun pace : Pace => pace.config.serverId) hmiddle
      refine hunsummoned (.intro (hself.trans hid) (Int.le_trans (Int.le_of_lt hnewer) ?_))
      exact Int.le_trans (Int.le_of_eq hterm_middle.symm) hnewest
    | gaveWay _ hother => exact absurd hfollowed hother

end Turn

namespace Action

variable {turn : Turn σ} {event : Event}

/-- A vote leaves the pace alone. -/
theorem Votes.pace_eq {candidate : ServerId} {voted : Server σ}
    (hvotes : turn.server.Votes candidate voted) : voted.pace turn.now = turn.pace := by
  rcases hvotes with ⟨_, rfl⟩ | ⟨_, durable, hvote, rfl⟩
  · rfl
  · obtain ⟨store, _, rfl⟩ := map_eq_ok.mp hvote
    rfl

/-- A part that keeps the pace comes to nothing for the timer. -/
theorem attends_bind {α : Type} {action : Action σ α} {rest : α → Action σ RoleChange}
    {done : RoleChange → Turn σ → Prop} (haction : action.KeepsPace)
    (hrest : ∀ answer last, last.pace = turn.pace →
      (rest answer).Ends done (fun last => turn.Falters event last.pace) last) :
    (action >>= rest).Ends done (fun last => turn.Falters event last.pace) turn := by
  rw [ends_bind]
  exact (haction turn).imp hrest fun last hlast => Turn.falters_of_same hlast

/-- A follower attends to every event. -/
theorem followerEvent_attends {leader : Option ServerId}
    (hrole : turn.server.role = .follower leader) :
    (followerEvent event).Ends (fun change last => turn.Attends event change last.pace)
      (fun last => turn.Falters event last.pace) turn := by
  have hfollows : turn.pace.Follows := congrArg Role.isFollower hrole
  unfold followerEvent
  rw [ends_bind, ends_server]
  cases event with
  | timerRanOut => exact .called (.inl rfl) rfl rfl
  | submitted command => exact .passes fun _ => by rintro ⟨⟩
  | received sender message =>
    cases message with
    | appendRequest request =>
      have hanswer : (answerAppendRequest sender request : Action σ Unit).KeepsPace :=
        keepsPace_answerAppendRequest sender request
      refine ends_ite (fun hterm => ?_) fun hother => ?_
      · have hattends : turn.Attends (.received sender (.appendRequest request)) .stay
            { turn.pace with
              role := .follower (some request.leaderId)
              timer := turn.pace.timer.reset turn.now } :=
          .reassured hfollows (.heard hterm) rfl
        simp only [ends_bind, ends_modifyTimer, ends_setRole]
        apply (hanswer _).imp
        · intro _ last hlast
          rw [ends_pure, hlast]
          exact hattends
        · intro last hlast
          rw [hlast]
          exact ⟨hattends.regular, fun hnone => absurd rfl (hnone _ _)⟩
      · refine attends_bind hanswer fun _ last hlast => ?_
        rw [ends_pure, hlast]
        refine .passes fun _ => ?_
        rintro ⟨hterm⟩
        exact hother hterm
    | voteRequest request =>
      dsimp only
      rw [ends_bind]
      refine ends_answerVoteRequest ?_ ?_ ?_
      · intro voted hgrants hvotes
        have hattends : turn.Attends (.received sender (.voteRequest request)) .stay
            { turn.pace with timer := turn.pace.timer.reset turn.now } :=
          .reassured hfollows (.granted hgrants) hfollows
        rw [← Votes.pace_eq hvotes] at hattends
        rw [if_pos rfl, ends_bind, ends_modifyTimer, ends_pure]
        exact hattends
      · intro hrefused
        refine .passes fun _ => ?_
        rintro (_ | hgrants)
        exact hrefused hgrants
      · exact fun _ _ _ => Turn.falters_of_same rfl
    | timeoutNow request =>
      refine ends_ite (fun hself => ?_) fun _ => ?_
      · exact .called (.inr (.intro hself.1 (Int.le_of_eq hself.2.symm))) rfl rfl
      · exact .passes fun _ => by rintro ⟨⟩
    | voteResponse response => exact .passes fun _ => by rintro ⟨⟩
    | appendResponse response => exact .passes fun _ => by rintro ⟨⟩

section Others

variable (hother : ¬ turn.pace.Follows)
include hother

theorem stay_attends {last : Turn σ} (hlast : last.pace = turn.pace) :
    (return .stay : Action σ RoleChange).Ends
      (fun change last => turn.Attends event change last.pace)
      (fun last => turn.Falters event last.pace) last := by
  rw [ends_pure, hlast]
  exact .passes fun hfollows => absurd hfollows hother

/-- A role other than a follower's gives itself up with its vote. -/
theorem grantVote_attends (sender : ServerId) (request : VoteRequest) :
    (do if ← answerVoteRequest sender request then return .follow else return .stay :
      Action σ RoleChange).Ends
      (fun change last =>
        turn.Attends (.received sender (.voteRequest request)) change last.pace)
      (fun last => turn.Falters (.received sender (.voteRequest request)) last.pace) turn := by
  refine attends_bind (keepsPace_answerVoteRequest sender request) fun granted last hlast => ?_
  refine ends_ite (fun _ => ?_) fun _ => stay_attends hother hlast
  rw [ends_pure, hlast]
  exact .gaveWay rfl hother

/-- A candidate attends to every event. -/
theorem candidateEvent_attends :
    (candidateEvent event).Ends (fun change last => turn.Attends event change last.pace)
      (fun last => turn.Falters event last.pace) turn := by
  unfold candidateEvent
  rw [ends_bind, ends_server]
  cases event with
  | timerRanOut => exact .waits hother
  | submitted command => exact stay_attends hother rfl
  | received sender message =>
    cases message with
    | appendRequest request =>
      refine ends_ite (fun _ => .gaveWay rfl hother) fun _ => ?_
      exact attends_bind (keepsPace_refuseAppend sender) fun _ _ hlast => stay_attends hother hlast
    | voteRequest request => exact grantVote_attends hother sender request
    | voteResponse response =>
      refine attends_bind (keepsPace_countVote sender response) fun counted last hlast => ?_
      rw [ends_bind, ends_server]
      refine ends_ite (fun _ => ?_) fun _ => stay_attends hother hlast
      rw [ends_pure, hlast]
      exact .won hother
    | appendResponse response => exact stay_attends hother rfl
    | timeoutNow request => exact stay_attends hother rfl

/-- A leader attends to every event. -/
theorem leaderEvent_attends :
    (leaderEvent event).Ends (fun change last => turn.Attends event change last.pace)
      (fun last => turn.Falters event last.pace) turn := by
  unfold leaderEvent
  rw [ends_bind, ends_server]
  cases event with
  | timerRanOut => exact .leads hother
  | submitted command =>
    exact attends_bind (keepsPace_appendCommand command) fun _ _ hlast => stay_attends hother hlast
  | received sender message =>
    cases message with
    | appendRequest request =>
      exact attends_bind (keepsPace_refuseAppend sender) fun _ _ hlast => stay_attends hother hlast
    | appendResponse response =>
      refine ends_ite (fun _ => ?_) fun _ => stay_attends hother rfl
      exact attends_bind (keepsPace_takeAppendResponse response)
        fun _ _ hlast => stay_attends hother hlast
    | voteRequest request => exact grantVote_attends hother sender request
    | voteResponse response =>
      exact attends_bind (keepsPace_countVote sender response)
        fun _ _ hlast => stay_attends hother hlast
    | timeoutNow request => exact stay_attends hother rfl

end Others

theorem roleEvent_attends :
    (roleEvent event).Ends (fun change last => turn.Attends event change last.pace)
      (fun last => turn.Falters event last.pace) turn := by
  have hfollows : turn.pace.Follows ↔ turn.server.role.isFollower = true := Iff.rfl
  unfold roleEvent
  rw [ends_bind, ends_server]
  cases hrole : turn.server.role with
  | follower leader => exact followerEvent_attends hrole
  | candidate pending => exact candidateEvent_attends (by simp [hfollows, hrole, Role.isFollower])
  | leader nextHeartbeat => exact leaderEvent_attends (by simp [hfollows, hrole, Role.isFollower])

/-- A server of any role attends to every event, also to one of a newer term. -/
theorem handle_attends :
    (handle event).Ends (fun change last => turn.Attends event change last.pace)
      (fun last => turn.Falters event last.pace) turn := by
  cases event with
  | timerRanOut => exact roleEvent_attends
  | submitted command => exact roleEvent_attends
  | received sender message =>
    by_cases hnewer : turn.server.term < message.term
    · refine ends_handle_of_newer hnewer (fun durable hmoved => ?_) fun _ _ =>
        Turn.falters_of_same rfl
      have hpace : Turn.pace { turn with server := { turn.server with durable } } =
          { turn.pace with term := message.term } := by
        rw [← Durable.term_of_moveTo hnewer hmoved]
        rfl
      rw [hpace]
      exact .outdated rfl hnewer
    · exact ends_handle_of_current (Int.not_lt.mp hnewer) roleEvent_attends

theorem ends_enter_pace (change : RoleChange) {failed : Turn σ → Prop} :
    (enter change).Ends (fun _ last => last.pace = turn.pace.enter change) failed turn := by
  cases change <;> rfl

/-! ## Whole calls -/

/-- A reaction settles the pace, its replay included. -/
theorem react_settles :
    (react event).Ends (fun _ last => turn.Settles event last.pace)
      (fun last => turn.Falters event last.pace) turn := by
  unfold react
  rw [ends_bind]
  apply handle_attends.mono
  intro change looked hattends
  rw [ends_bind]
  apply (ends_enter_pace change).mono
  intro _ entered hentered
  refine ends_ite (fun hfollow => ?_) fun honce => ?_
  · subst hfollow
    rw [ends_bind]
    apply handle_attends.imp
    · intro again final hagain
      apply (ends_enter_pace again).mono
      intro _ last hlast
      rw [hlast]
      exact hattends.settles_again hentered hagain
    · intro last hfalters
      refine ⟨fun hregular => hfalters.regular (hentered ▸ hattends.regular hregular), ?_⟩
      intro hnone
      obtain ⟨sender, message, hevent⟩ := hattends.received
      exact absurd hevent (hnone sender message)
  · rw [ends_pure, hentered]
    exact hattends.settles honce

/-- An event settles the pace, and what is applied after it leaves the pace alone. -/
theorem dispatch_settles :
    (dispatch event).Ends (fun _ last => turn.Settles event last.pace)
      (fun last => turn.Falters event last.pace) turn := by
  rw [dispatch_eq, ends_bind]
  apply react_settles.mono
  intro _ worked hsettles
  apply (keepsPace_applyCommitted worked).imp
  · exact fun _ last hlast => hlast ▸ hsettles
  · exact fun last hlast => hlast ▸ ⟨hsettles.regular, fun _ => hsettles⟩

/-! ## Duties -/

section Duties

variable {earlier : Pace} (h : earlier.Apart turn.pace)
include h

omit [Store σ] in
theorem KeepsPace.apart {α : Type} {action : Action σ α} (haction : action.KeepsPace) :
    action.Ends (fun _ last => earlier.Apart last.pace) (fun last => earlier.Apart last.pace)
      turn :=
  (haction turn).imp (fun _ _ hlast => hlast ▸ h) fun _ hlast => hlast ▸ h

theorem sendHeartbeats_apart {due : Duration} (hleads : turn.server.role = .leader due)
    (nextHeartbeat : Duration) :
    (sendHeartbeats nextHeartbeat).Ends (fun _ last => earlier.Apart last.pace)
      (fun last => earlier.Apart last.pace) turn := by
  unfold sendHeartbeats
  rw [ends_bind, ends_now]
  refine ends_ite (fun _ => ?_) fun _ => h
  rw [ends_bind, ends_server, ends_bind, ends_setRole]
  refine KeepsPace.apart ?_ (keepsPace_forM keepsPace_sendAppend)
  refine ⟨fun hregular => ?_, Bool.false_ne_true⟩
  have hpresent := h.regular hregular
  refine ⟨hpresent.lower_eq, hpresent.upper_eq, hpresent.ordered, fun _ => ?_⟩
  refine hpresent.inBounds fun pending hcandidate => ?_
  have hrole : turn.server.role = .candidate pending := hcandidate
  cases hleads.symm.trans hrole

/-- Who has started an election does not follow. -/
theorem startElection_apart :
    startElection.Ends (fun _ last => earlier.Apart last.pace)
      (fun last => earlier.Apart last.pace) turn := by
  unfold startElection
  rw [ends_bind, ends_server, ends_bind]
  refine ends_changeDurable (fun durable _ => ?_) h
  simp only [ends_bind, ends_server, ends_modifyProgress, ends_modifyTimer]
  refine KeepsPace.apart ?_ (keepsPace_forM fun _ => keepsPace_post _ _)
  refine ⟨fun hregular => ?_, h.follows⟩
  exact ((h.regular hregular).with_term durable.term).restart turn.server.role

/-- Who has campaigned does not follow. -/
theorem campaign_apart (electionPending : Bool) :
    (campaign electionPending).Ends (fun _ last => earlier.Apart last.pace)
      (fun last => earlier.Apart last.pace) turn := by
  unfold campaign
  refine ends_ite (fun _ => ?_) fun _ => h
  rw [ends_bind, ends_setRole, ends_bind]
  have hcandidate : earlier.Apart
      (Turn.pace { turn with server := { turn.server with role := .candidate false } }) :=
    ⟨fun hregular => (h.regular hregular).campaign rfl rfl false, Bool.false_ne_true⟩
  apply (startElection_apart hcandidate).mono
  intro _ opened hopened
  rw [ends_bind, ends_server]
  refine ends_ite (fun _ => ?_) fun _ => hopened
  rw [ends_bind]
  apply (ends_enter_pace .lead).mono
  intro _ elected helected
  rw [ends_bind, ends_now]
  have hleads : elected.server.role = .leader opened.now := congrArg Pace.role helected
  refine sendHeartbeats_apart ⟨fun hregular => ?_, ?_⟩ hleads _
  · rw [helected]
    exact (hopened.regular hregular).enter .lead
  · rw [helected]
    exact Bool.false_ne_true

end Duties

/-- Nobody becomes a follower over the duties of a role. -/
theorem duties_works :
    duties.Ends (fun _ last => turn.pace.Works last.pace) (fun last => turn.pace.Works last.pace)
      turn := by
  have hfollows : turn.pace.Follows ↔ turn.server.role.isFollower = true := Iff.rfl
  unfold duties
  rw [ends_bind, ends_server]
  cases hrole : turn.server.role with
  | follower leader => exact ⟨id, fun _ => rfl⟩
  | candidate pending =>
    have hother : ¬ turn.pace.Follows := by simp [hfollows, hrole, Role.isFollower]
    exact (campaign_apart ⟨id, hother⟩ pending).imp (fun _ _ hlast => hlast.works hother)
      fun _ hlast => hlast.works hother
  | leader due =>
    have hother : ¬ turn.pace.Follows := by simp [hfollows, hrole, Role.isFollower]
    exact (sendHeartbeats_apart ⟨id, hother⟩ hrole due).imp
      (fun _ _ hlast => hlast.works hother) fun _ hlast => hlast.works hother

theorem perform_works :
    perform.Ends (fun _ last => turn.pace.Works last.pace) (fun last => turn.pace.Works last.pace)
      turn := by
  unfold perform
  rw [ends_bind]
  apply duties_works.mono
  intro _ worked hworked
  exact (keepsPace_applyCommitted worked).imp (fun _ _ hlast => hlast ▸ hworked)
    fun _ hlast => hlast ▸ hworked

end Action

end Consensus
