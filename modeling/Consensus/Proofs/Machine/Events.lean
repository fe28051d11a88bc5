import Consensus.Machine.Operations
import Consensus.Proofs.Machine.Handlers

/-! # Calls in step

An event adds at most one entry, and none before a change to follower that has it handled once
more. With room for one entry, a call to a machine is therefore answered as a call to its server.
-/

namespace Consensus

variable {σ τ : Type} [Store σ] [Transport τ] {outbox : Outbox τ} {arithmetic : Arithmetic}
variable {spare : Nat} {turn : Turn σ}

/-! ## Events -/

/-- There is room for the sums, and still for an entry if the event is to be handled again. -/
structure Turn.Leaves (arithmetic : Arithmetic) (spare : Nat) (change : RoleChange)
    (turn : Turn σ) : Prop where
  roomy : turn.Roomy arithmetic spare
  again : change = .follow → turn.Roomy arithmetic (spare + 1)

theorem Turn.Roomy.stay (h : turn.Roomy arithmetic spare) :
    turn.Leaves arithmetic spare .stay :=
  ⟨h, fun hfollow => RoleChange.noConfusion hfollow⟩

theorem Turn.Roomy.leaves (h : turn.Roomy arithmetic (spare + 1)) (change : RoleChange) :
    turn.Leaves arithmetic spare change :=
  ⟨h.fewer, fun _ => h⟩

/-- The role and the timer take up no room. -/
theorem Turn.Roomy.aside (h : turn.Roomy arithmetic spare) (role : Role) (timer : Countdown) :
    Turn.Roomy arithmetic spare
      { turn with server := { turn.server with role, timer } } :=
  Room.of_same h rfl rfl rfl rfl

theorem followerEvent_inStep (h : turn.Roomy arithmetic (spare + 1)) (event : Event) :
    InStep outbox (Work.followerEvent arithmetic event) (Action.followerEvent event)
      (Turn.Leaves arithmetic spare) turn := by
  unfold Work.followerEvent Action.followerEvent
  rw [inStep_server]
  cases event with
  | timerRanOut => exact inStep_pure (h.leaves _)
  | submitted command => exact inStep_pure (h.leaves _)
  | received sender message =>
    cases message with
    | appendRequest request =>
      refine inStep_ite (fun _ => ?_) fun _ => ?_
      · have hheard := h.aside (.follower (some request.leaderId))
          (turn.server.timer.reset turn.now)
        apply inStep_bind
        apply inStep_modifyTimer
        apply inStep_bind
        apply inStep_setRole
        apply inStep_bind
        apply (answerAppendRequest_inStep hheard sender request).mono
        exact fun _ _ hlast => inStep_pure (Turn.Roomy.stay hlast)
      · apply inStep_bind
        apply (answerAppendRequest_inStep h sender request).mono
        exact fun _ _ hlast => inStep_pure (Turn.Roomy.stay hlast)
    | voteRequest request =>
      apply inStep_bind
      apply (answerVoteRequest_inStep h sender request).mono
      intro granted last hlast
      refine inStep_ite (fun _ => ?_) fun _ => inStep_pure (hlast.leaves _)
      apply inStep_bind
      refine inStep_modifyTimer (inStep_pure ?_)
      exact (hlast.aside _ _).leaves _
    | timeoutNow request =>
      refine inStep_ite (fun _ => ?_) fun _ => inStep_pure (h.leaves _)
      apply inStep_bind
      refine inStep_modifyTimer (inStep_pure ?_)
      exact (h.aside _ _).leaves _
    | voteResponse response => exact inStep_pure (h.leaves _)
    | appendResponse response => exact inStep_pure (h.leaves _)

theorem candidateEvent_inStep (h : turn.Roomy arithmetic (spare + 1)) (event : Event) :
    InStep outbox (Work.candidateEvent arithmetic event) (Action.candidateEvent event)
      (Turn.Leaves arithmetic spare) turn := by
  unfold Work.candidateEvent Action.candidateEvent
  rw [inStep_server]
  cases event with
  | timerRanOut =>
    apply inStep_bind
    refine inStep_setRole (inStep_pure ?_)
    exact (h.aside _ _).leaves _
  | submitted command => exact inStep_pure (h.leaves _)
  | received sender message =>
    cases message with
    | appendRequest request =>
      refine inStep_ite (fun _ => inStep_pure (h.leaves _)) fun _ => ?_
      apply inStep_bind
      apply (refuseAppend_inStep h sender).mono
      exact fun _ _ hlast => inStep_pure (hlast.leaves _)
    | voteRequest request =>
      apply inStep_bind
      apply (answerVoteRequest_inStep h sender request).mono
      exact fun _ _ hlast => inStep_ite (fun _ => inStep_pure (hlast.leaves _))
        fun _ => inStep_pure (hlast.leaves _)
    | voteResponse response =>
      apply inStep_bind
      apply (countVote_inStep h sender response).mono
      intro counted last hlast
      rw [inStep_server]
      exact inStep_ite (fun _ => inStep_pure (hlast.leaves _))
        fun _ => inStep_pure (hlast.leaves _)
    | appendResponse response => exact inStep_pure (h.leaves _)
    | timeoutNow request => exact inStep_pure (h.leaves _)

theorem leaderEvent_inStep (h : turn.Roomy arithmetic (spare + 1)) (event : Event) :
    InStep outbox (Work.leaderEvent arithmetic event) (Action.leaderEvent event)
      (Turn.Leaves arithmetic spare) turn := by
  unfold Work.leaderEvent Action.leaderEvent
  rw [inStep_server]
  cases event with
  | timerRanOut =>
    apply inStep_bind
    refine inStep_modifyTimer (inStep_pure ?_)
    exact (h.aside _ _).leaves _
  | submitted command =>
    apply inStep_bind
    apply (appendCommand_inStep h command).mono
    exact fun _ _ hlast => inStep_pure (Turn.Roomy.stay hlast)
  | received sender message =>
    cases message with
    | appendRequest request =>
      apply inStep_bind
      apply (refuseAppend_inStep h sender).mono
      exact fun _ _ hlast => inStep_pure (hlast.leaves _)
    | appendResponse response =>
      refine inStep_ite (fun _ => ?_) fun _ => inStep_pure (h.leaves _)
      apply inStep_bind
      apply (takeAppendResponse_inStep h response).mono
      exact fun _ _ hlast => inStep_pure (hlast.leaves _)
    | voteRequest request =>
      apply inStep_bind
      apply (answerVoteRequest_inStep h sender request).mono
      exact fun _ _ hlast => inStep_ite (fun _ => inStep_pure (hlast.leaves _))
        fun _ => inStep_pure (hlast.leaves _)
    | voteResponse response =>
      apply inStep_bind
      apply (countVote_inStep h sender response).mono
      exact fun _ _ hlast => inStep_pure (hlast.leaves _)
    | timeoutNow request => exact inStep_pure (h.leaves _)

theorem roleEvent_inStep (h : turn.Roomy arithmetic (spare + 1)) (event : Event) :
    InStep outbox (Work.roleEvent arithmetic event) (Action.roleEvent event)
      (Turn.Leaves arithmetic spare) turn := by
  unfold Work.roleEvent Action.roleEvent
  rw [inStep_server]
  cases turn.server.role with
  | follower leader => exact followerEvent_inStep h event
  | candidate electionPending => exact candidateEvent_inStep h event
  | leader nextHeartbeat => exact leaderEvent_inStep h event

theorem handle_inStep (h : turn.Roomy arithmetic (spare + 1)) (event : Event) :
    InStep outbox (Work.handle arithmetic event) (Action.handle event)
      (Turn.Leaves arithmetic spare) turn := by
  unfold Work.handle Action.handle
  cases event.term? with
  | none => exact roleEvent_inStep h event
  | some term =>
    dsimp only
    rw [inStep_server]
    refine inStep_ite (fun hnewer => ?_) fun _ => roleEvent_inStep h event
    apply inStep_bind
    refine inStep_changeDurable rfl fun durable hmove => inStep_pure ?_
    have hrecord : turn.server.durable.record term none = .ok durable :=
      (if_neg (Int.not_le.mpr hnewer)).symm.trans hmove
    have hmoved : Turn.Roomy arithmetic (spare + 1)
        { turn with server := { turn.server with durable } } := Room.record h hrecord
    exact hmoved.leaves _

/-! ## Changes of role -/

theorem becomeFollower_inStep (h : turn.Roomy arithmetic spare) :
    InStep outbox (Work.becomeFollower : Work σ τ Unit) Action.becomeFollower
      (fun _ => Turn.Roomy arithmetic spare) turn :=
  ⟨Room.clear h _ _ _, rfl⟩

theorem becomeCandidate_inStep (h : turn.Roomy arithmetic spare) :
    InStep outbox (Work.becomeCandidate : Work σ τ Unit) Action.becomeCandidate
      (fun _ => Turn.Roomy arithmetic spare) turn :=
  ⟨Room.clear h _ _ _, rfl⟩

theorem becomeLeader_inStep (h : turn.Roomy arithmetic spare) :
    InStep outbox (Work.becomeLeader : Work σ τ Unit) Action.becomeLeader
      (fun _ => Turn.Roomy arithmetic spare) turn :=
  ⟨(Room.reset h turn.server.config.peerIds).of_same rfl rfl rfl rfl, rfl⟩

theorem enter_inStep (h : turn.Roomy arithmetic spare) (change : RoleChange) :
    InStep outbox (Work.enter change : Work σ τ Unit) (Action.enter change)
      (fun _ => Turn.Roomy arithmetic spare) turn := by
  cases change with
  | stay => exact inStep_pure h
  | follow => exact becomeFollower_inStep h
  | campaign => exact becomeCandidate_inStep h
  | lead => exact becomeLeader_inStep h

/-! ## Applying -/

theorem inStep_nextDue? (h : turn.Roomy arithmetic spare) {rest : Option Index → Work σ τ Unit}
    {action : Action σ Unit} {done : Unit → Turn σ → Prop} :
    InStep outbox (Work.nextDue? arithmetic >>= rest) action done turn ↔
      InStep outbox (rest turn.server.progress.nextDue?) action done turn := by
  unfold Work.nextDue?
  rw [bind_assoc, inStep_work_server, bind_assoc, inStep_form h.next_applied, pure_bind]
  exact Iff.rfl

/-- What is applied is the next entry, so there is no disorder. -/
theorem applyAt_inStep (h : turn.Roomy arithmetic spare)
    (hdue : turn.server.progress.lastApplied < turn.server.commitIndex) :
    InStep outbox (Work.applyAt arithmetic (turn.server.progress.lastApplied + 1))
      (Action.applyAt (turn.server.progress.lastApplied + 1))
      (fun _ => Turn.Roomy arithmetic spare) turn := by
  unfold Work.applyAt Action.applyAt
  rw [inStep_server]
  cases turn.server.log.read? (turn.server.progress.lastApplied + 1) with
  | none => exact inStep_fail _
  | some entry =>
    dsimp only
    cases Command.decode entry.command with
    | error cause => exact inStep_fail _
    | ok command =>
      apply inStep_bind
      apply inStep_modifyServer
      unfold Work.markApplied
      have hnext := h.next_applied
      rw [inStep_work_server, inStep_form hnext, if_pos rfl]
      exact inStep_modifyProgress (Room.markApplied h hdue _)

theorem applyNext_inStep (count : Nat) (h : turn.Roomy arithmetic spare) :
    InStep outbox (Work.applyNext arithmetic count) (Action.applyNext count)
      (fun _ => Turn.Roomy arithmetic spare) turn := by
  induction count generalizing turn with
  | zero =>
    unfold Work.applyNext Action.applyNext
    rw [inStep_nextDue? h]
    exact inStep_pure h
  | succ count ih =>
    unfold Work.applyNext Action.applyNext
    rw [inStep_nextDue? h, inStep_action_server]
    cases hnext : turn.server.progress.nextDue? with
    | none => exact inStep_pure h
    | some index =>
      unfold Progress.nextDue? at hnext
      split at hnext
      next hdue =>
        obtain rfl := Option.some.inj hnext
        apply inStep_bind
        apply (applyAt_inStep h hdue).mono
        exact fun _ _ hlast => ih hlast
      next => cases hnext

theorem applyCommitted_inStep (h : turn.Roomy arithmetic spare) :
    InStep outbox (Work.applyCommitted arithmetic) Action.applyCommitted
      (fun _ => Turn.Roomy arithmetic spare) turn := by
  unfold Work.applyCommitted Action.applyCommitted
  rw [inStep_server]
  exact applyNext_inStep _ h

/-! ## Dispatch -/

theorem dispatch_inStep (h : turn.Roomy arithmetic (spare + 1)) (event : Event) :
    InStep outbox (Work.dispatch arithmetic event) (Action.dispatch event)
      (fun _ => Turn.Roomy arithmetic spare) turn := by
  unfold Work.dispatch Action.dispatch
  apply inStep_bind
  apply (handle_inStep h event).mono
  rintro change handled ⟨hroomy, hagain⟩
  by_cases hfollow : change = .follow
  · apply inStep_bind
    apply (enter_inStep (hagain hfollow) change).mono
    intro _ entered hentered
    rw [if_pos hfollow, if_pos hfollow]
    apply inStep_bind
    apply (handle_inStep hentered event).mono
    rintro further _ ⟨hlast, _⟩
    apply inStep_bind
    apply (enter_inStep hlast further).mono
    exact fun _ _ hlast => applyCommitted_inStep hlast
  · apply inStep_bind
    apply (enter_inStep hroomy change).mono
    intro _ entered hentered
    rw [if_neg hfollow, if_neg hfollow]
    exact applyCommitted_inStep hentered

theorem campaign_inStep (h : turn.Roomy arithmetic spare)
    (hterm : arithmetic.nextTerm turn.server.term = Arithmetic.exact.nextTerm turn.server.term)
    (electionPending : Bool) :
    InStep outbox (Work.campaign arithmetic electionPending) (Action.campaign electionPending)
      (fun _ => Turn.Roomy arithmetic spare) turn := by
  unfold Work.campaign Action.campaign
  refine inStep_ite (fun _ => ?_) fun _ => inStep_pure h
  have hpending := h.aside (.candidate false) turn.server.timer
  apply inStep_bind
  apply inStep_setRole
  apply inStep_bind
  apply (startElection_inStep hpending hterm).mono
  intro _ started hstarted
  rw [inStep_server]
  refine inStep_ite (fun _ => ?_) fun _ => inStep_pure hstarted
  apply inStep_bind
  apply (becomeLeader_inStep hstarted).mono
  intro _ leading hleading
  rw [inStep_now]
  exact sendHeartbeats_inStep hleading _

theorem perform_inStep (h : turn.Roomy arithmetic spare)
    (hterm : arithmetic.nextTerm turn.server.term = Arithmetic.exact.nextTerm turn.server.term) :
    InStep outbox (Work.perform arithmetic) Action.perform
      (fun _ => Turn.Roomy arithmetic spare) turn := by
  have hduties : InStep outbox (Work.duties arithmetic) Action.duties
      (fun _ => Turn.Roomy arithmetic spare) turn := by
    unfold Work.duties Action.duties
    rw [inStep_server]
    cases turn.server.role with
    | follower leader => exact inStep_pure h
    | candidate electionPending => exact campaign_inStep h hterm electionPending
    | leader nextHeartbeat => exact sendHeartbeats_inStep h nextHeartbeat
  apply inStep_bind
  apply hduties.mono
  exact fun _ _ hlast => applyCommitted_inStep hlast

end Consensus
