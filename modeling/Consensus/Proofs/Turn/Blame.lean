import Consensus.Proofs.Turn.Action
import Consensus.Server.Operations

/-! # Blame

Whatever a peer sends to a server, the server can fail over it only because of its store.
-/

namespace Consensus

variable {σ α β : Type}

/-- If the action fails, it is the store that has failed. -/
def Action.BlamesStore (action : Action σ α) : Prop :=
  ∀ turn failure last, action.run turn = .error failure last → ∃ cause, failure = .storage cause

namespace Action

/-! ## Rules -/

theorem blamesStore_pure (answer : α) : (pure answer : Action σ α).BlamesStore :=
  fun _ _ _ hrun => nomatch hrun

theorem blamesStore_server : (Action.server : Action σ (Server σ)).BlamesStore :=
  fun _ _ _ hrun => nomatch hrun

theorem blamesStore_now : (Action.now : Action σ Duration).BlamesStore :=
  fun _ _ _ hrun => nomatch hrun

theorem blamesStore_modifyServer (change : Server σ → Server σ) :
    (modifyServer change).BlamesStore :=
  fun _ _ _ hrun => nomatch hrun

theorem blamesStore_setRole (role : Role) : (setRole role : Action σ Unit).BlamesStore :=
  blamesStore_modifyServer _

theorem blamesStore_modifyProgress (change : Progress → Progress) :
    (modifyProgress change : Action σ Unit).BlamesStore :=
  blamesStore_modifyServer _

theorem blamesStore_modifyTimer (change : Countdown → Duration → Countdown) :
    (modifyTimer change : Action σ Unit).BlamesStore :=
  fun _ _ _ hrun => nomatch hrun

theorem blamesStore_post (receiver : ServerId) (message : Message) :
    (post receiver message : Action σ Unit).BlamesStore :=
  fun _ _ _ hrun => nomatch hrun

theorem blamesStore_throw (cause : StorageFailure) :
    (throw (.storage cause) : Action σ α).BlamesStore := by
  rintro turn failure last ⟨⟩
  exact ⟨cause, rfl⟩

/-- Actions that fail only over the store do so one after the other. -/
theorem BlamesStore.bind {action : Action σ α} {rest : α → Action σ β} (h : action.BlamesStore)
    (hrest : ∀ answer, (rest answer).BlamesStore) : (action >>= rest).BlamesStore := by
  intro turn failure last hrun
  rw [EStateM.run_bind] at hrun
  cases hfirst : action.run turn with
  | ok answer middle =>
    rw [hfirst] at hrun
    exact hrest answer middle failure last hrun
  | error earlier middle =>
    rw [hfirst] at hrun
    obtain ⟨rfl, rfl⟩ := EStateM.Result.error.inj hrun
    exact h turn _ _ hfirst

theorem blamesStore_ite {p : Prop} [Decidable p] {first second : Action σ α}
    (hfirst : first.BlamesStore) (hsecond : second.BlamesStore) :
    (if p then first else second).BlamesStore := by
  split
  next => exact hfirst
  next => exact hsecond

/-- What is written into the store fails as the store does. -/
theorem blamesStore_changeDurable (change : Durable σ → Except StorageFailure (Durable σ)) :
    (changeDurable fun durable => (change durable).mapError .storage).BlamesStore := by
  refine blamesStore_server.bind fun server => ?_
  dsimp only
  cases change server.durable with
  | ok durable => exact blamesStore_modifyServer _
  | error cause => exact blamesStore_throw cause

/-! ## Messages -/

theorem blamesStore_answerAppend (receiver : ServerId) (successful : Bool) (index : Index) :
    (answerAppend receiver successful index : Action σ Unit).BlamesStore :=
  blamesStore_server.bind fun _ => blamesStore_post _ _

variable [Store σ]

theorem blamesStore_refuseAppend (receiver : ServerId) :
    (refuseAppend receiver : Action σ Unit).BlamesStore :=
  blamesStore_server.bind fun _ => blamesStore_answerAppend _ _ _

/-- An entry is taken over unless the store fails. -/
theorem blamesStore_takeEntry (entry : PlacedEntry) :
    (takeEntry entry : Action σ Unit).BlamesStore := by
  refine blamesStore_server.bind fun server => ?_
  refine (blamesStore_modifyServer _).bind fun _ => ?_
  split
  next => exact blamesStore_pure _
  next cause _ => exact blamesStore_throw cause

theorem blamesStore_acceptAppend (request : AppendRequest) :
    (acceptAppend request : Action σ Bool).BlamesStore := by
  have hfollow : (do followCommit request; return true : Action σ Bool).BlamesStore :=
    (blamesStore_modifyProgress _).bind fun _ => blamesStore_pure _
  unfold acceptAppend
  split
  next => exact hfollow
  next entry _ =>
    refine blamesStore_server.bind fun server => blamesStore_ite (blamesStore_pure _) ?_
    exact (blamesStore_takeEntry entry).bind fun _ => hfollow

/-- An append request is answered unless the store fails. -/
theorem blamesStore_answerAppendRequest (sender : ServerId) (request : AppendRequest) :
    (answerAppendRequest sender request : Action σ Unit).BlamesStore := by
  have hrefuse : (refuseAppend sender : Action σ Unit).BlamesStore :=
    blamesStore_refuseAppend sender
  refine blamesStore_server.bind fun server => blamesStore_ite hrefuse ?_
  split
  next => exact hrefuse
  next =>
    refine BlamesStore.bind ?_ fun _ => hrefuse
    refine blamesStore_server.bind fun server => blamesStore_ite ?_ (blamesStore_pure _)
    exact blamesStore_changeDurable _
  next =>
    refine (blamesStore_acceptAppend request).bind fun accepted => ?_
    exact blamesStore_ite (blamesStore_answerAppend _ _ _) hrefuse

/-- A vote request is answered unless the store fails. -/
theorem blamesStore_answerVoteRequest (sender : ServerId) (request : VoteRequest) :
    (answerVoteRequest sender request : Action σ Bool).BlamesStore := by
  have hanswer : ∀ response granted,
      (do post sender (.voteResponse response); return granted : Action σ Bool).BlamesStore :=
    fun response granted => (blamesStore_post _ _).bind fun _ => blamesStore_pure _
  refine blamesStore_server.bind fun server => blamesStore_ite ?_ (hanswer _ _)
  refine blamesStore_ite ?_ (hanswer _ _)
  exact (blamesStore_changeDurable _).bind fun _ => hanswer _ _

omit [Store σ] in
theorem blamesStore_countVote (sender : ServerId) (response : VoteResponse) :
    (countVote sender response : Action σ Bool).BlamesStore := by
  refine blamesStore_server.bind fun server => blamesStore_ite ?_ (blamesStore_pure _)
  exact (blamesStore_modifyProgress _).bind fun _ => blamesStore_pure _

theorem blamesStore_sendAppend (peer : ServerId) :
    (sendAppend peer : Action σ Unit).BlamesStore := by
  refine blamesStore_server.bind fun before => ?_
  split
  next => exact blamesStore_pure _
  next =>
    refine (blamesStore_modifyProgress _).bind fun _ => blamesStore_server.bind fun server => ?_
    split
    next => exact blamesStore_pure _
    next => exact blamesStore_post _ _

theorem blamesStore_raiseCommit : (raiseCommit : Action σ Unit).BlamesStore :=
  blamesStore_server.bind fun _ =>
    blamesStore_ite (blamesStore_modifyProgress _) (blamesStore_pure _)

/-- A leader takes a response unless its store fails. -/
theorem blamesStore_takeAppendResponse (response : AppendResponse) :
    (takeAppendResponse response : Action σ Unit).BlamesStore := by
  refine blamesStore_server.bind fun server => ?_
  split
  next => exact blamesStore_pure _
  next =>
    refine blamesStore_ite ?_ ?_
    · refine blamesStore_server.bind fun server => (blamesStore_modifyProgress _).bind fun _ => ?_
      refine blamesStore_raiseCommit.bind fun _ => ?_
      exact blamesStore_ite (blamesStore_sendAppend _) (blamesStore_pure _)
    · exact (blamesStore_modifyProgress _).bind fun _ => blamesStore_sendAppend _

/-! ## Events -/

variable {event : Event}

/-- A role that grants its vote gives itself up. -/
theorem blamesStore_grantVote (sender : ServerId) (request : VoteRequest) :
    (do if ← answerVoteRequest sender request then return .follow else return .stay :
      Action σ RoleChange).BlamesStore :=
  (blamesStore_answerVoteRequest _ _).bind fun _ =>
    blamesStore_ite (blamesStore_pure _) (blamesStore_pure _)

/-- A follower handles every event unless its store fails. -/
theorem blamesStore_followerEvent : (followerEvent event : Action σ RoleChange).BlamesStore := by
  have hstay : (return .stay : Action σ RoleChange).BlamesStore := blamesStore_pure _
  refine blamesStore_server.bind fun server => ?_
  split
  next => exact blamesStore_pure _
  next => exact hstay
  next sender request =>
    have hanswer : (do answerAppendRequest sender request; return .stay :
        Action σ RoleChange).BlamesStore :=
      (blamesStore_answerAppendRequest sender request).bind fun _ => hstay
    refine blamesStore_ite ?_ hanswer
    exact (blamesStore_modifyTimer _).bind fun _ => (blamesStore_setRole _).bind fun _ => hanswer
  next sender request =>
    refine (blamesStore_answerVoteRequest sender request).bind fun granted => ?_
    exact blamesStore_ite ((blamesStore_modifyTimer _).bind fun _ => hstay) hstay
  next request =>
    exact blamesStore_ite ((blamesStore_modifyTimer _).bind fun _ => blamesStore_pure _) hstay
  next => exact hstay
  next => exact hstay

theorem blamesStore_candidateEvent :
    (candidateEvent event : Action σ RoleChange).BlamesStore := by
  have hstay : (return .stay : Action σ RoleChange).BlamesStore := blamesStore_pure _
  refine blamesStore_server.bind fun server => ?_
  split
  next => exact (blamesStore_setRole _).bind fun _ => hstay
  next => exact hstay
  next sender request =>
    exact blamesStore_ite (blamesStore_pure _) ((blamesStore_refuseAppend _).bind fun _ => hstay)
  next sender request => exact blamesStore_grantVote sender request
  next sender response =>
    refine (blamesStore_countVote sender response).bind fun counted => ?_
    exact blamesStore_server.bind fun server => blamesStore_ite (blamesStore_pure _) hstay
  next => exact hstay
  next => exact hstay

/-- A leader handles every event but a submission unless its store fails. -/
theorem blamesStore_leaderEvent (hmessage : ∀ command, event ≠ .submitted command) :
    (leaderEvent event : Action σ RoleChange).BlamesStore := by
  have hstay : (return .stay : Action σ RoleChange).BlamesStore := blamesStore_pure _
  refine blamesStore_server.bind fun server => ?_
  split
  next => exact (blamesStore_modifyTimer _).bind fun _ => hstay
  next command => exact absurd rfl (hmessage command)
  next => exact (blamesStore_refuseAppend _).bind fun _ => hstay
  next =>
    exact blamesStore_ite ((blamesStore_takeAppendResponse _).bind fun _ => hstay) hstay
  next sender request => exact blamesStore_grantVote sender request
  next => exact (blamesStore_countVote _ _).bind fun _ => hstay
  next => exact hstay

/-- Whatever its role, a server handles every event but a submission unless its store fails. -/
theorem blamesStore_handle (hmessage : ∀ command, event ≠ .submitted command) :
    (handle event : Action σ RoleChange).BlamesStore := by
  have hrole : (roleEvent event : Action σ RoleChange).BlamesStore := by
    refine blamesStore_server.bind fun server => ?_
    split
    next => exact blamesStore_followerEvent
    next => exact blamesStore_candidateEvent
    next => exact blamesStore_leaderEvent hmessage
  unfold handle
  split
  next => exact hrole
  next term _ =>
    refine blamesStore_server.bind fun server => blamesStore_ite ?_ hrole
    exact (blamesStore_changeDurable _).bind fun _ => blamesStore_pure _

theorem blamesStore_enter (change : RoleChange) : (enter change : Action σ Unit).BlamesStore := by
  cases change with
  | stay => exact blamesStore_pure _
  | follow =>
    exact (blamesStore_setRole _).bind fun _ => (blamesStore_modifyTimer _).bind fun _ =>
      blamesStore_modifyProgress _
  | campaign => exact (blamesStore_setRole _).bind fun _ => blamesStore_modifyProgress _
  | lead =>
    exact blamesStore_server.bind fun _ => (blamesStore_modifyProgress _).bind fun _ =>
      blamesStore_now.bind fun _ => (blamesStore_setRole _).bind fun _ => blamesStore_modifyTimer _

/-- A committed entry that is gone, or is no command, is the fault of the store that held it. -/
theorem blamesStore_applyNext (count : Nat) : (applyNext count : Action σ Unit).BlamesStore := by
  induction count with
  | zero => exact blamesStore_pure _
  | succ count ih =>
    refine blamesStore_server.bind fun server => ?_
    split
    next => exact blamesStore_pure _
    next index _ =>
      refine BlamesStore.bind (blamesStore_server.bind fun server => ?_) fun _ => ih
      split
      next => exact blamesStore_throw _
      next =>
        split
        next => exact blamesStore_throw _
        next =>
          exact (blamesStore_modifyServer _).bind fun _ => blamesStore_modifyProgress _

theorem blamesStore_dispatch (hmessage : ∀ command, event ≠ .submitted command) :
    (dispatch event : Action σ Unit).BlamesStore := by
  have happly : (applyCommitted : Action σ Unit).BlamesStore :=
    blamesStore_server.bind fun _ => blamesStore_applyNext _
  refine (blamesStore_handle hmessage).bind fun change => ?_
  refine (blamesStore_enter change).bind fun _ => blamesStore_ite ?_ happly
  exact (blamesStore_handle hmessage).bind fun again => (blamesStore_enter again).bind fun _ =>
    happly

end Action

/-- A server fails over a frame, be it malformed or not, only if its store fails. -/
theorem Server.exists_storage_of_receive [Store σ] {server : Server σ} {now : Duration}
    {sender : ServerId} {frame : Bytes} {failure : Failure}
    (hfailed : (server.receive now sender frame).answer = .error failure) :
    ∃ cause, failure = .storage cause := by
  unfold receive at hfailed
  split at hfailed
  next =>
    split at hfailed
    next => cases hfailed
    next message _ =>
      have hblames : (Action.dispatch (.received sender message) : Action σ Unit).BlamesStore :=
        Action.blamesStore_dispatch fun _ => nofun
      unfold turn at hfailed
      split at hfailed
      next => cases hfailed
      next found last hrun =>
        obtain rfl := Except.error.inj hfailed
        exact hblames _ _ _ hrun
  next => cases hfailed

end Consensus
