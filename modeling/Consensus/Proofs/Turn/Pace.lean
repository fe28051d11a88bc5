import Consensus.Proofs.Results
import Consensus.Proofs.Turn.Action
import Consensus.Server.Events

/-! # Keeping the pace

When a server calls an election is decided by its role, its term and its timer. Whatever a server
does with the log, the votes and the followers it has, it keeps to the same pace.
-/

namespace Consensus

/-- What decides when a server calls an election, at a clock reading. -/
structure Pace where
  now : Duration
  config : Config
  role : Role
  term : Term
  timer : Countdown

variable {σ α β : Type}

def Server.pace (server : Server σ) (now : Duration) : Pace :=
  ⟨now, server.config, server.role, server.term, server.timer⟩

def Turn.pace (turn : Turn σ) : Pace := turn.server.pace turn.now

/-- The action leaves the pace as it is, also when it fails. -/
def Action.KeepsPace (action : Action σ α) : Prop :=
  ∀ turn : Turn σ,
    action.Ends (fun _ last => last.pace = turn.pace) (fun last => last.pace = turn.pace) turn

namespace Action

/-! ## Rules -/

theorem keepsPace_pure (answer : α) : (pure answer : Action σ α).KeepsPace := fun _ => rfl

theorem keepsPace_throw (failure : Failure) : (throw failure : Action σ α).KeepsPace :=
  fun _ => rfl

theorem keepsPace_post (receiver : ServerId) (message : Message) :
    (post receiver message : Action σ Unit).KeepsPace := fun _ => rfl

theorem keepsPace_modifyProgress (change : Progress → Progress) :
    (modifyProgress change : Action σ Unit).KeepsPace := fun _ => rfl

theorem keepsPace_server {rest : Server σ → Action σ α} (h : ∀ server, (rest server).KeepsPace) :
    (Action.server >>= rest).KeepsPace := fun turn => h turn.server turn

/-- Actions that keep the pace do so one after the other. -/
theorem KeepsPace.bind {action : Action σ β} {rest : β → Action σ α} (h : action.KeepsPace)
    (hrest : ∀ answer, (rest answer).KeepsPace) : (action >>= rest).KeepsPace := by
  intro turn
  rw [ends_bind]
  apply (h turn).mono
  intro answer middle hmiddle
  have hlast := hrest answer middle
  rwa [hmiddle] at hlast

theorem keepsPace_ite {p : Prop} [Decidable p] {first second : Action σ α}
    (hfirst : first.KeepsPace) (hsecond : second.KeepsPace) :
    (if p then first else second).KeepsPace := by
  split
  next => exact hfirst
  next => exact hsecond

/-- An action that keeps the pace for each item does so for all of them. -/
theorem keepsPace_forM {items : List β} {body : β → Action σ Unit}
    (hbody : ∀ item, (body item).KeepsPace) : (items.forM body).KeepsPace := by
  intro turn
  refine ends_forM (fun last => last.pace = turn.pace) (fun item _ last hlast => ?_) rfl
  have hnext := hbody item last
  rwa [hlast] at hnext

/-- What is written in the same term does not matter. -/
theorem keepsPace_changeDurable {change : Durable σ → Except Failure (Durable σ)}
    (hterm : ∀ durable changed, change durable = .ok changed → changed.term = durable.term) :
    (changeDurable change).KeepsPace := by
  intro turn
  refine ends_changeDurable (fun durable hchange => ?_) rfl
  unfold Turn.pace Server.pace Server.term
  rw [← hterm _ _ hchange]

/-! ## Answers -/

theorem keepsPace_answerAppend (receiver : ServerId) (successful : Bool) (index : Index) :
    (answerAppend receiver successful index : Action σ Unit).KeepsPace :=
  keepsPace_server fun _ => keepsPace_post _ _

theorem keepsPace_countVote (sender : ServerId) (response : VoteResponse) :
    (countVote sender response : Action σ Bool).KeepsPace := by
  refine keepsPace_server fun server => keepsPace_ite ?_ (keepsPace_pure _)
  exact (keepsPace_modifyProgress _).bind fun _ => keepsPace_pure _

variable [Store σ]

theorem keepsPace_refuseAppend (receiver : ServerId) :
    (refuseAppend receiver : Action σ Unit).KeepsPace :=
  keepsPace_server fun _ => keepsPace_answerAppend _ _ _

theorem keepsPace_takeEntry (entry : PlacedEntry) :
    (takeEntry entry : Action σ Unit).KeepsPace := by
  refine keepsPace_server fun server => ?_
  refine KeepsPace.bind (fun _ => rfl) fun _ => ?_
  split
  next => exact keepsPace_pure _
  next => exact keepsPace_throw _

theorem keepsPace_acceptAppend (request : AppendRequest) :
    (acceptAppend request : Action σ Bool).KeepsPace := by
  have hfollow : (do followCommit request; return true : Action σ Bool).KeepsPace :=
    (keepsPace_modifyProgress _).bind fun _ => keepsPace_pure _
  unfold acceptAppend
  split
  next => exact hfollow
  next entry _ =>
    refine keepsPace_server fun server => keepsPace_ite (keepsPace_pure _) ?_
    exact (keepsPace_takeEntry entry).bind fun _ => hfollow

theorem keepsPace_dropConflict (key : LogKey) :
    (dropConflict key : Action σ Unit).KeepsPace := by
  refine keepsPace_server fun server => keepsPace_ite ?_ (keepsPace_pure _)
  refine keepsPace_changeDurable fun durable changed hchange => ?_
  obtain ⟨log, _, rfl⟩ := map_eq_ok.mp (mapError_eq_ok.mp hchange)
  rfl

/-- Append requests are answered without a change of pace. -/
theorem keepsPace_answerAppendRequest (sender : ServerId) (request : AppendRequest) :
    (answerAppendRequest sender request : Action σ Unit).KeepsPace := by
  have hrefuse : (refuseAppend sender : Action σ Unit).KeepsPace := keepsPace_refuseAppend sender
  refine keepsPace_server fun server => keepsPace_ite hrefuse ?_
  split
  next => exact hrefuse
  next => exact (keepsPace_dropConflict _).bind fun _ => hrefuse
  next =>
    refine (keepsPace_acceptAppend request).bind fun accepted => ?_
    exact keepsPace_ite (keepsPace_answerAppend _ _ _) hrefuse

/-- Vote requests are answered without a change of pace. -/
theorem keepsPace_answerVoteRequest (sender : ServerId) (request : VoteRequest) :
    (answerVoteRequest sender request : Action σ Bool).KeepsPace := by
  have hanswer : ∀ response granted,
      (do post sender (.voteResponse response); return granted : Action σ Bool).KeepsPace :=
    fun response granted => (keepsPace_post _ _).bind fun _ => keepsPace_pure _
  refine keepsPace_server fun server => keepsPace_ite ?_ (hanswer _ _)
  refine keepsPace_ite ?_ (hanswer _ _)
  refine (keepsPace_changeDurable fun durable changed hchange => ?_).bind fun _ => hanswer _ _
  obtain ⟨store, _, rfl⟩ := map_eq_ok.mp (mapError_eq_ok.mp hchange)
  rfl

/-! ## Leading -/

theorem keepsPace_sendAppend (peer : ServerId) : (sendAppend peer : Action σ Unit).KeepsPace := by
  refine keepsPace_server fun before => ?_
  split
  next => exact keepsPace_pure _
  next =>
    refine (keepsPace_modifyProgress _).bind fun _ => keepsPace_server fun server => ?_
    split
    next => exact keepsPace_pure _
    next => exact keepsPace_post _ _

theorem keepsPace_raiseCommit : (raiseCommit : Action σ Unit).KeepsPace :=
  keepsPace_server fun _ => keepsPace_ite (keepsPace_modifyProgress _) (keepsPace_pure _)

/-- Commands are appended without a change of pace. -/
theorem keepsPace_appendCommand (command : Command) :
    (appendCommand command : Action σ Unit).KeepsPace := by
  refine keepsPace_server fun before => ?_
  split
  next => exact keepsPace_throw _
  next bytes _ =>
    refine (keepsPace_changeDurable fun durable changed hchange => ?_).bind fun _ => ?_
    · obtain ⟨pushed, _, rfl⟩ := map_eq_ok.mp (mapError_eq_ok.mp hchange)
      rfl
    · refine (keepsPace_forM fun peer => ?_).bind fun _ => keepsPace_raiseCommit
      exact keepsPace_server fun _ => keepsPace_ite (keepsPace_sendAppend peer) (keepsPace_pure _)

/-- Responses are taken without a change of pace. -/
theorem keepsPace_takeAppendResponse (response : AppendResponse) :
    (takeAppendResponse response : Action σ Unit).KeepsPace := by
  refine keepsPace_server fun server => ?_
  split
  next => exact keepsPace_pure _
  next =>
    refine keepsPace_ite ?_ ?_
    · refine keepsPace_server fun server => (keepsPace_modifyProgress _).bind fun _ => ?_
      refine keepsPace_raiseCommit.bind fun _ => ?_
      exact keepsPace_ite (keepsPace_sendAppend _) (keepsPace_pure _)
    · exact (keepsPace_modifyProgress _).bind fun _ => keepsPace_sendAppend _

/-! ## Applying -/

theorem keepsPace_applyNext (count : Nat) : (applyNext count : Action σ Unit).KeepsPace := by
  induction count with
  | zero => exact keepsPace_pure _
  | succ count ih =>
    refine keepsPace_server fun server => ?_
    split
    next => exact keepsPace_pure _
    next index _ =>
      refine KeepsPace.bind (keepsPace_server fun server => ?_) fun _ => ih
      split
      next => exact keepsPace_throw _
      next =>
        split
        next => exact keepsPace_throw _
        next => exact KeepsPace.bind (fun _ => rfl) fun _ => keepsPace_modifyProgress _

/-- What is committed is applied without a change of pace. -/
theorem keepsPace_applyCommitted : (applyCommitted : Action σ Unit).KeepsPace :=
  keepsPace_server fun _ => keepsPace_applyNext _

end Action

end Consensus
