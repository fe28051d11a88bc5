import Consensus.Proofs.Turn.Events
import Consensus.Server.Operations

/-! # Operations trace the protocol

Every call to a coherent server traces the protocol and leaves the server coherent,
whatever frame it is given and whether or not the call fails.
-/

namespace Consensus

variable {σ : Type} [Store σ] [LawfulStore σ] {intake : View.Intake}

/-- What a call leaves behind is the end of a trace of it. -/
def Outcome.Traces {α : Type} (outcome : Outcome σ α) (intake : View.Intake) (server : Server σ) :
    Prop :=
  ∃ now last, Turn.Trace intake ⟨server, now, []⟩ last ∧ outcome.server = last.server ∧
    outcome.postings = last.postings

namespace Server

variable {server : Server σ}

omit [LawfulStore σ] in
/-- The message of a peer is dispatched in a turn of its own. -/
theorem receive_eq_turn {sender : ServerId} {frame : Bytes} {message : Message}
    (hpeer : server.config.isPeer sender = true) (hdecode : Message.decode frame = .ok message)
    (now : Duration) :
    server.receive now sender frame = server.turn now (.dispatch (.received sender message)) := by
  rw [receive, if_pos hpeer, hdecode]

theorem idle_traces {α : Type} (hcoherent : server.Coherent) (answer : α) :
    (Outcome.idle server answer).Traces intake server :=
  ⟨⟨0⟩, _, .start hcoherent, rfl, rfl⟩

/-- A turn traces the protocol if its action does. -/
theorem turn_traces {α : Type} {now : Duration} {action : Action σ α}
    (h : action.Ends (fun _ last => Turn.Trace intake ⟨server, now, []⟩ last)
      (Turn.Trace intake ⟨server, now, []⟩) ⟨server, now, []⟩) :
    (server.turn now action).Traces intake server := by
  refine Action.Ends.outcome (fun outcome => outcome.Traces intake server) h ?_ ?_
  · exact fun _ last htrace => ⟨now, last, htrace, rfl, rfl⟩
  · exact fun _ last htrace => ⟨now, last, htrace, rfl, rfl⟩

/-- A server that receives a frame traces the protocol, whatever the frame holds. -/
theorem receive_traces (hcoherent : server.Coherent) {now : Duration} {sender : ServerId}
    {frame : Bytes} (hgiven : ∀ message, server.config.isPeer sender = true →
      Message.decode frame = .ok message → intake.received sender message) :
    (server.receive now sender frame).Traces intake server := by
  unfold receive
  split
  next hpeer =>
    split
    next => exact idle_traces hcoherent ()
    next message hdecode =>
      exact turn_traces (Action.dispatch_ends (.start hcoherent) (hgiven message hpeer hdecode))
  next => exact idle_traces hcoherent ()

/-- A submission traces the protocol. -/
theorem submit_traces (hcoherent : server.Coherent) {now : Duration} {command : Command}
    (hgiven : ∀ bytes, command.encode = .ok bytes →
      intake.submitted server.log.entries bytes) :
    (server.submit now command).Traces intake server := by
  have hevent : (Event.submitted command).Given intake server := hgiven
  apply turn_traces
  rw [Action.ends_bind]
  exact Action.dispatch_ends (.start hcoherent) hevent

/-- A frame of the command inbox traces the protocol, whether or not it holds a command. -/
theorem receiveCommand_traces (hcoherent : server.Coherent) {now : Duration} {frame : Bytes}
    (hgiven : ∀ bytes, intake.submitted server.log.entries bytes) :
    (server.receiveCommand now frame).Traces intake server := by
  unfold receiveCommand
  split
  next => exact idle_traces hcoherent false
  next => exact submit_traces hcoherent fun bytes _ => hgiven bytes

/-- A server whose timer is polled traces the protocol. -/
theorem pollTimer_traces (hcoherent : server.Coherent) {now : Duration} :
    (server.pollTimer now).Traces intake server := by
  unfold pollTimer
  split
  next =>
    have hevent : Event.timerRanOut.Given intake server := trivial
    apply turn_traces
    rw [Action.ends_bind]
    exact Action.dispatch_ends (.start hcoherent) hevent
  next => exact idle_traces hcoherent false

/-- A server that performs its duties traces the protocol. -/
theorem perform_traces (hcoherent : server.Coherent) {now : Duration} :
    (server.perform now).Traces intake server :=
  turn_traces (Action.perform_faithful (.start hcoherent))

omit [LawfulStore σ] in
/-- A leader vouches for the message by which it hands over. -/
theorem vouches_of_transferRequest {target : ServerId} {message : Message}
    (hrequest : server.transferRequest target = .ok message) :
    server.view.Vouches intake target message := by
  unfold transferRequest at hrequest
  split at hrequest
  next hleads =>
    split at hrequest
    next hpeer =>
      obtain rfl := Except.ok.inj hrequest
      exact .handOver hleads hpeer
    next => cases hrequest
  next => cases hrequest

/-! ## Starts -/

omit [LawfulStore σ] in
/-- A server writes to the store that it has started from. -/
theorem store_of_start {config : Config} {store : σ} {draws : Draws} {now : Duration}
    (h : start config store draws now = .ok server) : server.log.store = store := by
  obtain ⟨_, _, h⟩ := bind_eq_ok.mp h
  obtain ⟨durable, hdurable, h⟩ := bind_eq_ok.mp h
  obtain ⟨timer, _, h⟩ := bind_eq_ok.mp h
  obtain ⟨_, _, rfl⟩ := map_eq_ok.mp (mapError_eq_ok.mp hdurable)
  obtain rfl := Except.ok.inj h
  rfl

/-- What a server is when it has started from a store. -/
theorem start_eq_ok {config : Config} {store : σ} {draws : Draws} {now : Duration}
    (hvalid : LawfulStore.Valid store) (h : start config store draws now = .ok server) :
    config.validate = .ok () ∧ server.Coherent ∧
      Store.load store = .ok (server.term, server.votedFor) ∧
      server.view = {
        config
        term := server.term
        votedFor := server.votedFor
        log := Store.entries store
        leads := false
        tally := {}
        commitIndex := nullIndex
        lastApplied := nullIndex
        matched := []
        deliveries := [] } := by
  obtain ⟨_, hvalidate, h⟩ := bind_eq_ok.mp h
  obtain ⟨durable, hdurable, h⟩ := bind_eq_ok.mp h
  obtain ⟨timer, _, h⟩ := bind_eq_ok.mp h
  obtain ⟨hcoherent, hload, hentries⟩ :=
    Durable.coherent_load hvalid (mapError_eq_ok.mp hdurable)
  obtain rfl := Except.ok.inj h
  refine ⟨mapError_eq_ok.mp hvalidate, ⟨hcoherent, Int.le_refl _, fun _ => rfl⟩, hload, ?_⟩
  rw [← hentries]
  rfl

end Server

end Consensus
