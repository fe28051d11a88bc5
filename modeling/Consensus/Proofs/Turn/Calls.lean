import Consensus.Proofs.Protocol.Moves
import Consensus.Proofs.Turn.Operations
import Consensus.Proofs.Turn.Through

/-! # Calls

A call shows a server in a row of moments: as it is called, as it posts each message, and
as it is left. Moves of the protocol lead from each moment to the later ones, and what is
posted is vouched for at its moment, also when the call fails.
-/

namespace Consensus

/-- One call to a server. -/
inductive Call where
  /-- A frame arrived on the channel of `sender`. -/
  | receive (sender : ServerId) (frame : Bytes)
  | submit (command : Command)
  /-- A client's frame arrived. -/
  | receiveCommand (frame : Bytes)
  | pollTimer
  | perform
  | transfer (target : ServerId)

namespace Call

/-- The command that a call submits. -/
def command? : Call → Option Command
  | .submit command => some command
  | .receiveCommand frame => (Command.decode frame).toOption
  | _ => none

/-- What a call gives to the server. -/
def intake (call : Call) : View.Intake where
  received sender message :=
    ∃ frame, call = .receive sender frame ∧ Message.decode frame = .ok message
  submitted _ bytes := ∃ command, call.command? = some command ∧ command.encode = .ok bytes
  restarted := False

theorem command?_receiveCommand {frame : Bytes} {command : Command} :
    (Call.receiveCommand frame).command? = some command ↔ Command.decode frame = .ok command := by
  cases hdecode : Command.decode frame <;> simp [command?, hdecode, Except.toOption]

/-- The call has a server with this configuration handle the event, if the frame of a peer arrived,
a command was submitted, or its timer ran out. -/
inductive Raises (config : Config) : Call → Event → Prop
  | received {sender : ServerId} {frame : Bytes} {message : Message}
      (hpeer : config.isPeer sender = true) (hdecode : Message.decode frame = .ok message) :
      Raises config (.receive sender frame) (.received sender message)
  | submitted {call : Call} {command : Command} (hcommand : call.command? = some command) :
      Raises config call (.submitted command)
  | timerRanOut : Raises config .pollTimer .timerRanOut

/-- Whatever a call gives can be applied once it is in a log. -/
theorem intake_legible (call : Call) : call.intake.Legible := by
  refine ⟨?_, ?_⟩
  · rintro sender message ⟨frame, _, hdecode⟩
    exact Message.carried_of_decode hdecode
  · rintro log bytes ⟨command, _, hencode⟩
    exact Command.decodes_of_encode hencode

/-- What a call has a server handle is among what it gives. -/
theorem Raises.given {σ : Type} [Store σ] {server : Server σ} {call : Call} {event : Event}
    (h : call.Raises server.config event) : event.Given call.intake server := by
  cases h with
  | received _ hdecode => exact ⟨_, rfl, hdecode⟩
  | submitted hcommand => exact fun bytes hencode => ⟨_, hcommand, hencode⟩
  | timerRanOut => trivial

/-- A call that submits a command brings no message. -/
theorem not_received_of_command? {call : Call} {command : Command}
    (hcommand : call.command? = some command) (sender : ServerId) (message : Message) :
    ¬ call.intake.received sender message := by
  rintro ⟨frame, rfl, _⟩
  cases hcommand

end Call

namespace Outcome

variable {σ α β : Type}

def map (change : α → β) (outcome : Outcome σ α) : Outcome σ β :=
  { outcome with answer := outcome.answer.map change }

/-- The server as it was at each posting, and as it is left. -/
def moments (outcome : Outcome σ α) : List (Server σ) :=
  outcome.postings.map Posting.sender ++ [outcome.server]

/-- The server that a call leaves is a moment of the call. -/
theorem server_mem_moments (outcome : Outcome σ α) : outcome.server ∈ outcome.moments :=
  List.mem_append_right _ List.mem_cons_self

/-- The outcome is what a turn leaves behind whose end is one of those that are `reached`. -/
def EndsIn (outcome : Outcome σ α) (reached : Turn σ → Prop) : Prop :=
  ∃ last, reached last ∧ outcome.server = last.server ∧ outcome.postings = last.postings

/-- The outcome is what a turn leaves behind whose end is one of those that are `done`, or one of
those that `failed` if there is no answer. -/
def Ends (outcome : Outcome σ α) (done failed : Turn σ → Prop) : Prop :=
  match outcome.answer with
  | .ok _ => outcome.EndsIn done
  | .error _ => outcome.EndsIn failed

variable {outcome : Outcome σ α} {done failed reached : Turn σ → Prop}

theorem Ends.map (h : outcome.Ends done failed) (change : α → β) :
    (outcome.map change).Ends done failed := by
  obtain ⟨server, postings, answer⟩ := outcome
  cases answer with
  | ok answer => exact h
  | error failure => exact h

theorem Ends.endsIn (h : outcome.Ends reached reached) : outcome.EndsIn reached := by
  unfold Ends at h
  split at h
  next => exact h
  next => exact h

end Outcome

namespace Server

variable {σ : Type} [Store σ]

/-- Asks a peer to take over the leadership. -/
def transfer (server : Server σ) (target : ServerId) : Outcome σ Unit :=
  match server.transferRequest target with
  | .error failure => ⟨server, [], .error failure⟩
  | .ok message => ⟨server, [⟨target, message, server⟩], .ok ()⟩

/-- Makes a call. One that has nothing to tell answers `false`. -/
def call (server : Server σ) (now : Duration) : Call → Outcome σ Bool
  | .receive sender frame => (server.receive now sender frame).map fun _ => false
  | .submit command => server.submit now command
  | .receiveCommand frame => server.receiveCommand now frame
  | .pollTimer => server.pollTimer now
  | .perform => (server.perform now).map fun _ => false
  | .transfer target => (server.transfer target).map fun _ => false

/-- A call that carries a command submits it. -/
theorem call_of_command? {server : Server σ} (now : Duration) {call : Call} {command : Command}
    (hcommand : call.command? = some command) :
    server.call now call = server.submit now command := by
  cases call with
  | submit other =>
    obtain rfl := Option.some.inj hcommand
    rfl
  | receiveCommand frame =>
    change server.receiveCommand now frame = server.submit now command
    rw [receiveCommand, Call.command?_receiveCommand.mp hcommand]
  | _ => cases hcommand

/-! ## Calls as turns -/

variable {server : Server σ} {now : Duration} {done failed reached : Turn σ → Prop}

omit [Store σ] in
/-- A turn ends as the action that it is given. -/
theorem turn_ends {α : Type} {action : Action σ α}
    (h : action.Ends (fun _ last => done last) failed ⟨server, now, []⟩) :
    (server.turn now action).Ends done failed :=
  h.outcome (fun outcome => outcome.Ends done failed) (fun _ last hlast => ⟨last, hlast, rfl, rfl⟩)
    fun _ last hlast => ⟨last, hlast, rfl, rfl⟩

/-- Whatever the call, it does nothing, has the server handle one event or perform its duties, or
asks a peer to take over, which a server can refuse to do. -/
theorem call_ends {call : Call} (hidle : done ⟨server, now, []⟩)
    (hevent : ∀ event, call.Raises server.config event →
      (Action.dispatch event).Ends (fun _ last => done last) failed ⟨server, now, []⟩)
    (hperform : call = .perform →
      Action.perform.Ends (fun _ last => done last) failed ⟨server, now, []⟩)
    (htransfer : ∀ target message, server.transferRequest target = .ok message →
      done ⟨server, now, [⟨target, message, server⟩]⟩)
    (hrefused : ∀ target failure, call = .transfer target →
      server.transferRequest target = .error failure → failed ⟨server, now, []⟩) :
    (server.call now call).Ends done failed := by
  have hnothing : ∀ {α : Type} (answer : α), (Outcome.idle server answer).Ends done failed :=
    fun _ => ⟨_, hidle, rfl, rfl⟩
  have hsubmit : ∀ command, call.command? = some command →
      (server.submit now command).Ends done failed := by
    intro command hcommand
    apply turn_ends
    rw [Action.ends_bind]
    exact hevent _ (.submitted hcommand)
  cases call with
  | receive sender frame =>
    refine Outcome.Ends.map ?_ _
    unfold receive
    split
    next hpeer =>
      split
      next => exact hnothing ()
      next message hdecode => exact turn_ends (hevent _ (.received hpeer hdecode))
    next => exact hnothing ()
  | submit command => exact hsubmit command rfl
  | receiveCommand frame =>
    show (server.receiveCommand now frame).Ends done failed
    unfold receiveCommand
    split
    next => exact hnothing false
    next command hdecode => exact hsubmit command (Call.command?_receiveCommand.mpr hdecode)
  | pollTimer =>
    show (server.pollTimer now).Ends done failed
    unfold pollTimer
    split
    next =>
      apply turn_ends
      rw [Action.ends_bind]
      exact hevent _ .timerRanOut
    next => exact hnothing false
  | perform => exact (turn_ends (hperform rfl)).map _
  | transfer target =>
    refine Outcome.Ends.map ?_ _
    unfold transfer
    split
    next failure hrequest => exact ⟨_, hrefused target failure rfl hrequest, rfl, rfl⟩
    next message hrequest => exact ⟨_, htransfer target message hrequest, rfl, rfl⟩

/-- Of an end that is reached whether or not the call fails it is enough to know that an event
which is a message is one that the call brings of a peer. -/
theorem call_endsIn {call : Call} (hidle : reached ⟨server, now, []⟩)
    (hevent : ∀ event, (∀ sender message, event = .received sender message →
        server.config.isPeer sender = true ∧ call.intake.received sender message) →
      (Action.dispatch event).Ends (fun _ last => reached last) reached ⟨server, now, []⟩)
    (hperform : call = .perform →
      Action.perform.Ends (fun _ last => reached last) reached ⟨server, now, []⟩)
    (htransfer : ∀ target message, server.transferRequest target = .ok message →
      reached ⟨server, now, [⟨target, message, server⟩]⟩) :
    (server.call now call).EndsIn reached := by
  refine (call_ends hidle ?_ hperform htransfer fun _ _ _ _ => hidle).endsIn
  rintro event hraised
  refine hevent event fun sender message hreceived => ?_
  cases hraised with
  | received hpeer hdecode =>
    obtain ⟨rfl, rfl⟩ := Event.received.inj hreceived
    exact ⟨hpeer, _, rfl, hdecode⟩
  | submitted => cases hreceived
  | timerRanOut => cases hreceived

end Server

variable {σ : Type} [Store σ] [LawfulStore σ] {intake : View.Intake} {server : Server σ}

/-! ## Traces of calls -/

/-- A leader that hands over traces the protocol. -/
theorem Server.transfer_traces (hcoherent : server.Coherent) {target : ServerId} :
    (server.transfer target).Traces intake server := by
  have hstart : Turn.Trace intake ⟨server, .zero, []⟩ ⟨server, .zero, []⟩ := .start hcoherent
  unfold transfer
  split
  next => exact ⟨_, _, hstart, rfl, rfl⟩
  next message hrequest =>
    exact ⟨_, _, hstart.post (vouches_of_transferRequest hrequest), rfl, rfl⟩

/-- Whatever the call, a coherent server traces the protocol on what it is given. -/
theorem Server.call_traces (hcoherent : server.Coherent) {now : Duration} {call : Call}
    (hreceived : ∀ sender message, server.config.isPeer sender = true →
      call.intake.received sender message → intake.received sender message)
    (hsubmitted : ∀ bytes, call.intake.submitted server.log.entries bytes →
      intake.submitted server.log.entries bytes) :
    (server.call now call).Traces intake server := by
  cases call with
  | receive sender frame =>
    exact receive_traces hcoherent fun message hpeer hdecode =>
      hreceived sender message hpeer ⟨frame, rfl, hdecode⟩
  | submit command =>
    exact submit_traces hcoherent fun bytes hencode => hsubmitted bytes ⟨command, rfl, hencode⟩
  | receiveCommand frame =>
    show (server.receiveCommand now frame).Traces intake server
    unfold receiveCommand
    cases hdecode : Command.decode frame with
    | error cause => exact idle_traces hcoherent false
    | ok command =>
      exact submit_traces hcoherent fun bytes hencode =>
        hsubmitted bytes ⟨command, Call.command?_receiveCommand.mpr hdecode, hencode⟩
  | pollTimer => exact pollTimer_traces hcoherent
  | perform => exact perform_traces hcoherent
  | transfer target => exact transfer_traces hcoherent

/-! ## Moments -/

/-- Moves lead from the one server to the other. -/
def Server.MovesTo (intake : View.Intake) (earlier later : Server σ) : Prop :=
  earlier.view.Moves intake later.view

omit [LawfulStore σ] in
instance : IsPreorder (Server σ) (Server.MovesTo intake) where
  refl _ := .refl
  trans _ _ _ h hnext := Relation.ReflTransGen.trans h hnext

/-- From each moment of a trace moves lead to each later one. -/
theorem Turn.Trace.through {first last : Turn σ} (h : Turn.Trace intake first last) :
    first.Through (Server.MovesTo intake) last := by
  induction h with
  | start => exact through_refl _
  | move _ hmove _ ih => exact ih.step rfl (.single hmove)
  | still _ hview _ ih =>
    refine ih.step rfl ?_
    unfold Server.MovesTo
    rw [hview]
  | post _ _ ih => exact ih.post _ _

/-- Each sender of a traced turn is coherent and vouches for what it posts. -/
theorem Turn.Trace.posted {now : Duration} {last : Turn σ}
    (h : Turn.Trace intake ⟨server, now, []⟩ last) :
    ∀ posting ∈ last.postings, posting.sender.Coherent ∧
      posting.sender.view.Vouches intake posting.receiver posting.message := by
  induction h with
  | start => simp
  | move _ _ _ ih => exact ih
  | still _ _ _ ih => exact ih
  | post h hvouches ih =>
    intro posting hposting
    rcases List.mem_append.mp hposting with hold | hnew
    · exact ih posting hold
    · rw [List.mem_singleton.mp hnew]
      exact ⟨h.coherent, hvouches⟩

namespace Outcome

variable {α : Type} {outcome : Outcome σ α}

/-- Each moment of a traced call is coherent. -/
theorem Traces.coherent (h : outcome.Traces intake server) :
    ∀ moment ∈ outcome.moments, moment.Coherent := by
  obtain ⟨now, last, htrace, hserver, hpostings⟩ := h
  intro moment hmoment
  rw [moments, hserver, hpostings] at hmoment
  rcases List.mem_append.mp hmoment with hposted | hlast
  · obtain ⟨posting, hposting, rfl⟩ := List.mem_map.mp hposted
    exact (htrace.posted posting hposting).1
  · rw [List.mem_singleton.mp hlast]
    exact htrace.coherent

/-- Each message of a traced call is vouched for by its sender. -/
theorem Traces.vouches (h : outcome.Traces intake server) {posting : Posting σ}
    (hposting : posting ∈ outcome.postings) :
    posting.sender.view.Vouches intake posting.receiver posting.message := by
  obtain ⟨now, last, htrace, _, hpostings⟩ := h
  exact (htrace.posted posting (hpostings ▸ hposting)).2

/-- From each moment of a traced call to each later one the protocol moves. -/
theorem Traces.pairwise (h : outcome.Traces intake server) :
    (server :: outcome.moments).Pairwise
      fun earlier later => earlier.view.Moves intake later.view := by
  obtain ⟨now, last, htrace, hserver, hpostings⟩ := h
  obtain ⟨posted, hposted, hmoves⟩ := htrace.through
  rw [moments, hserver, hpostings, hposted]
  exact hmoves

theorem Traces.moves (h : outcome.Traces intake server) {moment : Server σ}
    (hmoment : moment ∈ outcome.moments) : server.view.Moves intake moment.view :=
  (List.pairwise_cons.mp h.pairwise).1 moment hmoment

theorem Traces.moves_last (h : outcome.Traces intake server) {moment : Server σ}
    (hmoment : moment ∈ outcome.moments) : moment.view.Moves intake outcome.server.view := by
  rcases List.mem_append.mp hmoment with hposted | hlast
  · have hlater := (List.pairwise_append.mp (List.pairwise_cons.mp h.pairwise).2).2.2
    exact hlater moment hposted _ List.mem_cons_self
  · rw [List.mem_singleton.mp hlast]

end Outcome

namespace Server

/-- A call gives a server what it needs to trace the protocol. -/
theorem call_traces_own (hcoherent : server.Coherent) (now : Duration) (call : Call) :
    (server.call now call).Traces call.intake server :=
  call_traces hcoherent (fun _ _ _ hreceived => hreceived) fun _ hsubmitted => hsubmitted

/-- Every call leaves a coherent server coherent, also when it fails. -/
theorem call_coherent (hcoherent : server.Coherent) (now : Duration) (call : Call) :
    (server.call now call).server.Coherent :=
  (call_traces_own hcoherent now call).coherent _ (Outcome.server_mem_moments _)

/-- Every call is made of moves of the protocol. -/
theorem call_moves (hcoherent : server.Coherent) (now : Duration) (call : Call) :
    server.view.Moves call.intake (server.call now call).server.view :=
  (call_traces_own hcoherent now call).moves (Outcome.server_mem_moments _)

end Server

end Consensus
