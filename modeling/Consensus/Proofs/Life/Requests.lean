import Consensus.Proofs.Life.Elections
import Consensus.Proofs.Turn.Replies
import Consensus.Server.Host
import Consensus.Transport.Script

/-! # Requests to one server

Whatever has become of a server, it replies to each request of a peer once, as long as its
store works. The one exception is a candidate or a leader that grants its vote, which sends the
same reply twice.
-/

namespace Consensus

variable {σ : Type} [Store σ]

/-! ## What a server can come to -/

/-- What a server can come to from any store: by starts, by calls with any frames whatever, and
by what makes the writes to its store fail or succeed. -/
inductive Server.Reachable [LawfulStore σ] : Server σ → Prop
  | start {config : Config} {store : σ} {draws : Draws} {now : Duration} {server : Server σ}
      (hvalid : LawfulStore.Valid store) (hstart : start config store draws now = .ok server) :
      Reachable server
  | call {server : Server σ} (h : Reachable server) (now : Duration) (call : Call) :
      Reachable (server.call now call).server
  | disturb {server : Server σ} (h : Reachable server) {change : σ → σ}
      (hvalid : LawfulStore.Valid (change server.log.store))
      (hentries : Store.entries (change server.log.store) = server.log.entries)
      (hload : Store.load (change server.log.store) = Store.load server.log.store) :
      Reachable (server.mapStore change)

/-- Whatever a server can come to is coherent. -/
theorem Server.Reachable.coherent [LawfulStore σ] {server : Server σ} (h : server.Reachable) :
    server.Coherent := by
  induction h with
  | start hvalid hstart => exact (start_eq_ok hvalid hstart).2.1
  | call _ now call ih => exact call_coherent ih now call
  | disturb _ hvalid hentries hload ih => exact ih.mapStore hvalid hentries hload

/-- Whatever a server can come to, its books are in order. -/
theorem Server.Reachable.inOrder [LawfulStore σ] {server : Server σ} (h : server.Reachable) :
    server.InOrder := by
  induction h with
  | start hvalid hstart => exact (inOrder_of_start hvalid hstart).2
  | @call server hreachable now call ih =>
    have hmoments := (call_succeeds hreachable.coherent now call).accounts ih
    exact ((List.pairwise_cons.mp hmoments).1 _ (Outcome.server_mem_moments _) ih).1
  | disturb _ _ hentries _ ih => exact (upholds_mapStore hentries ih).1

/-- What holds of a server that starts and is kept by every move holds of whatever a server can
come to. -/
theorem Server.Reachable.view_induction [LawfulStore σ] {property : View → Prop}
    {server : Server σ} (h : server.Reachable)
    (hstart : ∀ view : View, view.leads = false → view.tally = {} →
      view.commitIndex = nullIndex → view.lastApplied = nullIndex → view.deliveries = [] →
      property view)
    (hmove : ∀ (intake : View.Intake) (view next : View), view.Move intake next →
      property view → property next) : property server.view := by
  induction h with
  | start hvalid hstarted =>
    obtain ⟨_, _, _, hview⟩ := start_eq_ok hvalid hstarted
    rw [hview]
    exact hstart _ rfl rfl rfl rfl rfl
  | @call server hreachable now call ih =>
    have hkept : ∀ later, server.view.Moves call.intake later → property later := by
      intro later hmoves
      induction hmoves with
      | refl => exact ih
      | tail _ hstep hlast => exact hmove _ _ _ hstep hlast
    exact hkept _ (call_moves hreachable.coherent now call)
  | disturb _ _ hentries _ ih =>
    rw [view_mapStore hentries]
    exact ih

/-- What a server has applied is committed, and it has handed out the commands of that. -/
theorem Server.Reachable.orderly [LawfulStore σ] {server : Server σ} (h : server.Reachable) :
    server.view.Orderly :=
  h.view_induction
    (fun _ _ _ hcommit happlied hdeliveries => View.orderly_of_null happlied hcommit hdeliveries)
    fun _ _ _ hmove horderly => hmove.orderly horderly

/-- All that happens in a life leads to what a server can come to. -/
theorem Server.Reachable.after {server : Server MemoryStore} (h : server.Reachable)
    (incidents : List Incident) : (server.after incidents).Reachable := by
  induction incidents generalizing server with
  | nil => exact h
  | cons incident rest ih =>
    apply ih
    cases incident with
    | call now call => exact h.call now call
    | fault faulty => exact h.disturb trivial rfl rfl
    | restart draws now =>
      unfold meet
      dsimp only
      split
      next => exact h
      next started hstart => exact .start trivial hstart

/-! ## Replies -/

/-- The server replies to the request once, or twice with the same vote. -/
theorem Server.receive_serves [LawfulStore σ] {server : Server σ} (hcoherent : server.Coherent)
    {now : Duration} {peer : ServerId} {frame : Bytes} {request : Message}
    (hpeer : server.config.isPeer peer = true) (hdecode : Message.decode frame = .ok request)
    (hrequest : request.kind.reply?.isSome)
    (hworks : Store.Reliable server.log.store ∨ (server.receive now peer frame).answer = .ok ()) :
    ∃ reply : Message, request.kind.reply? = some reply.kind ∧
      reply.term = (server.receive now peer frame).server.term ∧
      (¬ server.RepliesTwice request →
        (server.receive now peer frame).messages = [(peer, reply)]) ∧
      (server.RepliesTwice request →
        (server.receive now peer frame).messages = [(peer, reply), (peer, reply)]) := by
  rw [receive_eq_turn hpeer hdecode] at hworks ⊢
  have hreceived : (Call.receive peer frame).intake.received peer request := ⟨frame, rfl, hdecode⟩
  have hends : (Action.dispatch (.received peer request)).Ends
      (fun _ last => Turn.Serves peer request ⟨server, now, []⟩ last)
      (fun last => Turn.Serves peer request ⟨server, now, []⟩ last ∨
        ¬ Store.Reliable server.log.store) ⟨server, now, []⟩ :=
    Action.dispatch_serves hcoherent (Call.intake_legible _) hreceived hrequest
  rcases hends.turn_cases with ⟨_, last, hlast, hserves⟩ | ⟨failure, last, hlast, hserves⟩
  · rw [hlast]
    exact hserves
  · rw [hlast] at hworks ⊢
    rcases hserves with hserves | hunreliable
    · exact hserves
    · rcases hworks with hreliable | hanswer
      · exact absurd hreliable hunreliable
      · cases hanswer

/-! ## Offers -/

namespace ScriptedTransport

/-- No offer is refused. -/
def Accepts (script : ScriptedTransport) : Prop :=
  ∀ answer ∈ script.answers, ∃ position, answer = .accepted position

/-- A script that accepts all offers accepts the next one. -/
theorem Accepts.offer {script : ScriptedTransport} (h : script.Accepts) (receiver : ServerId)
    (frame : Bytes) :
    ∃ position next, Transport.offer script receiver frame = (.accepted position, next) ∧
      next.Accepts ∧ next.offered = script.offered ++ [(receiver, frame)] := by
  obtain ⟨answers, offered⟩ := script
  cases answers with
  | nil => exact ⟨_, _, rfl, h, rfl⟩
  | cons answer rest =>
    obtain ⟨⟨position, rfl⟩, hrest⟩ := List.forall_mem_cons.mp h
    exact ⟨position, _, rfl, hrest, rfl⟩

/-- A message is posted by one offer over a transport that accepts it. -/
theorem Accepts.post {script : ScriptedTransport} (h : script.Accepts) (attempts : Nat)
    (receiver : ServerId) (message : Message) :
    (Transport.post attempts receiver message script).2.Accepts ∧
      (Transport.post attempts receiver message script).2.offered =
        script.offered ++ [(receiver, message.encode)] := by
  obtain ⟨position, next, hoffer, haccepts, hoffered⟩ := h.offer receiver message.encode
  obtain ⟨further, hattempts⟩ : ∃ further, Transport.attemptsMade attempts = further + 1 :=
    Nat.exists_eq_add_one.mpr (Nat.lt_of_lt_of_le Nat.zero_lt_one (Nat.le_max_right _ _))
  have hmade : Transport.offerUpTo receiver message.encode (further + 1) script =
      (.accepted position, next) := by
    rw [Transport.offerUpTo, hoffer]
    rfl
  unfold Transport.post Transport.send
  rw [hattempts, hmade]
  exact ⟨haccepts, hoffered⟩

/-- A transport that refuses nothing is offered each message once. -/
theorem Accepts.offered_postAll {script : ScriptedTransport} (h : script.Accepts)
    (attempts : Nat) (messages : List (ServerId × Message)) :
    (Transport.postAll attempts messages script).offered =
      script.offered ++ messages.map fun (receiver, message) => (receiver, message.encode) := by
  induction messages generalizing script with
  | nil => exact (List.append_nil _).symm
  | cons message rest ih =>
    obtain ⟨haccepts, hoffered⟩ := h.post attempts message.1 message.2
    refine (ih haccepts).trans ?_
    rw [hoffered, List.append_assoc]
    rfl

end ScriptedTransport

/-- Whatever a server has come to, a request of a peer has it offer one frame, to that peer. The
frame is a reply of the right kind, of the term that the server is in then. Only a candidate or
a leader that grants its vote offers the frame twice. -/
theorem Host.request_answered [LawfulStore σ] {host : Host σ ScriptedTransport}
    (hreachable : host.server.Reachable) (haccepts : host.transport.Accepts) {now : Duration}
    {peer : ServerId} {frame : Bytes} {request : Message}
    (hpeer : host.server.config.isPeer peer = true)
    (hdecode : Message.decode frame = .ok request) (hrequest : request.kind.reply?.isSome)
    (hworks : Store.Reliable host.server.log.store ∨ (host.receive now peer frame).1 = .ok ()) :
    ∃ reply : Message, request.kind.reply? = some reply.kind ∧
      reply.term = (host.receive now peer frame).2.server.term ∧
      (¬ host.server.RepliesTwice request →
        (host.receive now peer frame).2.transport.offered =
          host.transport.offered ++ [(peer, reply.encode)]) ∧
      (host.server.RepliesTwice request →
        (host.receive now peer frame).2.transport.offered =
          host.transport.offered ++ [(peer, reply.encode), (peer, reply.encode)]) := by
  obtain ⟨reply, hkind, hterm, honce, htwice⟩ :=
    Server.receive_serves hreachable.coherent hpeer hdecode hrequest hworks
  have hoffered : (host.receive now peer frame).2.transport.offered =
      host.transport.offered ++ (host.server.receive now peer frame).messages.map
        fun (receiver, message) => (receiver, message.encode) :=
    haccepts.offered_postAll _ _
  refine ⟨reply, hkind, hterm, fun hsingle => ?_, fun hdouble => ?_⟩
  · rw [hoffered, honce hsingle]
    rfl
  · rw [hoffered, htwice hdouble]
    rfl

/-! ## Rivals -/

namespace Trio

/-- A leader of term 1 is heard, and then is not heard for too long. -/
def silence : List Incident :=
  [arrival 3 (.appendRequest ⟨1, 3, .null, nullIndex, none⟩), .call (.ofSeconds 2 0) .pollTimer]

/-- Server 2 asks for a vote in term 1. -/
def plea : Message := .voteRequest ⟨1, 2, .null⟩

/-- The server with nothing offered yet. -/
def host (server : Server MemoryStore) : Host MemoryStore ScriptedTransport := ⟨server, ⟨[], []⟩⟩

theorem reachable_server : server.Reachable :=
  .start trivial (rfl : Server.start config {} Handover.draws .zero = .ok server)

end Trio

/-- A follower grants the vote it is asked for by a single frame. -/
theorem Host.request_answered_plea :
    ∃ reply : Message, reply.kind = .voteResponse ∧
      ((Trio.host Trio.server).receive (.ofSeconds 1 0) 2 Trio.plea.encode).2.transport.offered =
        [(2, reply.encode)] := by
  have haccepts : (Trio.host Trio.server).transport.Accepts := by
    simp [Trio.host, ScriptedTransport.Accepts]
  have hdecode : Message.decode Trio.plea.encode = .ok Trio.plea := by
    decide +kernel
  have hpeer : (Trio.host Trio.server).server.config.isPeer 2 = true := by
    decide
  have hworks : Store.Reliable (Trio.host Trio.server).server.log.store :=
    MemoryStore.reliable rfl
  obtain ⟨reply, hkind, _, honce, _⟩ := request_answered Trio.reachable_server haccepts hpeer
    hdecode rfl (.inl hworks)
  refine ⟨reply, (Option.some.inj hkind).symm, honce ?_⟩
  exact Server.not_repliesTwice_of_follower rfl

/-- A candidate that has not opened its election yet grants its vote, and does so twice over. -/
theorem Host.plea_answered_twice :
    (Trio.server.after Trio.silence).Reachable ∧
      (Trio.server.after Trio.silence).log.store.faulty = false ∧
      ((Trio.host (Trio.server.after Trio.silence)).receive (.ofSeconds 2 0) 2
        Trio.plea.encode).2.transport.offered =
          [(2, (Message.voteResponse ⟨1, true⟩).encode),
            (2, (Message.voteResponse ⟨1, true⟩).encode)] := by
  refine ⟨Trio.reachable_server.after _, ?_, ?_⟩ <;> decide +kernel

end Consensus
