import Consensus.Proofs.Life.Requests
import Consensus.Proofs.Machine.Calls
import Consensus.Proofs.Transport.Retrying
import Consensus.Server.Host
import Consensus.Transport.Script

/-! # Independence of the transport

A machine offers its messages while it works, and nothing that it does to its server depends on
what becomes of them. So it does what a host does, which offers them when the work is done, and
its server fares the same over any other transport.
-/

namespace Consensus

/-! ## Machines and hosts -/

namespace Transport

variable {τ : Type} [Transport τ]

theorem attemptsMade_attemptsMade (attempts : Nat) :
    attemptsMade (attemptsMade attempts) = attemptsMade attempts :=
  Nat.max_eq_left (Nat.le_max_right _ _)

/-- It makes no difference whether the least number of attempts is already seen to. -/
theorem send_attemptsMade (attempts : Nat) :
    send (τ := τ) (attemptsMade attempts) = send attempts := by
  funext receiver message transport
  unfold send
  rw [attemptsMade_attemptsMade]

theorem postAll_attemptsMade (attempts : Nat) :
    postAll (τ := τ) (attemptsMade attempts) = postAll attempts := by
  funext messages transport
  unfold postAll post
  rw [send_attemptsMade]

end Transport

/-- Makes a call. One that has nothing to tell answers `false`. -/
def Host.call {σ τ : Type} [Store σ] [Transport τ] (host : Host σ τ) (now : Duration) :
    Call → Except Failure Bool × Host σ τ
  | .receive sender frame =>
    let (result, later) := host.receive now sender frame
    (result.map fun _ => false, later)
  | .submit command => host.submit now command
  | .receiveCommand frame => host.receiveCommand now frame
  | .pollTimer => host.pollTimer now
  | .perform =>
    let (result, later) := host.perform now
    (result.map fun _ => false, later)
  | .transfer target =>
    let (result, later) := host.transferLeadership target
    (result.map fun _ => false, later)

namespace Machine

variable {σ τ τ' : Type} [Transport τ] [Transport τ']

/-- The host that has the machine's server and transport. -/
def host (machine : Machine σ τ) : Host σ τ := ⟨machine.server, machine.outbox.transport⟩

/-- The machine's outbox makes as many offers as the server's configuration says. -/
def Configured (machine : Machine σ τ) : Prop :=
  machine.outbox.attempts = Transport.attemptsMade machine.server.config.sendAttempts

/-- A machine is left as a host is, with the same answer. -/
def Matches {α : Type} (made : Except Halt α × Machine σ τ)
    (hosted : Except Failure α × Host σ τ) : Prop :=
  made.1 = hosted.1.mapError .failure ∧ made.2.host = hosted.2

variable {machine : Machine σ τ} {now : Duration}

theorem settle_matches [Store σ] (hconfigured : machine.Configured) {α : Type}
    (outcome : Outcome σ α) :
    Matches (machine.settle outcome) (machine.host.settle outcome) := by
  refine ⟨rfl, ?_⟩
  change (⟨outcome.server, (machine.outbox.postAll outcome.messages).transport⟩ : Host σ τ) =
    ⟨outcome.server, Transport.postAll machine.server.config.sendAttempts outcome.messages
      machine.outbox.transport⟩
  rw [(machine.outbox.postAll_eq outcome.messages).2, hconfigured,
    Transport.postAll_attemptsMade]

omit [Transport τ] in
theorem Matches.map {α β : Type} {made : Except Halt α × Machine σ τ}
    {hosted : Except Failure α × Host σ τ} (h : Matches made hosted) (change : α → β) :
    Matches (made.1.map change, made.2) (hosted.1.map change, hosted.2) := by
  refine ⟨?_, h.2⟩
  change made.1.map change = (hosted.1.map change).mapError .failure
  rw [h.1]
  cases hosted.1 <;> rfl

variable [Store σ]

omit [Store σ] in
theorem send_matches (hconfigured : machine.Configured) (receiver : ServerId)
    (message : Message) :
    (machine.outbox.send receiver message).1 =
        (Transport.send machine.server.config.sendAttempts receiver message
          machine.outbox.transport).1 ∧
      (machine.outbox.send receiver message).2.transport =
        (Transport.send machine.server.config.sendAttempts receiver message
          machine.outbox.transport).2 := by
  rw [machine.outbox.send_eq]
  dsimp only
  rw [hconfigured, Transport.send_attemptsMade]
  exact ⟨rfl, rfl⟩

omit [Store σ] in
theorem transfer_matches (hconfigured : machine.Configured) (target : ServerId) :
    Matches (machine.transfer target) (machine.host.transferLeadership target) := by
  unfold transfer Host.transferLeadership
  dsimp only [host]
  cases machine.server.transferRequest target with
  | error failure => exact ⟨rfl, rfl⟩
  | ok request =>
    obtain ⟨hresult, htransport⟩ := send_matches hconfigured target request
    refine ⟨?_, congrArg (Host.mk machine.server) htransport⟩
    change ((machine.outbox.send target request).1.map _).mapError _ =
      (((Transport.send machine.server.config.sendAttempts target request
        machine.outbox.transport).1.map _).mapError _).mapError _
    rw [hresult]
    cases (Transport.send machine.server.config.sendAttempts target request
      machine.outbox.transport).1 <;> rfl

/-- A call to a machine that forms sums of integers is the same call to a host. -/
theorem call_matches (hconfigured : machine.Configured) (call : Call) :
    Matches (machine.call .exact now call) (machine.host.call now call) := by
  have hroom : Room .exact 1 machine.server := .exact rfl
  cases call with
  | receive sender frame =>
    have h := settle_matches hconfigured (machine.server.receive now sender frame)
    rw [← receive_eq_settle hroom] at h
    exact h.map fun _ => false
  | submit command =>
    have h := settle_matches hconfigured (machine.server.submit now command)
    rw [← submit_eq_settle hroom] at h
    exact h
  | receiveCommand frame =>
    have h := settle_matches hconfigured (machine.server.receiveCommand now frame)
    rw [← receiveCommand_eq_settle hroom] at h
    exact h
  | pollTimer =>
    have h := settle_matches hconfigured (machine.server.pollTimer now)
    rw [← pollTimer_eq_settle hroom] at h
    exact h
  | perform =>
    have h := settle_matches hconfigured (machine.server.perform now)
    rw [← perform_eq_settle hroom rfl] at h
    exact h.map fun _ => false
  | transfer target => exact (transfer_matches hconfigured target).map fun _ => false

/-! ## Two transports -/

/-- After any calls the server is the one that the calls to the server alone leave. -/
theorem after_server (machine : Machine σ τ) (calls : List (Duration × Call)) :
    (machine.after .exact calls).server =
      calls.foldl (fun server (now, call) => (server.call now call).server) machine.server := by
  unfold after
  induction calls generalizing machine with
  | nil => rfl
  | cons first rest ih =>
    rw [List.foldl_cons, ih, call_server (.exact rfl) rfl]
    rfl

/-- Only a transfer of leadership tells what the transport did. -/
theorem call_answer (machine : Machine σ τ) (now : Duration) {call : Call}
    (htransfer : ¬ call.IsTransfer) :
    (machine.call .exact now call).1 =
      (machine.server.call now call).answer.mapError .failure := by
  rw [call_eq_settle (.exact rfl) rfl htransfer]
  rfl

/-- An outbox makes from one to as many offers of a message as it has attempts, all to the same
server and of the same frame, until one is not refused for the moment, and the outcome is that
of the offers. Over any two transports a server is left the same by the same calls, and answers
the same to all but a transfer of leadership. -/
theorem sends_bounded_and_unheeded :
    (∀ (transport : τ) (attempts : Nat) (earlier : List (ServerId × Message))
      (receiver : ServerId) (message : Message),
      let outbox := (Outbox.create transport attempts).postAll earlier
      outbox.send receiver message = ((outbox.note.send receiver message).1,
          (outbox.note.send receiver message).2.unnote) ∧
        Outbox.Sends (max attempts 1) receiver message (outbox.offersOf receiver message)
          (outbox.send receiver message).1 ∧
        ((outbox.post receiver message).1 = true ↔
          ∃ position, (outbox.send receiver message).1 = .ok position)) ∧
    ∀ (server : Server σ) (outbox : Outbox τ) (other : Outbox τ')
      (calls : List (Duration × Call)),
      let machine := (⟨server, outbox⟩ : Machine σ τ).after .exact calls
      let twin := (⟨server, other⟩ : Machine σ τ').after .exact calls
      machine.server = twin.server ∧
        ∀ (now : Duration) (call : Call), ¬ call.IsTransfer →
          (machine.call .exact now call).1 = (twin.call .exact now call).1 := by
  constructor
  · intro transport attempts earlier receiver message outbox
    have hattempts : outbox.attempts = max attempts 1 :=
      ((Outbox.create transport attempts).postAll_eq earlier).1
    exact ⟨outbox.send_eq_note receiver message, hattempts ▸ outbox.sends receiver message,
      outbox.post_iff receiver message⟩
  · intro server outbox other calls machine twin
    have hserver : machine.server = twin.server :=
      (after_server ⟨server, outbox⟩ calls).trans (after_server ⟨server, other⟩ calls).symm
    refine ⟨hserver, fun now call htransfer => ?_⟩
    rw [machine.call_answer now htransfer, twin.call_answer now htransfer, hserver]

end Machine

/-! ## A closed channel -/

namespace Trio

/-- The calls that make server 1 the leader of term 1. -/
def candidacy : List (Duration × Call) :=
  [(.ofSeconds 1 0, .pollTimer), (.ofSeconds 1 0, .perform),
    (.ofSeconds 1 0, .receive 2 (Message.voteResponse ⟨1, true⟩).encode)]

/-- A transport that refuses two offers. -/
def hesitant : ScriptedTransport := ⟨[.backpressured, .adminAction], []⟩

/-- A transport whose channels are gone. -/
def shut : ScriptedTransport := ⟨[.closed, .closed, .closed], []⟩

def machine (transport : ScriptedTransport) : Machine MemoryStore ScriptedTransport :=
  ⟨server, .create transport 5⟩

end Trio

namespace Machine

theorem sends_bounded_and_unheeded_shut :
    Outbox.Sends 5 2 Trio.plea
        ((Outbox.create Trio.hesitant 5).offersOf 2 Trio.plea)
        ((Outbox.create Trio.hesitant 5).send 2 Trio.plea).1 ∧
      ((Outbox.create Trio.hesitant 5).offersOf 2 Trio.plea).map Offer.verdict =
        [.backpressured, .adminAction, .accepted 3] ∧
      ((Trio.machine Trio.shut).after .exact Trio.candidacy).server =
        ((Trio.machine Trio.hesitant).after .exact Trio.candidacy).server ∧
      ((Trio.machine Trio.shut).after .exact Trio.candidacy).server.role.isLeader = true ∧
      ¬ Call.IsTransfer .perform ∧
      (((Trio.machine Trio.shut).after .exact Trio.candidacy).call .exact (.ofSeconds 1 0)
          .perform).1 =
        (((Trio.machine Trio.hesitant).after .exact Trio.candidacy).call .exact (.ofSeconds 1 0)
          .perform).1 := by
  obtain ⟨hsends, halike⟩ :=
    @sends_bounded_and_unheeded MemoryStore ScriptedTransport ScriptedTransport _ _ _
  have hperform : ¬ Call.IsTransfer .perform := id
  obtain ⟨hserver, hanswers⟩ :=
    halike Trio.server (.create Trio.shut 5) (.create Trio.hesitant 5) Trio.candidacy
  exact ⟨(hsends Trio.hesitant 5 [] 2 Trio.plea).2.1, by decide +kernel, hserver,
    by decide +kernel, hperform, hanswers _ _ hperform⟩

end Machine

end Consensus
