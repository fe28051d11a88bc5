import Consensus.Proofs.Machine.Events
import Consensus.Proofs.Turn.Calls

/-! # Calls to a machine

A call to a machine that has room for its sums leaves the server that the call to the server
leaves, and has offered what that one posted. Only a transfer of leadership tells what became of
its message.
-/

namespace Consensus

/-- The call asks a peer to take over the leadership. -/
def Call.IsTransfer : Call → Prop
  | .transfer _ => True
  | _ => False

namespace Machine

variable {σ τ : Type} [Transport τ]

/-- What a turn leaves, with its messages offered and its failure as a halt. -/
def settle {α : Type} (machine : Machine σ τ) (outcome : Outcome σ α) :
    Except Halt α × Machine σ τ :=
  (outcome.answer.mapError .failure,
    ⟨outcome.server, machine.outbox.postAll outcome.messages⟩)

/-- Work in step with an action comes to what a turn of it settles. -/
theorem run_eq_settle {α : Type} {machine : Machine σ τ} {now : Duration} {work : Work σ τ α}
    {action : Action σ α}
    (h : InStep machine.outbox work action (fun _ _ => True) ⟨machine.server, now, []⟩) :
    machine.run now work = machine.settle (machine.server.turn now action) := by
  unfold InStep at h
  unfold run Server.turn
  have hstart : Turn.station (⟨machine.server, now, []⟩ : Turn σ) machine.outbox =
      ⟨machine.server, now, machine.outbox⟩ := rfl
  rw [hstart] at h
  cases hrun : action.run ⟨machine.server, now, []⟩ with
  | ok answer last =>
    rw [hrun] at h
    rw [h.2]
    rfl
  | error failure last =>
    rw [hrun] at h
    rw [h]
    rfl

variable [Store σ]

/-- Makes a call. One that has nothing to tell answers `false`. -/
def call (arithmetic : Arithmetic) (machine : Machine σ τ) (now : Duration) :
    Call → Except Halt Bool × Machine σ τ
  | .receive sender frame =>
    let (result, later) := machine.receive arithmetic now sender frame
    (result.map fun _ => false, later)
  | .submit command => machine.submit arithmetic now command
  | .receiveCommand frame => machine.receiveCommand arithmetic now frame
  | .pollTimer => machine.pollTimer arithmetic now
  | .perform =>
    let (result, later) := machine.perform arithmetic now
    (result.map fun _ => false, later)
  | .transfer target =>
    let (result, later) := machine.transfer target
    (result.map fun _ => false, later)

/-- The machine after calls at clock readings of their own. -/
def after (arithmetic : Arithmetic) (machine : Machine σ τ) (calls : List (Duration × Call)) :
    Machine σ τ :=
  calls.foldl (fun later (now, call) => (later.call arithmetic now call).2) machine

variable {arithmetic : Arithmetic} {machine : Machine σ τ} {now : Duration}

omit [Store σ] in
theorem settle_map {α : Type} (outcome : Outcome σ α) (change : α → Bool) :
    ((machine.settle outcome).1.map change, (machine.settle outcome).2) =
      machine.settle (outcome.map change) := by
  obtain ⟨server, postings, answer⟩ := outcome
  cases answer <;> rfl

/-- Handling an event is a part of each of these calls. -/
theorem dispatch_eq_settle {α : Type} (hroom : Room arithmetic 1 machine.server) (event : Event)
    {rest : Unit → Work σ τ α} {rest' : Unit → Action σ α}
    (hrest : ∀ turn : Turn σ,
      InStep machine.outbox (rest ()) (rest' ()) (fun _ _ => True) turn) :
    machine.run now (Work.dispatch arithmetic event >>= rest) =
      machine.settle (machine.server.turn now (Action.dispatch event >>= rest')) := by
  have hroomy : Turn.Roomy arithmetic 1 (⟨machine.server, now, []⟩ : Turn σ) := hroom
  exact run_eq_settle (inStep_bind ((dispatch_inStep hroomy event).mono fun _ last _ => hrest last))

theorem receive_eq_settle (hroom : Room arithmetic 1 machine.server) (sender : ServerId)
    (frame : Bytes) :
    machine.receive arithmetic now sender frame =
      machine.settle (machine.server.receive now sender frame) := by
  have hroomy : Turn.Roomy arithmetic 1 (⟨machine.server, now, []⟩ : Turn σ) := hroom
  unfold receive Server.receive
  split
  next =>
    cases Message.decode frame with
    | error cause => rfl
    | ok message =>
      exact run_eq_settle ((dispatch_inStep hroomy _).mono fun _ _ _ => trivial)
  next => rfl

theorem submit_eq_settle (hroom : Room arithmetic 1 machine.server) (command : Command) :
    machine.submit arithmetic now command =
      machine.settle (machine.server.submit now command) :=
  dispatch_eq_settle hroom _ fun _ => inStep_server.mpr (inStep_pure trivial)

theorem receiveCommand_eq_settle (hroom : Room arithmetic 1 machine.server) (frame : Bytes) :
    machine.receiveCommand arithmetic now frame =
      machine.settle (machine.server.receiveCommand now frame) := by
  unfold receiveCommand Server.receiveCommand
  cases Command.decode frame with
  | error cause => rfl
  | ok command => exact submit_eq_settle hroom command

theorem pollTimer_eq_settle (hroom : Room arithmetic 1 machine.server) :
    machine.pollTimer arithmetic now = machine.settle (machine.server.pollTimer now) := by
  unfold pollTimer Server.pollTimer
  split
  next => exact dispatch_eq_settle hroom _ fun _ => inStep_pure trivial
  next => rfl

theorem perform_eq_settle (hroom : Room arithmetic 1 machine.server)
    (hterm : arithmetic.nextTerm machine.server.term =
      Arithmetic.exact.nextTerm machine.server.term) :
    machine.perform arithmetic now = machine.settle (machine.server.perform now) := by
  have hroomy : Turn.Roomy arithmetic 1 (⟨machine.server, now, []⟩ : Turn σ) := hroom
  exact run_eq_settle ((perform_inStep hroomy hterm).mono fun _ _ _ => trivial)

/-- A machine that has room for its sums is left as its server is by the same call. -/
theorem call_eq_settle (hroom : Room arithmetic 1 machine.server)
    (hterm : arithmetic.nextTerm machine.server.term =
      Arithmetic.exact.nextTerm machine.server.term)
    {call : Call} (htransfer : ¬ call.IsTransfer) :
    machine.call arithmetic now call = machine.settle (machine.server.call now call) := by
  cases call with
  | receive sender frame =>
    refine Eq.trans ?_ (settle_map (machine.server.receive now sender frame) fun _ => false)
    rw [← receive_eq_settle hroom]
    rfl
  | submit command => exact submit_eq_settle hroom command
  | receiveCommand frame => exact receiveCommand_eq_settle hroom frame
  | pollTimer => exact pollTimer_eq_settle hroom
  | perform =>
    refine Eq.trans ?_ (settle_map (machine.server.perform now) fun _ => false)
    rw [← perform_eq_settle hroom hterm]
    rfl
  | transfer target => exact absurd trivial htransfer

/-- A transfer leaves the server alone, and forms no sums. -/
theorem transfer_server (target : ServerId) :
    (machine.call arithmetic now (.transfer target)).2.server = machine.server := by
  change (machine.transfer target).2.server = machine.server
  unfold transfer
  split <;> rfl

theorem server_transfer (server : Server σ) (target : ServerId) :
    (server.call now (.transfer target)).server = server := by
  change (server.transfer target).server = server
  unfold Server.transfer
  split <;> rfl

/-- A call to the machine leaves its server as the same call to the server does. -/
theorem call_server (hroom : Room arithmetic 1 machine.server)
    (hterm : arithmetic.nextTerm machine.server.term =
      Arithmetic.exact.nextTerm machine.server.term) (call : Call) :
    (machine.call arithmetic now call).2.server = (machine.server.call now call).server := by
  by_cases htransfer : call.IsTransfer
  · cases call with
    | transfer target => rw [transfer_server, server_transfer]
    | _ => exact htransfer.elim
  · rw [call_eq_settle hroom hterm htransfer]
    rfl

end Machine

end Consensus
