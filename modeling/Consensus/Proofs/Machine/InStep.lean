import Consensus.Machine.Work
import Consensus.Proofs.Turn.Action

/-! # Machines in step with servers

A machine is in step with a server if it answers and is left as the server is, having offered
what the server has posted. The rules follow the steps of both. A sum that can be formed is a
step of the machine alone.
-/

namespace Consensus

variable {σ τ α β γ : Type} [Transport τ]

/-- The turn on a machine that began it with this outbox. -/
def Turn.station (turn : Turn σ) (outbox : Outbox τ) : Station σ τ :=
  ⟨turn.server, turn.now, outbox.postAll turn.messages⟩

/-- Run from `turn`, the work fails as the action does, or it has the same answer and both leave
what is `done`. -/
def InStep (outbox : Outbox τ) (work : Work σ τ α) (action : Action σ α)
    (done : α → Turn σ → Prop) (turn : Turn σ) : Prop :=
  match action.run turn with
  | .ok answer last =>
    done answer last ∧ work.run (turn.station outbox) = .ok answer (last.station outbox)
  | .error failure last =>
    work.run (turn.station outbox) = .error (.failure failure) (last.station outbox)

variable {outbox : Outbox τ} {done : α → Turn σ → Prop} {turn : Turn σ}

theorem InStep.mono {work : Work σ τ α} {action : Action σ α} {wider : α → Turn σ → Prop}
    (h : InStep outbox work action done turn)
    (hdone : ∀ answer last, done answer last → wider answer last) :
    InStep outbox work action wider turn := by
  unfold InStep at h ⊢
  cases hrun : action.run turn with
  | ok answer last =>
    rw [hrun] at h
    exact ⟨hdone answer last h.1, h.2⟩
  | error failure last =>
    rw [hrun] at h
    exact h

/-! ## Rules -/

theorem inStep_pure {answer : α} (h : done answer turn) :
    InStep outbox (pure answer) (pure answer) done turn := ⟨h, rfl⟩

theorem inStep_fail (failure : Failure) :
    InStep outbox (Work.fail failure : Work σ τ α) (throw failure) done turn := by
  change _ = _
  rfl

/-- Work is in step if its first part is and, from where that ends, its rest. -/
theorem inStep_bind {work : Work σ τ β} {action : Action σ β} {rest : β → Work σ τ α}
    {rest' : β → Action σ α}
    (h : InStep outbox work action
      (fun answer last => InStep outbox (rest answer) (rest' answer) done last) turn) :
    InStep outbox (work >>= rest) (action >>= rest') done turn := by
  unfold InStep at h ⊢
  rw [EStateM.run_bind, EStateM.run_bind]
  cases hrun : action.run turn with
  | ok answer last =>
    rw [hrun] at h
    rw [h.2]
    exact h.1
  | error failure last =>
    rw [hrun] at h
    rw [h]

theorem inStep_server {rest : Server σ → Work σ τ α} {rest' : Server σ → Action σ α} :
    InStep outbox (Work.server >>= rest) (Action.server >>= rest') done turn ↔
      InStep outbox (rest turn.server) (rest' turn.server) done turn := Iff.rfl

theorem inStep_now {rest : Duration → Work σ τ α} {rest' : Duration → Action σ α} :
    InStep outbox (Work.now >>= rest) (Action.now >>= rest') done turn ↔
      InStep outbox (rest turn.now) (rest' turn.now) done turn := Iff.rfl

/-- The machine looks at the server by itself. -/
theorem inStep_work_server {rest : Server σ → Work σ τ α} {action : Action σ α} :
    InStep outbox (Work.server >>= rest) action done turn ↔
      InStep outbox (rest turn.server) action done turn := Iff.rfl

/-- The server looks at itself by itself. -/
theorem inStep_action_server {work : Work σ τ α} {rest : Server σ → Action σ α} :
    InStep outbox work (Action.server >>= rest) done turn ↔
      InStep outbox work (rest turn.server) done turn := Iff.rfl

/-- The machine forms a sum. -/
theorem inStep_form {sum : Option γ} {value : γ} (hsum : sum = some value)
    {rest : γ → Work σ τ α} {action : Action σ α} :
    InStep outbox (Work.form sum >>= rest) action done turn ↔
      InStep outbox (rest value) action done turn := by
  rw [hsum]
  exact Iff.rfl

theorem inStep_ite {p : Prop} [Decidable p] {first second : Work σ τ α}
    {first' second' : Action σ α} (hfirst : p → InStep outbox first first' done turn)
    (hsecond : ¬ p → InStep outbox second second' done turn) :
    InStep outbox (if p then first else second) (if p then first' else second') done turn := by
  split
  next h => exact hfirst h
  next h => exact hsecond h

variable {done : Unit → Turn σ → Prop}

theorem inStep_modifyServer {change : Server σ → Server σ}
    (h : done () { turn with server := change turn.server }) :
    InStep outbox (Work.modifyServer change) (Action.modifyServer change) done turn := ⟨h, rfl⟩

theorem inStep_setRole {role : Role}
    (h : done () { turn with server := { turn.server with role } }) :
    InStep outbox (Work.setRole role) (Action.setRole role) done turn := ⟨h, rfl⟩

theorem inStep_modifyProgress {change : Progress → Progress}
    (h : done () { turn with
      server := { turn.server with progress := change turn.server.progress } }) :
    InStep outbox (Work.modifyProgress change) (Action.modifyProgress change) done turn := ⟨h, rfl⟩

theorem inStep_modifyTimer {change : Countdown → Duration → Countdown}
    (h : done () { turn with
      server := { turn.server with timer := change turn.server.timer turn.now } }) :
    InStep outbox (Work.modifyTimer change) (Action.modifyTimer change) done turn := ⟨h, rfl⟩

/-- A message is offered where it is posted. -/
theorem inStep_post {receiver : ServerId} {message : Message}
    (h : done () { turn with
      postings := turn.postings ++ [⟨receiver, message, turn.server⟩] }) :
    InStep outbox (Work.post receiver message) (Action.post receiver message) done turn := by
  refine ⟨h, ?_⟩
  have hoffered : outbox.postAll (turn.messages ++ [(receiver, message)]) =
      ((outbox.postAll turn.messages).post receiver message).2 := List.foldl_append ..
  have hmessages : Turn.messages { turn with
      postings := turn.postings ++ [⟨receiver, message, turn.server⟩] } =
      turn.messages ++ [(receiver, message)] := List.map_append ..
  unfold Turn.station
  rw [hmessages, hoffered]
  rfl

/-- A change of what is durable is in step if both make it alike. -/
theorem inStep_changeDurable {change : Durable σ → Except StorageFailure (Durable σ)}
    {change' : Durable σ → Except Failure (Durable σ)}
    (hsame : change' turn.server.durable = (change turn.server.durable).mapError .storage)
    (h : ∀ durable, change turn.server.durable = .ok durable →
      done () { turn with server := { turn.server with durable } }) :
    InStep outbox (Work.changeDurable change) (Action.changeDurable change') done turn := by
  unfold Work.changeDurable Action.changeDurable
  rw [inStep_server, hsame]
  cases hchange : change turn.server.durable with
  | ok durable => exact ⟨h durable hchange, rfl⟩
  | error cause => exact inStep_fail (.storage cause)

/-- What every round of a loop keeps, the loop keeps. -/
theorem inStep_forM (invariant : Turn σ → Prop) {body : β → Work σ τ Unit}
    {body' : β → Action σ Unit} {items : List β}
    (hbody : ∀ item ∈ items, ∀ last, invariant last →
      InStep outbox (body item) (body' item) (fun _ => invariant) last)
    (hstart : invariant turn) :
    InStep outbox (items.forM body) (items.forM body') (fun _ => invariant) turn := by
  induction items generalizing turn with
  | nil => exact ⟨hstart, rfl⟩
  | cons item rest ih =>
    rw [List.forM_eq_forM, List.forM_eq_forM, List.forM_cons, List.forM_cons]
    apply inStep_bind
    apply (hbody item List.mem_cons_self turn hstart).mono
    intro _ last hlast
    exact ih (fun other hother => hbody other (List.mem_cons_of_mem _ hother)) hlast

end Consensus
