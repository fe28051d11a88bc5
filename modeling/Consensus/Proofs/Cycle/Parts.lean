import Consensus.Server.DutyCycle
import Consensus.Proofs.Turn.Calls
import Mathlib.Tactic.Common

/-! # Parts of a pass

A pass over a server's inboxes is put together of calls to its host and polls of its transport.
What each of these keeps, the whole pass keeps, and it keeps it too when a call fails.
-/

namespace Consensus.DutyCycle

variable {σ τ α β : Type}

/-! ## Rules -/

section Rules

variable {cycle worked : DutyCycle σ τ} {part : Step σ τ α} {rest : α → Step σ τ β}

/-- Two parts are performed one after the other, unless the first one fails. -/
theorem perform_bind (part : Step σ τ α) (rest : α → Step σ τ β) (cycle : DutyCycle σ τ) :
    perform (part >>= rest) cycle =
      match perform part cycle with
      | (.ok answer, worked) => perform (rest answer) worked
      | (.error failure, worked) => (.error failure, worked) := by
  unfold perform
  rw [EStateM.run_bind]
  cases part.run cycle <;> rfl

theorem perform_bind_of_ok {answer : α} (h : perform part cycle = (.ok answer, worked)) :
    perform (part >>= rest) cycle = perform (rest answer) worked := by
  rw [perform_bind, h]

theorem perform_bind_of_error {failure : Failure}
    (h : perform part cycle = (.error failure, worked)) :
    perform (part >>= rest) cycle = (.error failure, worked) := by
  rw [perform_bind, h]

/-- What each of two parts keeps, whether or not it fails, both keep one after the other. -/
theorem keeps_bind {kept : DutyCycle σ τ → Prop} (hpart : kept (perform part cycle).2)
    (hrest : ∀ answer worked, kept worked → kept (perform (rest answer) worked).2) :
    kept (perform (part >>= rest) cycle).2 := by
  rcases hworked : perform part cycle with ⟨failure | answer, worked⟩
  · rw [perform_bind_of_error hworked]
    rwa [hworked] at hpart
  · rw [perform_bind_of_ok hworked]
    rw [hworked] at hpart
    exact hrest answer worked hpart

/-- The cycle after one more call, which has left the host so. -/
def called (cycle : DutyCycle σ τ) (host : Host σ τ) : DutyCycle σ τ :=
  { cycle with host, calls := cycle.calls + 1 }

/-- A call takes the reading of the clock that is due and leaves the rest of the cycle alone. -/
theorem perform_call (clock : Clock) (act : Host σ τ → Duration → Except Failure α × Host σ τ)
    (cycle : DutyCycle σ τ) :
    perform (call clock act) cycle =
      ((act cycle.host (clock cycle.calls)).1,
        cycle.called (act cycle.host (clock cycle.calls)).2) := by
  have hrun : (call clock act).run cycle =
      EStateM.run (call clock fun _ _ => act cycle.host (clock cycle.calls)) cycle := rfl
  unfold perform
  rw [hrun]
  rcases act cycle.host (clock cycle.calls) with ⟨failure | value, host⟩ <;> rfl

/-- Leaves the transport of the cycle as given. -/
def carry (cycle : DutyCycle σ τ) (transport : τ) : DutyCycle σ τ :=
  { cycle with host := { cycle.host with transport } }

end Rules

variable [Store σ] [Transport τ]

/-! ## Polls of peers -/

/-- The peer that is polled next. -/
def next (cycle : DutyCycle σ τ) (peers : List ServerId) : ServerId :=
  peers.getD cycle.nextPeer 0

/-- The cycle after its next poll, before anything is done with what was found. -/
def polled (cycle : DutyCycle σ τ) (peers : List ServerId) : DutyCycle σ τ :=
  { cycle.carry (Transport.pollPeer cycle.host.transport (cycle.next peers)).2 with
    nextPeer := (cycle.nextPeer + 1) % peers.length }

/-- Handles what a poll of a peer has found, if anything, and tells whether it has. -/
def take (clock : Clock) (peer : ServerId) : Option Bytes → Step σ τ Bool
  | none => return false
  | some frame => do
    call clock (·.receive · peer frame)
    return true

/-- A frame that was found is received from the peer it was found at. -/
theorem perform_take_some (clock : Clock) (peer : ServerId) (frame : Bytes)
    (cycle : DutyCycle σ τ) :
    perform (take clock peer (some frame)) cycle =
      ((cycle.host.receive (clock cycle.calls) peer frame).1.map fun _ => true,
        cycle.called (cycle.host.receive (clock cycle.calls) peer frame).2) := by
  rw [take, perform_bind, perform_call]
  cases (cycle.host.receive (clock cycle.calls) peer frame).1 <;> rfl

/-- The peer whose turn it is is polled, and what was found is handled. -/
theorem perform_pollNextPeer (clock : Clock) (peers : List ServerId) (cycle : DutyCycle σ τ) :
    perform (pollNextPeer clock peers) cycle =
      perform (take clock (cycle.next peers)
        (Transport.pollPeer cycle.host.transport (cycle.next peers)).1) (cycle.polled peers) := rfl

theorem perform_pollNextPeer_of_poll {peers : List ServerId} {cycle : DutyCycle σ τ}
    {found : Option Bytes} {transport : τ} (clock : Clock)
    (hpoll : Transport.pollPeer cycle.host.transport (cycle.next peers) = (found, transport)) :
    perform (pollNextPeer clock peers) cycle =
      perform (take clock (cycle.next peers) found)
        { cycle.carry transport with nextPeer := (cycle.nextPeer + 1) % peers.length } := by
  rw [perform_pollNextPeer, polled, hpoll]

/-- A frame that is found starts a new lap, and a poll that finds nothing shortens this one. -/
theorem perform_pollPeersFor (clock : Clock) (peers : List ServerId) (limit idle : Nat)
    (cycle : DutyCycle σ τ) :
    perform (pollPeersFor clock peers (limit + 1) (idle + 1)) cycle =
      match perform (pollNextPeer clock peers) cycle with
      | (.ok true, worked) =>
        let rest := perform (pollPeersFor clock peers limit peers.length) worked
        (rest.1.map (· + 1), rest.2)
      | (.ok false, worked) => perform (pollPeersFor clock peers (limit + 1) idle) worked
      | (.error failure, worked) => (.error failure, worked) := by
  rw [pollPeersFor, perform_bind]
  rcases perform (pollNextPeer clock peers) cycle with ⟨failure | ⟨_ | _⟩, worked⟩
  · rfl
  · rfl
  · dsimp only
    rw [if_pos rfl, perform_bind]
    rcases perform (pollPeersFor clock peers limit peers.length) worked with ⟨_ | _, _⟩ <;> rfl

/-- Polling ends at its limit, or when a lap has found nothing. -/
theorem pollPeersFor_of_done (clock : Clock) (peers : List ServerId) {limit idle : Nat}
    (hdone : limit = 0 ∨ idle = 0) :
    (pollPeersFor clock peers limit idle : Step σ τ Nat) = pure 0 := by
  unfold pollPeersFor
  rcases hdone with rfl | rfl
  · rfl
  · cases limit <;> rfl

/-- The rest of a pass, when the timer and the peers' inboxes are done with. -/
def finish (clock : Clock) (handled : Nat) : Step σ τ Nat := do
  let commands ← pollCommands clock
  call clock (·.perform ·)
  return handled + commands

/-! ## What a pass keeps -/

/-- A property that whatever a pass does but poll its peers keeps. -/
structure KeptApart (kept : DutyCycle σ τ → Prop) : Prop where
  call : ∀ cycle now call, kept cycle →
    kept (cycle.called (cycle.host.settle (cycle.host.server.call now call)).2)
  pollCommand : ∀ cycle, kept cycle →
    kept (cycle.carry (Transport.pollCommand cycle.host.transport).2)

/-- A property that whatever a pass does keeps, while the server polls these peers. -/
structure Kept (kept : DutyCycle σ τ → Prop) (peers : List ServerId) : Prop
    extends KeptApart kept where
  peers_eq : ∀ cycle, kept cycle → cycle.host.server.config.peerIds = peers
  pollPeer : ∀ cycle, peers ≠ [] → kept cycle → kept (cycle.polled peers)

variable {kept : DutyCycle σ τ → Prop} {peers : List ServerId} {cycle : DutyCycle σ τ}

namespace KeptApart

theorem perform_call {act : Host σ τ → Duration → Except Failure α × Host σ τ}
    (hkept : KeptApart kept) (clock : Clock) (call : Call)
    (hact : ∀ host now, (act host now).2 = (host.settle (host.server.call now call)).2)
    (h : kept cycle) : kept (perform (DutyCycle.call clock act) cycle).2 := by
  rw [DutyCycle.perform_call, hact]
  exact hkept.call cycle _ call h

/-- Polls of the command inbox keep what calls and such polls keep. -/
theorem pollCommandsFor (hkept : KeptApart kept) (clock : Clock) (limit : Nat)
    (h : kept cycle) : kept (perform (pollCommandsFor clock limit) cycle).2 := by
  induction limit generalizing cycle with
  | zero => exact h
  | succ limit ih =>
    refine keeps_bind (hkept.pollCommand cycle h) fun found worked hworked => ?_
    cases found with
    | none => exact hworked
    | some frame =>
      have hreceived :=
        hkept.perform_call clock (.receiveCommand frame) (fun _ _ => rfl) hworked
      refine keeps_bind hreceived fun _ _ hreceived => ?_
      exact keeps_bind (ih hreceived) fun _ _ hrest => hrest

/-- The rest of a pass keeps what calls and polls of the command inbox keep. -/
theorem finish (hkept : KeptApart kept) (clock : Clock) (handled : Nat) (h : kept cycle) :
    kept (perform (finish clock handled) cycle).2 := by
  refine keeps_bind (hkept.pollCommandsFor clock _ h) fun _ _ hcommands => ?_
  refine keeps_bind (hkept.perform_call clock .perform (fun _ _ => rfl) hcommands) ?_
  exact fun _ _ hperformed => hperformed

end KeptApart

namespace Kept

theorem pollNextPeer (hkept : Kept kept peers) (clock : Clock) (hpeers : peers ≠ [])
    (h : kept cycle) : kept (perform (pollNextPeer clock peers) cycle).2 := by
  have hpolled := hkept.pollPeer cycle hpeers h
  rw [perform_pollNextPeer]
  cases (Transport.pollPeer cycle.host.transport (cycle.next peers)).1 with
  | none => exact hpolled
  | some frame =>
    rw [perform_take_some]
    exact hkept.call _ _ (.receive (cycle.next peers) frame) hpolled

/-- Polls of peers keep what calls and such polls keep. -/
theorem pollPeersFor (hkept : Kept kept peers) (clock : Clock) (hpeers : peers ≠ [])
    (limit idle : Nat) (h : kept cycle) :
    kept (perform (pollPeersFor clock peers limit idle) cycle).2 := by
  induction limit, idle using DutyCycle.pollPeersFor.induct peers generalizing cycle with
  | case1 idle => rwa [pollPeersFor_of_done clock peers (.inl rfl)]
  | case2 limit _ => rwa [pollPeersFor_of_done clock peers (.inr rfl)]
  | case3 limit idle ihfound ihnone =>
    have hworked := hkept.pollNextPeer clock hpeers h
    rw [perform_pollPeersFor]
    split
    next worked hpoll => exact ihfound (by rwa [hpoll] at hworked)
    next worked hpoll => exact ihnone (by rwa [hpoll] at hworked)
    next failure worked hpoll => rwa [hpoll] at hworked

theorem pollPeers (hkept : Kept kept peers) (clock : Clock) (h : kept cycle) :
    kept (perform (pollPeers clock) cycle).2 := by
  change kept (perform (DutyCycle.pollPeersFor clock cycle.host.server.config.peerIds
    cycle.host.server.config.maxMessagesPerTick _) cycle).2
  rw [hkept.peers_eq cycle h]
  cases peers with
  | nil => rwa [List.length_nil, pollPeersFor_of_done clock [] (.inr rfl)]
  | cons peer rest => exact hkept.pollPeersFor clock (List.cons_ne_nil _ _) _ _ h

/-- What is kept by whatever a pass does is kept by a pass, also by one that fails. -/
theorem pass (hkept : Kept kept peers) (clock : Clock) (h : kept cycle) :
    kept (perform (pass clock) cycle).2 := by
  refine keeps_bind (hkept.perform_call clock .pollTimer (fun _ _ => rfl) h) fun _ _ htimer => ?_
  refine keeps_bind (hkept.pollPeers clock htimer) fun _ _ hpeers => ?_
  exact hkept.finish clock _ hpeers

end Kept

end Consensus.DutyCycle
