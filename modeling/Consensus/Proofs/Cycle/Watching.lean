import Consensus.Proofs.Cycle.Parts

/-! # Watching a duty cycle

Which peers a server polls, and what it finds, can be told by whoever watches its transport. A
server whose transport is watched does what it does when nobody looks.
-/

namespace Consensus

/-- A poll of a peer's inbox, and the frame found there, if any. -/
structure Poll where
  peer : ServerId
  found : Option Bytes
  deriving DecidableEq, Repr

/-- A transport with the polls of peers that were made of it, oldest first. -/
structure Watched (τ : Type) where
  transport : τ
  polls : List Poll

variable {σ τ α β : Type} [Transport τ]

instance : Transport (Watched τ) where
  offer watched receiver frame :=
    let (verdict, transport) := Transport.offer watched.transport receiver frame
    (verdict, { watched with transport })
  pollPeer watched peer :=
    let (found, transport) := Transport.pollPeer watched.transport peer
    (found, ⟨transport, watched.polls ++ [⟨peer, found⟩]⟩)
  pollCommand watched :=
    let (found, transport) := Transport.pollCommand watched.transport
    (found, { watched with transport })

/-- A watched poll is noted together with what it found. -/
theorem Watched.pollPeer {watched : Watched τ} {peer : ServerId} {found : Option Bytes}
    {transport : τ} (h : Transport.pollPeer watched.transport peer = (found, transport)) :
    Transport.pollPeer watched peer = (found, ⟨transport, watched.polls ++ [⟨peer, found⟩]⟩) := by
  change ((Transport.pollPeer watched.transport peer).1,
    Watched.mk (Transport.pollPeer watched.transport peer).2
      (watched.polls ++ [⟨peer, (Transport.pollPeer watched.transport peer).1⟩])) = _
  rw [h]

/-! ## Sending -/

namespace Transport

/-- Posting leaves what the offers leave, whether or not one is accepted. -/
theorem post_snd (attempts : Nat) (receiver : ServerId) (message : Message) (transport : τ) :
    (post attempts receiver message transport).2 =
      (offerUpTo receiver message.encode (attemptsMade attempts) transport).2 := by
  unfold post send
  rcases offerUpTo receiver message.encode (attemptsMade attempts) transport with
    ⟨_ | _ | _ | _, offered⟩ <;> rfl

theorem offerUpTo_keeps {kept : τ → Prop}
    (hoffer : ∀ transport receiver frame, kept transport →
      kept (offer transport receiver frame).2) (receiver : ServerId) (frame : Bytes)
    (attempts : Nat) {transport : τ} (h : kept transport) :
    kept (offerUpTo receiver frame attempts transport).2 := by
  induction attempts generalizing transport with
  | zero => exact h
  | succ attempts ih =>
    have hoffered := hoffer transport receiver frame h
    unfold offerUpTo
    dsimp only
    split
    next => exact ih hoffered
    next => exact hoffered

/-- What every offer keeps, sending messages keeps. -/
theorem postAll_keeps {kept : τ → Prop}
    (hoffer : ∀ transport receiver frame, kept transport →
      kept (offer transport receiver frame).2) (attempts : Nat)
    (messages : List (ServerId × Message)) {transport : τ} (h : kept transport) :
    kept (postAll attempts messages transport) := by
  unfold postAll
  induction messages generalizing transport with
  | nil => exact h
  | cons message rest ih =>
    refine ih ?_
    dsimp only
    rw [post_snd]
    exact offerUpTo_keeps hoffer _ _ _ h

/-- A frame that is offered again and again is offered as if nobody watched. -/
theorem offerUpTo_watched (receiver : ServerId) (frame : Bytes) (attempts : Nat)
    (watched : Watched τ) :
    offerUpTo receiver frame attempts watched =
      ((offerUpTo receiver frame attempts watched.transport).1,
        { watched with
          transport := (offerUpTo receiver frame attempts watched.transport).2 }) := by
  induction attempts generalizing watched with
  | zero => rfl
  | succ attempts ih =>
    simp only [offerUpTo, offer]
    split
    next => rw [ih]
    next => rfl

/-- Messages are posted as if nobody watched, and no poll is noted. -/
theorem postAll_watched (attempts : Nat) (messages : List (ServerId × Message))
    (watched : Watched τ) :
    postAll attempts messages watched =
      { watched with transport := postAll attempts messages watched.transport } := by
  unfold postAll
  induction messages generalizing watched with
  | nil => rfl
  | cons message rest ih =>
    rw [List.foldl_cons, ih, List.foldl_cons]
    simp only [post_snd, offerUpTo_watched]

end Transport

/-! ## Erasure -/

/-- The host with nobody watching any more. -/
def Host.unwatch (host : Host σ (Watched τ)) : Host σ τ := ⟨host.server, host.transport.transport⟩

/-- A host that is watched settles a call as it would otherwise. -/
theorem Host.settle_unwatch (host : Host σ (Watched τ)) (outcome : Outcome σ α) :
    host.unwatch.settle outcome =
      ((host.settle outcome).1, (host.settle outcome).2.unwatch) := by
  simp only [settle, unwatch, Transport.postAll_watched]

namespace DutyCycle

/-- The cycle with its transport watched from now on. -/
def watch (cycle : DutyCycle σ τ) : DutyCycle σ (Watched τ) :=
  ⟨⟨cycle.host.server, ⟨cycle.host.transport, []⟩⟩, cycle.nextPeer, cycle.calls⟩

def unwatch (cycle : DutyCycle σ (Watched τ)) : DutyCycle σ τ :=
  ⟨cycle.host.unwatch, cycle.nextPeer, cycle.calls⟩

/-- The polls of peers that a part of a pass makes. -/
def polls (part : Step σ (Watched τ) α) (cycle : DutyCycle σ τ) : List Poll :=
  (perform part cycle.watch).2.host.transport.polls

/-- A part of a pass does the same whether or not it is watched. -/
def Unseen (watched : Step σ (Watched τ) α) (plain : Step σ τ α) : Prop :=
  ∀ cycle, perform plain cycle.unwatch =
    ((perform watched cycle).1, (perform watched cycle).2.unwatch)

omit [Transport τ] in
theorem unseen_pure (answer : α) :
    Unseen (pure answer : Step σ (Watched τ) α) (pure answer) :=
  fun _ => rfl

omit [Transport τ] in
/-- Parts of which neither sees the watcher do not see it one after the other. -/
theorem Unseen.bind {watched : Step σ (Watched τ) α} {plain : Step σ τ α}
    {watchedRest : α → Step σ (Watched τ) β} {rest : α → Step σ τ β} (h : Unseen watched plain)
    (hrest : ∀ answer, Unseen (watchedRest answer) (rest answer)) :
    Unseen (watched >>= watchedRest) (plain >>= rest) := by
  intro cycle
  rw [perform_bind, perform_bind, h cycle]
  rcases perform watched cycle with ⟨failure | answer, worked⟩
  · rfl
  · exact hrest answer worked

/-- A watched call posts the messages that it would post. -/
theorem unseen_call (clock : Clock) (act : Server σ → Duration → Outcome σ α) :
    Unseen (call clock fun (host : Host σ (Watched τ)) now => host.settle (act host.server now))
      (call clock fun (host : Host σ τ) now => host.settle (act host.server now)) := by
  intro cycle
  rw [perform_call, perform_call]
  have hsettle := cycle.host.settle_unwatch (act cycle.host.server (clock cycle.calls))
  exact congrArg₂ Prod.mk (congrArg Prod.fst hsettle)
    (congrArg (fun settled => cycle.unwatch.called settled.2) hsettle)

variable [Store σ]

theorem unseen_take (clock : Clock) (peer : ServerId) (found : Option Bytes) :
    Unseen (take clock peer found : Step σ (Watched τ) Bool) (take clock peer found) := by
  cases found with
  | none => exact unseen_pure false
  | some frame => exact (unseen_call clock (·.receive · peer frame)).bind fun _ => unseen_pure true

theorem unseen_pollNextPeer (clock : Clock) (peers : List ServerId) :
    Unseen (pollNextPeer clock peers : Step σ (Watched τ) Bool) (pollNextPeer clock peers) :=
  fun cycle => unseen_take clock (cycle.next peers) _ (cycle.polled peers)

/-- The polls of a pass do not see the watcher. -/
theorem unseen_pollPeersFor (clock : Clock) (peers : List ServerId) (limit idle : Nat) :
    Unseen (pollPeersFor clock peers limit idle : Step σ (Watched τ) Nat)
      (pollPeersFor clock peers limit idle) := by
  induction limit, idle using pollPeersFor.induct peers with
  | case1 idle =>
    rw [pollPeersFor_of_done clock peers (.inl rfl), pollPeersFor_of_done clock peers (.inl rfl)]
    exact unseen_pure 0
  | case2 limit _ =>
    rw [pollPeersFor_of_done clock peers (.inr rfl), pollPeersFor_of_done clock peers (.inr rfl)]
    exact unseen_pure 0
  | case3 limit idle ihfound ihnone =>
    rw [pollPeersFor, pollPeersFor]
    refine (unseen_pollNextPeer clock peers).bind fun found => ?_
    cases found with
    | true => exact ihfound.bind fun _ => unseen_pure _
    | false => exact ihnone

theorem unseen_pollPeers (clock : Clock) :
    Unseen (pollPeers clock : Step σ (Watched τ) Nat) (pollPeers clock) :=
  fun cycle => unseen_pollPeersFor clock _ _ _ cycle

theorem unseen_pollCommandsFor (clock : Clock) (limit : Nat) :
    Unseen (pollCommandsFor clock limit : Step σ (Watched τ) Nat)
      (pollCommandsFor clock limit) := by
  induction limit with
  | zero => exact unseen_pure 0
  | succ limit ih =>
    have hpoll : Unseen (poll Transport.pollCommand : Step σ (Watched τ) (Option Bytes))
        (poll Transport.pollCommand) := fun _ => rfl
    refine hpoll.bind fun found => ?_
    cases found with
    | none => exact unseen_pure 0
    | some frame =>
      refine (unseen_call clock (·.receiveCommand · frame)).bind fun _ => ?_
      exact ih.bind fun _ => unseen_pure _

/-- A pass answers and leaves what it would if nobody were watching its transport. -/
theorem unseen_pass (clock : Clock) :
    Unseen (pass clock : Step σ (Watched τ) Nat) (pass clock) := by
  refine (unseen_call clock (·.pollTimer ·)).bind fun _ => (unseen_pollPeers clock).bind fun _ => ?_
  have hcommands : Unseen (pollCommands clock : Step σ (Watched τ) Nat) (pollCommands clock) :=
    fun cycle => unseen_pollCommandsFor clock _ cycle
  exact hcommands.bind fun _ => (unseen_call clock (·.perform ·)).bind fun _ => unseen_pure _

/-- Apart from its polls of peers a pass polls no peer. -/
theorem keptApart_polls (polls : List Poll) :
    KeptApart (fun cycle : DutyCycle σ (Watched τ) => cycle.host.transport.polls = polls) where
  call cycle now call h := by
    rw [called, Host.settle, Transport.postAll_watched]
    exact h
  pollCommand _ h := h

/-- The polls of a pass are those of the peers' inboxes, when the timer has been called. -/
theorem polls_pass {clock : Clock} {cycle : DutyCycle σ τ} {fired : Bool}
    (hfired : (cycle.host.pollTimer (clock cycle.calls)).1 = .ok fired) :
    polls (pass clock) cycle =
      polls (pollPeers clock) (cycle.called (cycle.host.pollTimer (clock cycle.calls)).2) := by
  have htimer : perform (call clock (·.pollTimer ·)) cycle.watch =
      (.ok fired, (cycle.called (cycle.host.pollTimer (clock cycle.calls)).2).watch) := by
    rw [perform_call]
    refine Prod.ext hfired ?_
    simp only [called, watch, Host.pollTimer, Host.settle, Transport.postAll_watched]
  rw [polls, polls, pass, perform_bind_of_ok htimer, perform_bind]
  rcases perform (pollPeers clock) _ with ⟨failure | frames, worked⟩
  · rfl
  · exact (keptApart_polls _).finish clock _ rfl

end DutyCycle

end Consensus
