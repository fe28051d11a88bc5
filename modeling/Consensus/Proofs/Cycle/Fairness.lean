import Consensus.Proofs.Cycle.Turns
import Consensus.Proofs.Life.Applying

/-! # Fair polling

A loop over a network that reaches it leaves no frame behind that a pass has room for, and keeps to
the turns of its peers from pass to pass.
-/

namespace Consensus

/-- A server runs with a configuration that was checked. -/
theorem Server.Reachable.validate {σ : Type} [Store σ] [LawfulStore σ] {server : Server σ}
    (h : server.Reachable) : server.config.validate = .ok () := by
  induction h with
  | start hvalid hstart =>
    obtain ⟨hvalidate, _, _, hview⟩ := start_eq_ok hvalid hstart
    exact (congrArg (fun view => view.config.validate) hview).trans hvalidate
  | call hreachable now call ih =>
    exact (congrArg Config.validate (call_moves hreachable.coherent now call).config_eq).trans ih
  | disturb _ _ _ _ ih => exact ih

namespace DutyCycle

/-! ## The life of a loop -/

section Life

variable {σ τ : Type} [Store σ] [LawfulStore σ] [Transport τ] {config : Config} {start : Nat}
  {cycle first middle last : DutyCycle σ τ} {polls more : List Poll}

/-- A loop that has polled its peers in turn, and goes on with the one that is next. -/
structure InTurn (config : Config) (start : Nat) (cycle : DutyCycle σ τ) (polls : List Poll) :
    Prop where
  reachable : cycle.host.server.Reachable
  config_eq : cycle.host.server.config = config
  turn_eq : cycle.nextPeer = (start + polls.length) % config.peerIds.length
  rotates : Rotates config.peerIds start polls

omit [Transport τ] in
/-- A loop takes its turns over two stretches in a row if it does over each. -/
theorem InTurn.append (h : InTurn config start middle polls)
    (hmore : InTurn config (start + polls.length) last more) :
    InTurn config start last (polls ++ more) :=
  ⟨hmore.reachable, hmore.config_eq,
    by rw [hmore.turn_eq, List.length_append, Nat.add_assoc], h.rotates.append hmore.rotates⟩

omit [Transport τ] in
/-- The peer whose turn it is comes next in the rotation. -/
theorem InTurn.next_eq (h : InTurn config start cycle polls) (hpeers : config.peerIds ≠ []) :
    config.peerIds[(start + polls.length) % config.peerIds.length]? =
      some (cycle.next config.peerIds) := by
  have hlt : (start + polls.length) % config.peerIds.length < config.peerIds.length :=
    Nat.mod_lt _ (List.length_pos_iff.mpr hpeers)
  rw [next, h.turn_eq, List.getD_eq_getElem _ _ hlt, List.getElem?_eq_getElem hlt]

/-- A call is not seen by who watches the polls, and leaves the configuration as it is. -/
theorem inTurn_kept (config : Config) (start : Nat) :
    Kept (fun cycle : DutyCycle σ (Watched τ) =>
      InTurn config start cycle.unwatch cycle.host.transport.polls) config.peerIds where
  peers_eq cycle h := congrArg Config.peerIds h.config_eq
  call cycle now call h := by
    have hpolls : (cycle.host.settle (cycle.host.server.call now call)).2.transport.polls =
        cycle.host.transport.polls := by
      rw [Host.settle, Transport.postAll_watched]
    have hconfig := (Server.call_moves h.reachable.coherent now call).config_eq
    exact ⟨h.reachable.call now call, hconfig.trans h.config_eq, hpolls ▸ h.turn_eq,
      hpolls ▸ h.rotates⟩
  pollPeer cycle hpeers h := by
    refine ⟨h.reachable, h.config_eq, ?_, ?_⟩
    · change (cycle.nextPeer + 1) % config.peerIds.length =
        (start + (cycle.host.transport.polls ++ [_]).length) % config.peerIds.length
      have hturn : cycle.nextPeer = _ := h.turn_eq
      rw [hturn, Nat.mod_add_mod, List.length_append, List.length_singleton, Nat.add_assoc]
    · exact h.rotates.append (rotates_singleton.mpr (h.next_eq hpeers))
  pollCommand cycle h := ⟨h.reachable, h.config_eq, h.turn_eq, h.rotates⟩

/-- A pass goes on with the turns, also one that fails. -/
theorem InTurn.pass (h : InTurn config start cycle polls) (clock : Clock) :
    InTurn config start (perform (pass clock) cycle).2
      (polls ++ DutyCycle.polls (pass clock) cycle) := by
  have hbegun : InTurn config (start + polls.length) cycle.watch.unwatch [] :=
    ⟨h.reachable, h.config_eq, h.turn_eq, rotates_nil⟩
  have hpassed := (inTurn_kept config (start + polls.length)).pass clock hbegun
  have hunseen := congrArg Prod.snd (unseen_pass clock cycle.watch)
  exact h.append (hunseen ▸ hpassed)

/-- From `first` to `last` a loop makes passes, in which it polls its peers so. Between them
anything may become of its server and of its transport, while the configuration stays. -/
inductive Spans : DutyCycle σ τ → List Poll → DutyCycle σ τ → Prop
  | refl (cycle : DutyCycle σ τ) : Spans cycle [] cycle
  | pass {first cycle : DutyCycle σ τ} {polls : List Poll} (h : Spans first polls cycle)
      (clock : Clock) :
      Spans first (polls ++ DutyCycle.polls (pass clock) cycle) (perform (pass clock) cycle).2
  | meanwhile {first cycle : DutyCycle σ τ} {polls : List Poll} (h : Spans first polls cycle)
      {host : Host σ τ} (hserver : host.server.Reachable)
      (hconfig : host.server.config = cycle.host.server.config) :
      Spans first polls { cycle with host }

/-- A loop that has taken turns goes on to do so. -/
theorem InTurn.spans (h : InTurn config start first polls) (hspans : Spans first more last) :
    InTurn config start last (polls ++ more) := by
  induction hspans with
  | refl => rwa [List.append_nil]
  | pass _ clock ih => exact List.append_assoc _ _ _ ▸ ih.pass clock
  | meanwhile _ hserver hconfig ih =>
    exact ⟨hserver, hconfig.trans ih.config_eq, ih.turn_eq, ih.rotates⟩

end Life

/-! ## Passes -/

section Pass

variable {σ : Type} [Store σ]

/-- How a pass over the peers' inboxes ends: it has handled as many frames as its limit allows, or
all there were, those of each peer in the order in which they waited. -/
structure Clears (cycle : DutyCycle σ Endpoint) (clock : Clock) : Prop where
  answer_eq : (perform (pollPeers clock) cycle).1 =
    .ok (min cycle.host.server.config.maxMessagesPerTick
      (cycle.host.transport.backlog cycle.host.server.config.peerIds))
  found_eq : framesFound (polls (pollPeers clock) cycle) =
    min cycle.host.server.config.maxMessagesPerTick
      (cycle.host.transport.backlog cycle.host.server.config.peerIds)
  heard_eq : ∀ peer ∈ cycle.host.server.config.peerIds,
    heard peer (polls (pollPeers clock) cycle) ++
        (perform (pollPeers clock) cycle).2.host.transport.inbox peer =
      cycle.host.transport.inbox peer
  spent : ∀ peer ∈ cycle.host.server.config.peerIds,
    ⟨peer, none⟩ ∈ polls (pollPeers clock) cycle →
      (perform (pollPeers clock) cycle).2.host.transport.inbox peer = []
  server_eq : (perform (pollPeers clock) cycle).2.host.server =
    cycle.host.server.afterPolls clock cycle.calls (polls (pollPeers clock) cycle)

/-- A pass over peers that are listed once each clears their inboxes, unless the store fails. -/
theorem clears {cycle : DutyCycle σ Endpoint} {clock : Clock}
    (hnodup : cycle.host.server.config.peerIds.Nodup)
    (hplace : cycle.host.server.config.peerIds ≠ [] →
      cycle.nextPeer < cycle.host.server.config.peerIds.length)
    (hhears : cycle.host.transport.Hears cycle.host.server.config.peerIds)
    (hstore : ∀ cause, (perform (pollPeers clock) cycle).1 ≠ .error (.storage cause)) :
    cycle.Clears clock := by
  have hunseen := unseen_pollPeers clock cycle.watch
  have hanswer : (perform (pollPeers clock) cycle).1 = (perform (pollPeers clock) cycle.watch).1 :=
    congrArg Prod.fst hunseen
  have hworked : (perform (pollPeers clock) cycle).2 =
      (perform (pollPeers clock) cycle.watch).2.unwatch :=
    congrArg Prod.snd hunseen
  obtain ⟨worked, polls, hrun, hcount, hpolled⟩ := cycle.watch.pollPeers_clears clock rfl hnodup
    hplace hhears fun cause hfailed => hstore cause (hanswer.trans hfailed)
  have hpolls : DutyCycle.polls (pollPeers clock) cycle = polls := by
    rw [DutyCycle.polls, hrun]
    exact hpolled.polls_eq
  rw [hrun] at hanswer hworked
  refine ⟨hanswer, hpolls ▸ hcount, fun peer hpeer => ?_, fun peer hpeer hnone => ?_, ?_⟩
  · rw [hpolls, hworked]
    exact hpolled.heard_eq peer hpeer
  · rw [hpolls] at hnone
    rw [hworked]
    exact hpolled.spent peer hpeer hnone
  · rw [hpolls, hworked]
    exact hpolled.server_eq

/-- A peer that has sent more than a pass handles is never found without a frame. -/
theorem Clears.not_mem_polls {cycle : DutyCycle σ Endpoint} {clock : Clock} (h : cycle.Clears clock)
    {peer : ServerId} (hpeer : peer ∈ cycle.host.server.config.peerIds)
    (hmany : cycle.host.server.config.maxMessagesPerTick <
      (cycle.host.transport.inbox peer).length) :
    ⟨peer, none⟩ ∉ polls (pollPeers clock) cycle := by
  intro hnone
  have hheard := h.heard_eq peer hpeer
  rw [h.spent peer hpeer hnone, List.append_nil] at hheard
  have hfew := length_heard_le peer (polls (pollPeers clock) cycle)
  rw [hheard, h.found_eq] at hfew
  omega

/-- Whatever has become of a loop over a network in memory: its peers were polled in turn, over its
whole life. One pass over them that its store does not break off handles as many frames as its
limit allows, or all there are, if no link from the peers is cut; the place of the loop is its own,
or at any rate no peer's. And over any further passes in which the inboxes of two peers were never
found empty, as many frames of the one were handled as of the other, or one more or less. -/
theorem polls_fairly [LawfulStore σ] {host : Host σ Endpoint} (hserver : host.server.Reachable)
    {polls : List Poll} {cycle : DutyCycle σ Endpoint} (hspans : Spans { host } polls cycle) :
    (∀ place poll, polls[place]? = some poll →
      host.server.config.peerIds[place % host.server.config.peerIds.length]? = some poll.peer) ∧
    (∀ clock, cycle.host.transport.serverId ∉ host.server.config.peerIds →
      (∀ peer ∈ host.server.config.peerIds,
        cycle.host.transport.network.isCut (cycle.host.transport.linkFrom peer) = false) →
      (∀ cause, (perform (pollPeers clock) cycle).1 ≠ .error (.storage cause)) →
      cycle.Clears clock) ∧
    ∀ more last, Spans cycle more last →
      ∀ one ∈ host.server.config.peerIds, ∀ other ∈ host.server.config.peerIds,
        ⟨one, none⟩ ∉ more → ⟨other, none⟩ ∉ more →
          (heard one more).length ≤ (heard other more).length + 1 ∧
            (heard other more).length ≤ (heard one more).length + 1 := by
  have hbegun : InTurn host.server.config 0 { host } [] :=
    ⟨hserver, rfl, (Nat.zero_mod _).symm, rotates_nil⟩
  have hgoes : InTurn host.server.config 0 cycle polls := hbegun.spans hspans
  have hnodup := Config.nodup_of_validate hserver.validate
  refine ⟨fun place poll hpoll => ?_, fun clock happart hjoined hstore => ?_,
    fun more last hmore one hone other hother honeFound hotherFound => ?_⟩
  · have hturn := hgoes.rotates place poll hpoll
    rwa [Nat.zero_add] at hturn
  · rw [← hgoes.config_eq] at hnodup happart hjoined
    refine clears hnodup (fun hpeers => ?_) ⟨happart, hjoined⟩ hstore
    rw [hgoes.turn_eq, hgoes.config_eq]
    exact Nat.mod_lt _ (List.length_pos_iff.mpr (hgoes.config_eq ▸ hpeers))
  -- A peer that was never found without a frame was heard whenever it was polled.
  · have hrotates := (hgoes.spans hmore).rotates
    rw [length_heard honeFound, length_heard hotherFound]
    exact ⟨hrotates.timesPolled_le hnodup hone hother, hrotates.timesPolled_le hnodup hother hone⟩

theorem pollPeersFor_of_sound [LawfulStore σ] {τ : Type} [Transport τ] (clock : Clock)
    (peers : List ServerId) (limit idle : Nat) {cycle : DutyCycle σ τ}
    (hsound : cycle.host.server.Sound) :
    ∃ count, (perform (pollPeersFor clock peers limit idle) cycle).1 = .ok count := by
  induction limit, idle using pollPeersFor.induct peers generalizing cycle with
  | case1 idle => exact ⟨0, by rw [pollPeersFor_of_done clock peers (.inl rfl)]; rfl⟩
  | case2 limit _ => exact ⟨0, by rw [pollPeersFor_of_done clock peers (.inr rfl)]; rfl⟩
  | case3 limit idle ihfound ihnone =>
    rw [perform_pollPeersFor, perform_pollNextPeer]
    cases (Transport.pollPeer cycle.host.transport (cycle.next peers)).1 with
    | none => exact ihnone hsound
    | some frame =>
      obtain ⟨hreceived, hanswer⟩ := hsound.receive (clock cycle.calls) (cycle.next peers) frame
      have hok : ((cycle.polled peers).host.receive (clock (cycle.polled peers).calls)
          (cycle.next peers) frame).1 = .ok () := hanswer
      rw [perform_take_some, hok]
      have hrest : ∃ count, (perform (pollPeersFor clock peers limit peers.length)
          ((cycle.polled peers).called ((cycle.polled peers).host.receive
            (clock (cycle.polled peers).calls) (cycle.next peers) frame).2)).1 = .ok count :=
        ihfound hreceived
      obtain ⟨count, hcount⟩ := hrest
      exact ⟨count + 1, congrArg (Except.map (· + 1)) hcount⟩

/-- A server that has all it needs polls its peers without failing. -/
theorem pollPeers_of_sound [LawfulStore σ] {τ : Type} [Transport τ] (clock : Clock)
    {cycle : DutyCycle σ τ} (hsound : cycle.host.server.Sound) :
    ∃ count, (perform (pollPeers clock) cycle).1 = .ok count :=
  pollPeersFor_of_sound clock _ _ _ hsound

/-! ## Crowded inboxes -/

/-- Two peers of the first of three servers have sent more than it handles in one pass. -/
def crowded : DutyCycle MemoryStore Endpoint where
  host := {
    server := Trio.server
    transport := ⟨1, (({} : Network).setWaiting ⟨2, 1⟩ (List.replicate 16 [])).setWaiting ⟨3, 1⟩
      (List.replicate 16 [0])⟩ }

/-- A clock that stands still. -/
def still : Clock := fun _ => .zero

/-- The loop has made a pass, and then its peers have sent as much again. -/
def resumed : DutyCycle MemoryStore Endpoint :=
  { (perform (pass still) crowded).2 with host := crowded.host }

/-- No link to the crowded server is cut. -/
theorem hears_crowded : crowded.host.transport.Hears Trio.server.config.peerIds :=
  ⟨by decide, fun peer _ => by simp [crowded, Network.isCut, Network.setWaiting]⟩

theorem inbox_crowded : ∀ peer ∈ Trio.server.config.peerIds,
    (crowded.host.transport.inbox peer).length = 16 := by
  have hsecond : crowded.host.transport.inbox 2 = List.replicate 16 [] := by
    refine (Network.waiting_setWaiting _ _).trans ((if_neg (by decide)).trans ?_)
    exact (Network.waiting_setWaiting _ _).trans (if_pos rfl)
  have hthird : crowded.host.transport.inbox 3 = List.replicate 16 [0] :=
    (Network.waiting_setWaiting _ _).trans (if_pos rfl)
  simp [show Trio.server.config.peerIds = [2, 3] from rfl, hsecond, hthird]

/-- Thirty-two frames wait. -/
theorem backlog_crowded : crowded.host.transport.backlog Trio.server.config.peerIds = 32 := by
  have hlengths := List.map_congr_left inbox_crowded
  rw [Endpoint.backlog, hlengths]
  rfl

theorem pollTimer_crowded (calls : Nat) :
    crowded.host.pollTimer (still calls) = (.ok false, crowded.host) := rfl

section Crowd

variable {cycle : DutyCycle MemoryStore Endpoint} (hhost : cycle.host = crowded.host)
include hhost

theorem answer_crowded (cause : StorageFailure) :
    (perform (pollPeers still) cycle).1 ≠ .error (.storage cause) := by
  have hsound : cycle.host.server.Sound := hhost ▸
    Server.sound_of_start trivial (MemoryStore.reliable rfl) (List.forall_mem_nil _)
      (rfl : Server.start Trio.config {} Handover.draws .zero = .ok Trio.server)
  obtain ⟨count, hcount⟩ := pollPeers_of_sound still hsound
  simp [hcount]

/-- Whoever is polled first, a pass over crowded inboxes clears them as far as it may. -/
theorem clears_crowded (hturn : cycle.nextPeer < 2) : cycle.Clears still := by
  refine clears ?_ ?_ ?_ (answer_crowded hhost)
  all_goals rw [hhost]
  · decide
  · exact fun _ => hturn
  · exact hears_crowded

/-- Of thirty-two frames, all of them malformed, a pass handles ten, and finds none missing. -/
theorem polls_pass_crowded (hturn : cycle.nextPeer < 2) :
    framesFound (polls (pass still) cycle) = 10 ∧
      ∀ peer ∈ Trio.server.config.peerIds, ⟨peer, none⟩ ∉ polls (pass still) cycle := by
  have htimer : cycle.host.pollTimer (still cycle.calls) = (.ok false, crowded.host) := by
    rw [hhost, pollTimer_crowded]
  have hclears : (cycle.called crowded.host).Clears still := clears_crowded rfl hturn
  have hpolls : polls (pass still) cycle = polls (pollPeers still) (cycle.called crowded.host) := by
    rw [polls_pass (congrArg Prod.fst htimer), htimer]
  rw [hpolls]
  refine ⟨hclears.found_eq.trans ?_, fun peer hpeer => hclears.not_mem_polls hpeer ?_⟩
  · show min 10 (crowded.host.transport.backlog Trio.server.config.peerIds) = 10
    rw [backlog_crowded]
    rfl
  · show 10 < (crowded.host.transport.inbox peer).length
    rw [inbox_crowded peer hpeer]
    decide

end Crowd

theorem inTurn_pass_crowded : InTurn Trio.server.config 0 (perform (pass still) crowded).2
    (polls (pass still) crowded) := by
  have hbegun : InTurn Trio.server.config 0 crowded [] :=
    ⟨Trio.reachable_server, rfl, rfl, rotates_nil⟩
  exact hbegun.pass still

/-- The loop comes to its second pass by the first one. -/
theorem spans_resumed : Spans crowded (polls (pass still) crowded) resumed := by
  have hpassed : Spans crowded ([] ++ polls (pass still) crowded)
      (perform (pass still) crowded).2 := .pass (.refl crowded) still
  exact hpassed.meanwhile Trio.reachable_server inTurn_pass_crowded.config_eq.symm

/-- Two passes with full inboxes handle ten frames each, in turn, and favour neither peer. -/
theorem polls_fairly_crowded :
    Spans crowded (polls (pass still) crowded) resumed ∧
      framesFound (polls (pass still) crowded) = 10 ∧
      (∀ place poll, (polls (pass still) crowded)[place]? = some poll →
        ([2, 3] : List ServerId)[place % 2]? = some poll.peer) ∧
      (perform (pollPeers still) resumed).1 = .ok 10 ∧ resumed.Clears still ∧
      framesFound (polls (pass still) resumed) = 10 ∧
      (heard 2 (polls (pass still) resumed)).length ≤
        (heard 3 (polls (pass still) resumed)).length + 1 ∧
      (heard 3 (polls (pass still) resumed)).length ≤
        (heard 2 (polls (pass still) resumed)).length + 1 := by
  have hturn : resumed.nextPeer < 2 := by
    show (perform (pass still) crowded).2.nextPeer < 2
    rw [inTurn_pass_crowded.turn_eq]
    exact Nat.mod_lt _ (by decide)
  have hsame : resumed.host = crowded.host := rfl
  obtain ⟨hrotates, hclears, hfair⟩ := polls_fairly Trio.reachable_server spans_resumed
  have hcleared : resumed.Clears still :=
    hclears still hears_crowded.apart hears_crowded.joined (answer_crowded hsame)
  obtain ⟨hcount, hfound⟩ := polls_pass_crowded hsame hturn
  have hspans : Spans resumed ([] ++ polls (pass still) resumed) (perform (pass still) resumed).2 :=
    .pass (.refl resumed) still
  have hgap := hfair _ _ hspans 2 (by decide) 3 (by decide) (hfound 2 (by decide))
    (hfound 3 (by decide))
  refine ⟨spans_resumed, (polls_pass_crowded rfl (by decide)).1, hrotates, ?_, hcleared, hcount,
    hgap⟩
  rw [hcleared.answer_eq]
  show Except.ok (min 10 (crowded.host.transport.backlog Trio.server.config.peerIds)) = _
  rw [backlog_crowded]
  rfl

end Pass

end DutyCycle

end Consensus
