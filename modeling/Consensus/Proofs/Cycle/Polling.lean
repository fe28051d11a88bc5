import Consensus.Proofs.Cycle.Watching
import Consensus.Proofs.Transport.Accounting
import Consensus.Proofs.Turn.Blame
import Mathlib.Algebra.BigOperators.Group.List.Basic
import Mathlib.Algebra.Ring.Nat
import Mathlib.Data.List.GetD

/-! # Polling the peers

A pass over the peers' inboxes ends at its limit, or when a whole lap has found nothing. Since
nothing that is done with a frame brings another one, no frame is left over behind an idle lap.
-/

namespace Consensus

/-! ## Inboxes -/

namespace Network

variable {network : Network} {link other : Link} {frame : Bytes}

/-- An offer on one link adds nothing to another. -/
theorem waiting_offer_of_ne (hlink : other ≠ link) :
    (network.offer other frame).2.waiting link = network.waiting link := by
  rcases network.offer_cases other frame with
    ⟨-, hoffer⟩ | ⟨-, -, hoffer⟩ | ⟨-, -, -, hoffer⟩ | ⟨-, -, -, hoffer⟩ <;> rw [hoffer]
  · rfl
  · rfl
  · rw [waiting_inject, if_neg hlink, List.append_nil]
    rfl

/-- An offer cuts no link and mends none. -/
theorem isCut_offer : (network.offer other frame).2.isCut link = network.isCut link := by
  obtain ⟨-, hisolated, hblocked⟩ := network.controls_offer other frame
  rw [isCut, hisolated, hblocked, isCut]

end Network

namespace Endpoint

variable {endpoint : Endpoint} {peer : ServerId}

/-- The frames that wait here for being polled from a peer, oldest first. -/
def inbox (endpoint : Endpoint) (peer : ServerId) : List Bytes :=
  endpoint.network.waiting (endpoint.linkFrom peer)

/-- How many frames of these peers wait here. -/
def backlog (endpoint : Endpoint) (peers : List ServerId) : Nat :=
  (peers.map fun peer => (endpoint.inbox peer).length).sum

/-- The endpoint is not the place of one of these peers, and no link from them to it is cut. -/
structure Hears (endpoint : Endpoint) (peers : List ServerId) : Prop where
  apart : endpoint.serverId ∉ peers
  joined : ∀ peer ∈ peers, endpoint.network.isCut (endpoint.linkFrom peer) = false

/-- An endpoint as it was, as far as frames of these peers are concerned. -/
structure Alike (peers : List ServerId) (endpoint other : Endpoint) : Prop where
  hears : other.Hears peers
  inbox_eq : ∀ peer ∈ peers, other.inbox peer = endpoint.inbox peer

theorem Hears.alike {peers : List ServerId} (h : endpoint.Hears peers) :
    endpoint.Alike peers endpoint :=
  ⟨h, fun _ _ => rfl⟩

/-- What is offered goes elsewhere. -/
theorem Alike.offer {peers : List ServerId} {other : Endpoint} (h : endpoint.Alike peers other)
    (receiver : ServerId) (frame : Bytes) :
    endpoint.Alike peers (Transport.offer other receiver frame).2 := by
  have happart : ∀ peer ∈ peers, other.linkTo receiver ≠ other.linkFrom peer := by
    intro peer hpeer hlink
    have hself : other.serverId = peer := congrArg Link.sender hlink
    exact h.hears.apart (hself ▸ hpeer)
  refine ⟨⟨h.hears.apart, fun peer hpeer => ?_⟩, fun peer hpeer => ?_⟩
  · exact Network.isCut_offer.trans (h.hears.joined peer hpeer)
  · exact (Network.waiting_offer_of_ne (happart peer hpeer)).trans (h.inbox_eq peer hpeer)

/-- Messages that are posted change nothing for the inboxes of the peers. -/
theorem Hears.postAll {peers : List ServerId} (h : endpoint.Hears peers) (attempts : Nat)
    (messages : List (ServerId × Message)) :
    endpoint.Alike peers (Transport.postAll attempts messages endpoint) :=
  Transport.postAll_keeps (fun _ receiver frame hother => hother.offer receiver frame) attempts
    messages h.alike

/-- A poll finds nothing in an empty inbox. -/
theorem pollPeer_of_empty (hempty : endpoint.inbox peer = []) :
    Transport.pollPeer endpoint peer = (none, endpoint) := by
  have hpoll : endpoint.network.pollPeer (endpoint.linkFrom peer) = (none, endpoint.network) := by
    rcases endpoint.network.pollPeerInto_cases (endpoint.linkFrom peer) [] with
      ⟨-, hpoll⟩ | ⟨_, _, hwaiting, -, -⟩ | ⟨_, _, hwaiting, -, -⟩
    · rw [Network.pollPeer, hpoll]
      rfl
    · exact absurd (hempty.symm.trans hwaiting) (List.cons_ne_nil _ _).symm
    · exact absurd (hempty.symm.trans hwaiting) (List.cons_ne_nil _ _).symm
  exact congrArg endpoint.carry hpoll

/-- A poll takes the oldest frame of the peer and leaves the other inboxes alone. -/
theorem Hears.pollPeer {peers : List ServerId} (h : endpoint.Hears peers) (hpeer : peer ∈ peers)
    {frame : Bytes} {rest : List Bytes} (hinbox : endpoint.inbox peer = frame :: rest) :
    ∃ polled, Transport.pollPeer endpoint peer = (some frame, polled) ∧ polled.Hears peers ∧
      polled.inbox peer = rest ∧
      ∀ other, other ≠ peer → polled.inbox other = endpoint.inbox other := by
  have hpoll : endpoint.network.pollPeer (endpoint.linkFrom peer) =
      (some frame, endpoint.network.setWaiting (endpoint.linkFrom peer) rest) := by
    rcases endpoint.network.pollPeerInto_cases (endpoint.linkFrom peer) [] with
      ⟨hwaiting, -⟩ | ⟨_, _, -, hcut, -⟩ | ⟨_, _, hwaiting, -, hpoll⟩
    · exact absurd (hinbox.symm.trans hwaiting) (List.cons_ne_nil _ _)
    · exact absurd (hcut.symm.trans (h.joined peer hpeer)) (by decide)
    · obtain ⟨rfl, rfl⟩ := List.cons.inj (hinbox.symm.trans hwaiting)
      rw [Network.pollPeer, hpoll]
      rfl
  refine ⟨_, congrArg endpoint.carry hpoll, ⟨h.apart, h.joined⟩, ?_, fun other hother => ?_⟩
  · exact (Network.waiting_setWaiting _ _).trans (if_pos rfl)
  · refine (Network.waiting_setWaiting _ _).trans (if_neg fun hlink => hother ?_)
    exact (congrArg Link.sender hlink).symm

/-- A frame that is taken from one inbox was one of the backlog. -/
theorem backlog_of_taken {peers : List ServerId} {polled : Endpoint} (hnodup : peers.Nodup)
    (hpeer : peer ∈ peers)
    {frame : Bytes} (hinbox : endpoint.inbox peer = frame :: polled.inbox peer)
    (hothers : ∀ other, other ≠ peer → polled.inbox other = endpoint.inbox other) :
    endpoint.backlog peers = polled.backlog peers + 1 := by
  have hrest : (peers.erase peer).map (fun other => (endpoint.inbox other).length) =
      (peers.erase peer).map fun other => (polled.inbox other).length := by
    refine List.map_congr_left fun other hother => ?_
    rw [hothers other fun hsame => List.Nodup.not_mem_erase hnodup (hsame ▸ hother)]
  rw [backlog, backlog, ← List.sum_map_erase _ hpeer, ← List.sum_map_erase _ hpeer, hrest, hinbox,
    List.length_cons]
  omega

theorem backlog_eq_zero {peers : List ServerId}
    (hempty : ∀ peer ∈ peers, endpoint.inbox peer = []) : endpoint.backlog peers = 0 := by
  refine List.sum_eq_zero fun length hlength => ?_
  obtain ⟨peer, hpeer, rfl⟩ := List.mem_map.mp hlength
  rw [hempty peer hpeer, List.length_nil]

/-- Endpoints that are alike have the same backlog. -/
theorem Alike.backlog_eq {peers : List ServerId} {other : Endpoint}
    (h : endpoint.Alike peers other) : other.backlog peers = endpoint.backlog peers := by
  unfold backlog
  rw [List.map_congr_left fun peer hpeer => by rw [h.inbox_eq peer hpeer]]

end Endpoint

/-! ## What was polled -/

/-- The frames that were found at a peer, in order. -/
def heard (peer : ServerId) (polls : List Poll) : List Bytes :=
  polls.filterMap fun poll => if poll.peer = peer then poll.found else none

theorem heard_append (peer : ServerId) (polls more : List Poll) :
    heard peer (polls ++ more) = heard peer polls ++ heard peer more :=
  List.filterMap_append

/-- How many frames were found. -/
def framesFound (polls : List Poll) : Nat := polls.countP (·.found.isSome)

theorem framesFound_append (polls more : List Poll) :
    framesFound (polls ++ more) = framesFound polls + framesFound more :=
  List.countP_append

/-- No peer has been heard oftener than frames were found. -/
theorem length_heard_le (peer : ServerId) (polls : List Poll) :
    (heard peer polls).length ≤ framesFound polls := by
  induction polls with
  | nil => exact Nat.le_refl 0
  | cons poll rest ih =>
    obtain ⟨server, found⟩ := poll
    have hfirst : (heard peer [⟨server, found⟩]).length ≤ framesFound [⟨server, found⟩] := by
      by_cases hserver : server = peer <;> cases found <;> simp [heard, framesFound, hserver]
    rw [← List.singleton_append, heard_append, framesFound_append, List.length_append]
    exact Nat.add_le_add hfirst ih

variable {σ : Type} [Store σ]

/-- The server after it has handled what polls have found, when so many calls were made before. -/
def Server.afterPolls (server : Server σ) (clock : Clock) (calls : Nat) : List Poll → Server σ
  | [] => server
  | ⟨_, none⟩ :: rest => server.afterPolls clock calls rest
  | ⟨peer, some frame⟩ :: rest =>
    (server.receive (clock calls) peer frame).server.afterPolls clock (calls + 1) rest

/-- What polls have found is handled in order, each frame by a call of its own. -/
theorem Server.afterPolls_append (server : Server σ) (clock : Clock) (calls : Nat)
    (polls more : List Poll) :
    server.afterPolls clock calls (polls ++ more) =
      (server.afterPolls clock calls polls).afterPolls clock (calls + framesFound polls) more := by
  induction polls generalizing server calls with
  | nil => rfl
  | cons poll rest ih =>
    obtain ⟨peer, _ | frame⟩ := poll
    · exact ih server calls
    · have hcalls : calls + 1 + framesFound rest =
          calls + framesFound (⟨peer, some frame⟩ :: rest) := by
        rw [framesFound, framesFound, List.countP_cons_of_pos rfl]
        omega
      exact hcalls ▸ ih (server.receive (clock calls) peer frame).server (calls + 1)

namespace DutyCycle

variable {peers : List ServerId} {clock : Clock}
  {cycle first middle last : DutyCycle σ (Watched Endpoint)}

/-- The endpoint behind a watched transport. -/
abbrev endpoint (cycle : DutyCycle σ (Watched Endpoint)) : Endpoint :=
  cycle.host.transport.transport

/-- Between `first` and `last` these polls were made: each peer's frames were found in the order in
which they waited, none is left where a poll has found none, and the server has handled what was
found. -/
structure Polled (clock : Clock) (peers : List ServerId)
    (first last : DutyCycle σ (Watched Endpoint)) (polls : List Poll) : Prop where
  polls_eq : last.host.transport.polls = first.host.transport.polls ++ polls
  heard_eq : ∀ peer ∈ peers, heard peer polls ++ last.endpoint.inbox peer =
    first.endpoint.inbox peer
  spent : ∀ peer ∈ peers, ⟨peer, none⟩ ∈ polls → last.endpoint.inbox peer = []
  calls_eq : last.calls = first.calls + framesFound polls
  server_eq : last.host.server = first.host.server.afterPolls clock first.calls polls

theorem Polled.refl (cycle : DutyCycle σ (Watched Endpoint)) : Polled clock peers cycle cycle [] :=
  ⟨(List.append_nil _).symm, fun _ _ => rfl, fun _ _ hpoll => absurd hpoll List.not_mem_nil, rfl,
    rfl⟩

/-- Polls may be made in two stretches. -/
theorem Polled.trans {polls more : List Poll} (h : Polled clock peers first middle polls)
    (hmore : Polled clock peers middle last more) :
    Polled clock peers first last (polls ++ more) := by
  refine ⟨?_, fun peer hpeer => ?_, fun peer hpeer hpoll => ?_, ?_, ?_⟩
  · rw [hmore.polls_eq, h.polls_eq, List.append_assoc]
  · rw [heard_append, List.append_assoc, hmore.heard_eq peer hpeer, h.heard_eq peer hpeer]
  · rcases List.mem_append.mp hpoll with hbefore | hafter
    · -- Nothing comes into an inbox during a pass, so one found empty stays empty.
      have hleft := hmore.heard_eq peer hpeer
      rw [h.spent peer hpeer hbefore] at hleft
      exact (List.append_eq_nil_iff.mp hleft).2
    · exact hmore.spent peer hpeer hafter
  · rw [hmore.calls_eq, h.calls_eq, framesFound_append, Nat.add_assoc]
  · rw [hmore.server_eq, h.server_eq, h.calls_eq, Server.afterPolls_append]

/-! ### One poll -/

/-- A poll of an empty inbox changes nothing but whose turn it is. -/
theorem perform_pollNextPeer_of_empty (clock : Clock)
    (hempty : cycle.endpoint.inbox (cycle.next peers) = []) :
    ∃ worked, perform (pollNextPeer clock peers) cycle = (.ok false, worked) ∧
      Polled clock peers cycle worked [⟨cycle.next peers, none⟩] ∧
      worked.endpoint = cycle.endpoint ∧
      worked.nextPeer = (cycle.nextPeer + 1) % peers.length := by
  have hpoll := Watched.pollPeer (Endpoint.pollPeer_of_empty hempty)
  refine ⟨_, perform_pollNextPeer_of_poll clock hpoll,
    ⟨rfl, fun peer _ => ?_, fun peer _ hfound => ?_, rfl, rfl⟩, rfl, rfl⟩
  · have hnone : heard peer [⟨cycle.next peers, none⟩] = [] := by simp [heard]
    rw [hnone]
    rfl
  · obtain rfl := congrArg Poll.peer (List.mem_singleton.mp hfound)
    exact hempty

/-- A frame that a poll finds is handled, and the answers to it go elsewhere. -/
theorem perform_pollNextPeer_of_cons (clock : Clock) (hnodup : peers.Nodup)
    (hhears : cycle.endpoint.Hears peers) (hnext : cycle.next peers ∈ peers)
    {frame : Bytes} {rest : List Bytes}
    (hinbox : cycle.endpoint.inbox (cycle.next peers) = frame :: rest) :
    ∃ worked, perform (pollNextPeer clock peers) cycle =
        ((cycle.host.server.receive (clock cycle.calls) (cycle.next peers) frame).answer.map
          fun _ => true, worked) ∧
      Polled clock peers cycle worked [⟨cycle.next peers, some frame⟩] ∧
      worked.endpoint.Hears peers ∧
      cycle.endpoint.backlog peers = worked.endpoint.backlog peers + 1 ∧
      worked.nextPeer = (cycle.nextPeer + 1) % peers.length := by
  obtain ⟨left, hpoll, hleft, hrest, hothers⟩ := hhears.pollPeer hnext hinbox
  have hfound := perform_pollNextPeer_of_poll clock (Watched.pollPeer hpoll)
  rw [perform_take_some] at hfound
  -- What the server answers leaves the inboxes as the poll has left them.
  have hposted := hleft.postAll cycle.host.server.config.sendAttempts
    (cycle.host.server.receive (clock cycle.calls) (cycle.next peers) frame).messages
  have hendpoint : (perform (pollNextPeer clock peers) cycle).2.endpoint =
      Transport.postAll cycle.host.server.config.sendAttempts
        (cycle.host.server.receive (clock cycle.calls) (cycle.next peers) frame).messages left := by
    rw [hfound]
    exact congrArg Watched.transport (Transport.postAll_watched _ _ _)
  have hpolls : (perform (pollNextPeer clock peers) cycle).2.host.transport.polls =
      cycle.host.transport.polls ++ [⟨cycle.next peers, some frame⟩] := by
    rw [hfound]
    exact congrArg Watched.polls (Transport.postAll_watched _ _ _)
  have hanswer : (perform (pollNextPeer clock peers) cycle).1 =
      (cycle.host.server.receive (clock cycle.calls) (cycle.next peers) frame).answer.map
        fun _ => true := by
    rw [hfound]
    rfl
  refine ⟨(perform (pollNextPeer clock peers) cycle).2, Prod.ext hanswer rfl,
    ⟨hpolls, fun peer hpeer => ?_, fun peer _ hnone => ?_,
      congrArg (fun done => done.2.calls) hfound,
      congrArg (fun done => done.2.host.server) hfound⟩, ?_, ?_,
    congrArg (fun done => done.2.nextPeer) hfound⟩
  · rw [hendpoint, hposted.inbox_eq peer hpeer]
    by_cases hsame : peer = cycle.next peers
    · subst hsame
      rw [hrest, hinbox]
      simp [heard]
    · rw [hothers peer hsame]
      simp [heard, Ne.symm hsame]
  · exact nomatch congrArg Poll.found (List.mem_singleton.mp hnone)
  · exact hendpoint ▸ hposted.hears
  · rw [hendpoint, hposted.backlog_eq]
    exact Endpoint.backlog_of_taken hnodup hnext (hrest ▸ hinbox) hothers

/-! ### A pass over the peers -/

/-- Only the next `idle` peers may have frames waiting. -/
def Spent (cycle : DutyCycle σ (Watched Endpoint)) (peers : List ServerId) (idle : Nat) : Prop :=
  ∀ ahead, idle ≤ ahead → ahead < peers.length →
    cycle.endpoint.inbox (peers.getD ((cycle.nextPeer + ahead) % peers.length) 0) = []

omit [Store σ] in
/-- At first every peer may have frames waiting. -/
theorem spent_start : cycle.Spent peers peers.length :=
  fun _ hahead hlap => absurd hlap (Nat.not_lt.mpr hahead)

omit [Store σ] in
/-- A poll that finds nothing leaves one peer fewer that may have frames waiting. -/
theorem Spent.poll {idle : Nat} {worked : DutyCycle σ (Watched Endpoint)}
    (h : cycle.Spent peers (idle + 1)) (hplace : cycle.nextPeer < peers.length)
    (hempty : cycle.endpoint.inbox (cycle.next peers) = [])
    (hendpoint : worked.endpoint = cycle.endpoint)
    (hturn : worked.nextPeer = (cycle.nextPeer + 1) % peers.length) : worked.Spent peers idle := by
  intro ahead hahead hlap
  rw [hendpoint, hturn, Nat.mod_add_mod, Nat.add_assoc, Nat.add_comm 1 ahead]
  rcases Nat.lt_or_eq_of_le (show ahead + 1 ≤ peers.length from hlap) with hbefore | hlast
  · exact h (ahead + 1) (Nat.succ_le_succ hahead) hbefore
  · rw [hlast, Nat.add_mod_right, Nat.mod_eq_of_lt hplace]
    exact hempty

omit [Store σ] in
/-- Behind an idle lap no frame is left over. -/
theorem Spent.backlog_eq (h : cycle.Spent peers 0) (hplace : cycle.nextPeer < peers.length) :
    cycle.endpoint.backlog peers = 0 := by
  refine Endpoint.backlog_eq_zero fun peer hpeer => ?_
  obtain ⟨place, hlt, rfl⟩ := List.getElem_of_mem hpeer
  have hahead := h ((place + peers.length - cycle.nextPeer) % peers.length) (Nat.zero_le _)
    (Nat.mod_lt _ (by omega))
  rw [Nat.add_mod_mod, Nat.add_sub_cancel' (by omega), Nat.add_mod_right, Nat.mod_eq_of_lt hlt,
    List.getD_eq_getElem _ _ hlt] at hahead
  exact hahead

/-- A pass over the peers handles frames until it has reached its limit or none is left. -/
theorem pollPeersFor_clears (clock : Clock) (hnodup : peers.Nodup) (limit idle : Nat)
    (hhears : cycle.endpoint.Hears peers) (hplace : cycle.nextPeer < peers.length)
    (hspent : cycle.Spent peers idle)
    (hstore : ∀ cause, (perform (pollPeersFor clock peers limit idle) cycle).1 ≠
      .error (.storage cause)) :
    ∃ worked polls, perform (pollPeersFor clock peers limit idle) cycle =
        (.ok (min limit (cycle.endpoint.backlog peers)), worked) ∧
      framesFound polls = min limit (cycle.endpoint.backlog peers) ∧
      Polled clock peers cycle worked polls := by
  induction limit, idle using pollPeersFor.induct peers generalizing cycle with
  | case1 idle =>
    rw [pollPeersFor_of_done clock peers (.inl rfl), Nat.zero_min]
    exact ⟨cycle, [], rfl, rfl, .refl cycle⟩
  | case2 limit _ =>
    -- A lap has found nothing, and nothing was left behind it.
    rw [pollPeersFor_of_done clock peers (.inr rfl), hspent.backlog_eq hplace, Nat.min_zero]
    exact ⟨cycle, [], rfl, rfl, .refl cycle⟩
  | case3 limit idle ihfound ihnone =>
    have hnext : cycle.next peers ∈ peers := by
      rw [next, List.getD_eq_getElem _ _ hplace]
      exact List.getElem_mem hplace
    have hturn : (cycle.nextPeer + 1) % peers.length < peers.length := Nat.mod_lt _ (by omega)
    rw [perform_pollPeersFor] at hstore ⊢
    cases hinbox : cycle.endpoint.inbox (cycle.next peers) with
    | nil =>
      obtain ⟨worked, hpoll, hpolled, hendpoint, hplaced⟩ :=
        perform_pollNextPeer_of_empty clock hinbox
      rw [hpoll] at hstore ⊢
      obtain ⟨last, polls, hlast, hcount, hrest⟩ := ihnone (hendpoint ▸ hhears)
        (hplaced ▸ hturn) (hspent.poll hplace hinbox hendpoint hplaced) hstore
      rw [hendpoint] at hlast hcount
      refine ⟨last, _, hlast, ?_, hpolled.trans hrest⟩
      rw [framesFound_append, hcount]
      exact Nat.zero_add _
    | cons frame rest =>
      obtain ⟨worked, hpoll, hpolled, hworked, hbacklog, hplaced⟩ :=
        perform_pollNextPeer_of_cons clock hnodup hhears hnext hinbox
      -- A poll that finds a frame starts a new lap, so any inbox may have frames waiting again.
      cases hanswer :
        (cycle.host.server.receive (clock cycle.calls) (cycle.next peers) frame).answer with
      | error failure =>
        rw [hpoll, hanswer] at hstore
        obtain ⟨cause, rfl⟩ := Server.exists_storage_of_receive hanswer
        exact absurd rfl (hstore cause)
      | ok answer =>
        rw [hpoll, hanswer] at hstore ⊢
        obtain ⟨last, polls, hlast, hcount, hrest⟩ := ihfound hworked (hplaced ▸ hturn)
          spent_start fun cause hfailed => hstore cause (map_eq_error.mpr hfailed)
        have hmin : min (limit + 1) (cycle.endpoint.backlog peers) =
            min limit (worked.endpoint.backlog peers) + 1 := by
          omega
        refine ⟨last, _, ?_, ?_, hpolled.trans hrest⟩
        · simp only [Except.map, hlast, hmin]
        · rw [framesFound_append, hcount, hmin]
          exact Nat.add_comm 1 _

/-- The pass of a server goes over the peers that it lists. -/
theorem pollPeers_clears (cycle : DutyCycle σ (Watched Endpoint)) (clock : Clock)
    (hpeers : cycle.host.server.config.peerIds = peers) (hnodup : peers.Nodup)
    (hplace : peers ≠ [] → cycle.nextPeer < peers.length) (hhears : cycle.endpoint.Hears peers)
    (hstore : ∀ cause, (perform (pollPeers clock) cycle).1 ≠ .error (.storage cause)) :
    ∃ worked polls, perform (pollPeers clock) cycle =
        (.ok (min cycle.host.server.config.maxMessagesPerTick (cycle.endpoint.backlog peers)),
          worked) ∧
      framesFound polls =
        min cycle.host.server.config.maxMessagesPerTick (cycle.endpoint.backlog peers) ∧
      Polled clock peers cycle worked polls := by
  have hpass : perform (pollPeers clock) cycle = perform (pollPeersFor clock
      cycle.host.server.config.peerIds cycle.host.server.config.maxMessagesPerTick
      cycle.host.server.config.peerIds.length) cycle := rfl
  rw [hpass, hpeers] at hstore ⊢
  by_cases hnone : peers = []
  · have hbacklog : cycle.endpoint.backlog peers = 0 := by
      rw [hnone]
      rfl
    rw [hbacklog, Nat.min_zero, hnone, List.length_nil, pollPeersFor_of_done clock [] (.inr rfl)]
    exact ⟨cycle, [], rfl, rfl, .refl cycle⟩
  · exact pollPeersFor_clears clock hnodup _ _ hhears (hplace hnone) spent_start hstore

end DutyCycle

end Consensus
