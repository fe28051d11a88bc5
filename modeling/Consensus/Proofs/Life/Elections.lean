import Consensus.Proofs.Life.Leadership
import Consensus.Proofs.Protocol.Tally

/-! # Elections in one life

Whatever a server is sent, it leads only by the votes of a majority of its cluster, given in
its term. Whether its own vote is among them depends on when the others come: a vote that is
there before the candidate has opened its election counts in what an older one has left.
-/

namespace Consensus

/-- The incident brings a candidate that has not voted in its tally a vote that counts there. -/
structure Incident.Premature (incident : Incident) (server : Server MemoryStore) : Prop where
  candidate : ∃ electionPending, server.role = .candidate electionPending
  missing : server.id ∉ server.progress.tally.voters
  vote : ∃ sender, server.config.isPeer sender = true ∧
    incident.Brings sender (.voteResponse ⟨server.term, true⟩) ∧
    server.progress.tally.Counts server.term sender

namespace Server

/-- The server has the votes of a majority of its cluster, in its term, and past the first term
it has voted for itself. -/
structure Mandated (server : Server MemoryStore) : Prop where
  tally_term : server.progress.tally.term = server.term
  distinct : server.progress.tally.voters.Nodup
  members : ∀ voter ∈ server.progress.tally.voters,
    voter = server.id ∨ voter ∈ server.config.peerIds
  majority : server.Elected
  voted : server.term ≠ 0 ∨ server.id ∈ server.progress.tally.voters →
    server.votedFor = some server.id

/-- No vote comes before its time. -/
def Timely (server : Server MemoryStore) : List Incident → Prop
  | [] => True
  | incident :: rest => ¬ incident.Premature server ∧ (server.meet incident).server.Timely rest

/-- The server does not lead, unless by its own vote too. -/
def CountsItself (server : Server MemoryStore) : Prop :=
  server.role.isLeader = true → server.id ∈ server.progress.tally.voters

variable {config : Config} {store : MemoryStore} {draws : Draws} {now : Duration}
variable {server : Server MemoryStore} {incidents : List Incident}

/-! ## The votes of others -/

/-- What can be said of a tally is kept by whatever happens to a server of a sound cluster. -/
theorem meet_polls (hcoherent : server.Coherent) (hself : server.id ∉ server.config.peerIds)
    (hpolls : server.view.Polls) (incident : Incident) :
    ∀ moment ∈ (server.meet incident).moments, moment.view.Polls := by
  -- Only what its peers say is ever heard.
  let intake : View.Intake := { incident.intake with
    received sender message :=
      server.config.isPeer sender = true ∧ incident.Brings sender message }
  have htraces : (server.meet incident).Traces intake server :=
    meet_traces_on hcoherent incident (fun _ _ hpeer hbrings => ⟨hpeer, hbrings⟩)
      (fun _ _ hgiven => hgiven) fun hrestart => hrestart
  intro moment hmoment
  refine (htraces.moves hmoment).polls ?_ hself hpolls
  rintro sender _ ⟨hpeer, _⟩
  exact Config.isPeer_iff.mp hpeer

/-- What can be said of a tally can be said at each moment of a life. -/
theorem polls_of_mem_moments (hcoherent : server.Coherent)
    (hself : server.id ∉ server.config.peerIds) (hpolls : server.view.Polls) :
    ∀ moment ∈ server.moments incidents, moment.view.Polls := by
  have hlife : ∀ moment ∈ server.moments incidents,
      moment.Coherent ∧ moment.config = server.config ∧ moment.view.Polls := by
    refine moments_induction (fun present hpresent incident _ moment hmoment => ?_)
      ⟨hcoherent, rfl, hpolls⟩
    obtain ⟨hcoherent, hconfig, hpolls⟩ := hpresent
    have htraces := meet_traces hcoherent incident
    have hsound : present.id ∉ present.config.peerIds := by
      rw [id, hconfig]
      exact hself
    exact ⟨htraces.coherent moment hmoment, (htraces.moves hmoment).config_eq.trans hconfig,
      meet_polls hcoherent hsound hpolls incident moment hmoment⟩
  exact fun moment hmoment => (hlife moment hmoment).2.2

/-! ## The vote of its own -/

/-- Unless a vote comes before its time, the one that decides is not the first one. -/
theorem WinsBy.self_mem {call : Call} {won : Server MemoryStore} (h : server.WinsBy call won)
    (hid : won.id = server.id) (htimely : ¬ (Incident.call now call).Premature server) :
    server.id ∈ won.progress.tally.voters := by
  cases h with
  | @vote sender hcandidate hpeer hbrings hvote hwon =>
    obtain ⟨frame, hcall, hdecode⟩ := hbrings
    have hself : server.id ∈ server.progress.tally.voters := by
      by_contra hmissing
      exact htimely ⟨hcandidate, hmissing, sender, hpeer, ⟨now, frame, hcall ▸ rfl, hdecode⟩,
        hvote⟩
    rw [hwon]
    show server.id ∈ (server.progress.tally.record server.term sender).voters
    rw [Tally.record, if_pos hvote]
    exact List.mem_cons_of_mem _ hself
  | alone hopens =>
    rw [hopens, hid]
    exact List.mem_singleton_self _

/-- Unless a vote comes before its time, a server that is elected counts itself. -/
theorem meet_countsItself (hcoherent : server.Coherent) (horder : server.InOrder)
    (hcounts : server.CountsItself) {incident : Incident} (htimely : ¬ incident.Premature server) :
    ∀ moment ∈ (server.meet incident).moments, moment.CountsItself := by
  intro moment hmoment hleads
  have hid : moment.id = server.id := ((meet_traces hcoherent incident).moves hmoment).id_eq
  rw [hid]
  cases incident with
  | call now call =>
    rcases (call_succeeds hcoherent now call).leader_cases horder hmoment hleads with
      hled | ⟨won, since, hwins, hled⟩
    · exact hled.voters_subset (hcounts hled.leads)
    · have hwon : moment.id = won.id := congrArg Config.serverId hled.config_eq
      exact hled.voters_subset (hwins.self_mem (hwon.symm.trans hid) htimely)
  | fault faulty =>
    obtain rfl := List.mem_singleton.mp hmoment
    exact hcounts hleads
  | restart draws now =>
    obtain ⟨next, answer, hmeet, hnext⟩ := meet_restart hcoherent draws now
    rw [hmeet] at hmoment
    obtain rfl : moment = next := List.mem_singleton.mp hmoment
    rcases hnext with rfl | ⟨_, hfollows⟩
    · exact hcounts hleads
    · rw [hfollows] at hleads
      cases hleads

/-- A leader counts itself at each moment of a life in which no vote comes before its time. -/
theorem countsItself_of_timely (hcoherent : server.Coherent) (horder : server.InOrder)
    (hcounts : server.CountsItself) (htimely : server.Timely incidents) :
    ∀ moment ∈ server.moments incidents, moment.CountsItself := by
  induction incidents generalizing server with
  | nil => simpa [moments] using hcounts
  | cons incident rest ih =>
    have hmet := meet_countsItself hcoherent horder hcounts htimely.1
    have hleft := Outcome.server_mem_moments (server.meet incident)
    have hlater := ih ((meet_traces hcoherent incident).coherent _ hleft)
      ((List.pairwise_cons.mp (meet_accounts hcoherent horder incident)).1 _ hleft horder).1
      (hmet _ hleft) htimely.2
    intro moment hmoment
    rcases List.mem_append.mp hmoment with hnow | hafter
    · rcases List.mem_cons.mp hnow with rfl | hposted
      · exact hcounts
      · exact hmet moment (List.mem_append_left _ hposted)
    · exact hlater moment hafter

/-! ## Elections -/

/-- Whatever a server is sent, it leads only by distinct votes of a majority of its cluster in
its term, and past the first term with its own vote given to itself. Unless a vote came before
its time, its own vote is among them. -/
theorem leader_elected (hstart : start config store draws now = .ok server)
    (hterm : 0 ≤ store.term) :
    (∀ moment ∈ server.moments incidents, moment.config = config ∧
        (moment.role.isLeader = true → moment.Mandated)) ∧
      (server.Timely incidents → ∀ moment ∈ server.moments incidents,
        moment.role.isLeader = true → moment.votedFor = some config.serverId ∧
          config.serverId ∈ moment.progress.tally.voters) := by
  obtain ⟨hvalid, hcoherent, hload, hview⟩ := start_eq_ok trivial hstart
  obtain ⟨hconfig, horder⟩ := inOrder_of_start trivial hstart
  have hfollows : server.role.isLeader = false := congrArg View.leads hview
  have hpolls : server.view.Polls := by
    refine View.polls_of_fresh ?_ (congrArg View.tally hview) hfollows
    obtain ⟨hloaded, _⟩ := Prod.mk.inj (Except.ok.inj hload)
    show 0 ≤ server.term
    rwa [← hloaded]
  have hself : server.id ∉ server.config.peerIds := by
    rw [id, hconfig]
    exact Config.self_notMem_of_validate hvalid
  have hlife : ∀ moment ∈ server.moments incidents, moment.view.Polls :=
    polls_of_mem_moments hcoherent hself hpolls
  have hmandated : ∀ moment ∈ server.moments incidents, moment.config = config ∧
      (moment.role.isLeader = true → moment.Mandated) := by
    intro moment hmoment
    have hsame := (inOrder_of_mem_moments hcoherent horder moment hmoment).2.2.trans hconfig
    refine ⟨hsame, fun hleads => ?_⟩
    have hpolls := hlife moment hmoment
    obtain ⟨htally, hwon⟩ := hpolls.won hleads
    exact ⟨htally, hpolls.distinct, hpolls.members, hwon, hpolls.voted htally⟩
  refine ⟨hmandated, fun htimely moment hmoment hleads => ?_⟩
  obtain ⟨hsame, hmandate⟩ := hmandated moment hmoment
  -- A server that starts follows, so there is no vote of its own to count yet.
  have hcounts : server.CountsItself := fun hleading => absurd hleading (by simp [hfollows])
  have hown := countsItself_of_timely hcoherent horder hcounts htimely moment hmoment hleads
  have hid : moment.id = config.serverId := congrArg Config.serverId hsame
  rw [← hid]
  exact ⟨(hmandate hleads).voted (.inr hown), hown⟩

end Server

/-! ## One of three -/

namespace Trio

def config : Config where
  serverId := 1
  peers := [⟨2, "raft-2"⟩, ⟨3, "raft-3"⟩]

def server : Server MemoryStore where
  config := config
  role := .follower none
  durable := ⟨0, none, .ofStore {}⟩
  progress := {}
  timer := Countdown.restart
    ⟨config.electionMin, config.electionMax, .zero, config.electionMax, Handover.draws⟩ .zero
  delivered := {}

/-- A message arrives a second after the start. -/
def arrival (sender : ServerId) (message : Message) : Incident :=
  .call (.ofSeconds 1 0) (.receive sender message.encode)

def timeout : Incident := .call (.ofSeconds 1 0) .pollTimer

/-- The election of term 1 is opened, and one vote is enough to win it. -/
def campaign : List Incident :=
  [timeout, .call (.ofSeconds 1 0) .perform, arrival 2 (.voteResponse ⟨1, true⟩)]

/-- The timer has run out, and the others vote for a term in which no election was opened. -/
def rush : List Incident :=
  [timeout, arrival 2 (.voteResponse ⟨0, true⟩), arrival 3 (.voteResponse ⟨0, true⟩)]

end Trio

namespace Server

/-- The first of three servers is elected, its own vote included. -/
theorem leader_elected_campaign :
    (0 : Term) ≤ ({} : MemoryStore).term ∧ Trio.server.Timely Trio.campaign ∧
      (Trio.server.after Trio.campaign).role.isLeader = true ∧
      (Trio.server.after Trio.campaign).Mandated ∧
      (Trio.server.after Trio.campaign).votedFor = some 1 ∧
      1 ∈ (Trio.server.after Trio.campaign).progress.tally.voters := by
  have hstart : start Trio.config {} Handover.draws .zero = .ok Trio.server := rfl
  have htimely : Trio.server.Timely Trio.campaign := by
    refine ⟨?_, ?_, ?_, trivial⟩
    · rintro ⟨_, _, _, _, ⟨_, _, hcall, _⟩, _⟩
      cases hcall
    · rintro ⟨_, _, _, _, ⟨_, _, hcall, _⟩, _⟩
      cases hcall
    · intro hpremature
      exact hpremature.missing (by decide +kernel)
  have hleads : (Trio.server.after Trio.campaign).role.isLeader = true := by
    decide +kernel
  have hlast := Trio.server.after_mem_moments Trio.campaign []
  rw [List.append_nil] at hlast
  have hterm : (0 : Term) ≤ ({} : MemoryStore).term := by
    decide
  have hmandated := ((leader_elected hstart hterm).1 _ hlast).2 hleads
  have hown := (leader_elected hstart hterm).2 htimely _ hlast hleads
  exact ⟨hterm, htimely, hleads, hmandated, hown⟩

/-- Votes that come before their time make a leader of a term whose election it has not opened,
without its own vote. -/
theorem rushed_leader_without_own_vote :
    start Trio.config {} Handover.draws .zero = .ok Trio.server ∧
      (Trio.server.after Trio.rush).role.isLeader = true ∧
      (Trio.server.after Trio.rush).votedFor = none ∧
      (Trio.server.after Trio.rush).term = 0 ∧
      1 ∉ (Trio.server.after Trio.rush).progress.tally.voters := by
  refine ⟨rfl, ?_, ?_, ?_, ?_⟩ <;> decide +kernel

end Server

end Consensus
