import Consensus.Proofs.Ensemble.Schedule
import Consensus.Proofs.Life.Promises

/-! # Safety of one server

What no life of a server can do, whatever frames it is sent and whenever its writes fail:
change what is committed, hand out a command twice or out of order, vote for two candidates
in one term, or promise what is not stored. Peers are not trusted in any of this.
-/

namespace Consensus

/-! ## A peer that lies

Server 1 takes an entry and a vote request from server 2, which also contradicts itself,
while writes fail for a time.
-/

namespace Hostile

/-- A message arrives from server 2. -/
def arrival (message : Message) : Incident :=
  .call (.ofSeconds 1 0) (.receive 2 message.encode)

/-- A request of a leader 2, for the first index. -/
def request (term : Term) (leaderCommit : Index) : Message :=
  .appendRequest ⟨term, 2, .null, leaderCommit, some ⟨term, 0, Handover.command.layout⟩⟩

def candidacy (candidate : ServerId) : Message := .voteRequest ⟨2, candidate, ⟨1, 0⟩⟩

def calls : List Incident := [
  arrival (request 1 0),
  -- Another entry for an index that is committed.
  arrival (.appendRequest ⟨1, 2, .null, 9, some ⟨0, 0, Handover.command.layout⟩⟩),
  .fault true, arrival (candidacy 2), .fault false, arrival (candidacy 2),
  arrival (.appendRequest ⟨2, 2, ⟨1, 0⟩, 7, none⟩)]

/-- The server forgets all that is not stored, and is then asked for another vote. -/
def life : List Incident :=
  calls ++ [.restart Handover.draws .zero, arrival (candidacy 3), arrival (candidacy 2)]

end Hostile

namespace Server

variable {config : Config} {store : MemoryStore} {draws : Draws} {now : Duration}
variable {server : Server MemoryStore} {incidents : List Incident}

/-! ## Commitment -/

/-- A server that has started has applied nothing that is not committed. -/
theorem start_orderly (hstart : start config store draws now = .ok server) :
    server.view.Orderly := by
  obtain ⟨_, _, _, hview⟩ := start_eq_ok trivial hstart
  exact hview ▸ View.orderly_of_null rfl rfl rfl

/-- As long as a server runs, what it has committed and handed out stays as it is, and every
index up to the last applied one has been handed out once and in order. -/
theorem committed_prefix_stable (hstart : start config store draws now = .ok server)
    (hsteady : ∀ incident ∈ incidents, incident.isRestart = false) :
    (∀ moment ∈ server.moments incidents, moment.view.Orderly) ∧
      (server.moments incidents).Pairwise
        fun earlier later => later.view.Keeps earlier.view := by
  obtain ⟨_, hcoherent, _⟩ := start_eq_ok trivial hstart
  have hlife : ∀ moment ∈ server.moments incidents, moment.Coherent ∧ moment.view.Orderly := by
    refine moments_induction (fun present hpresent incident _ moment hmoment => ?_)
      ⟨hcoherent, start_orderly hstart⟩
    have htraces := meet_traces hpresent.1 incident
    exact ⟨htraces.coherent moment hmoment, (htraces.moves hmoment).orderly hpresent.2⟩
  have hrunning : (server.moments incidents).Pairwise
      fun earlier later => earlier.view.RunsOn later.view := by
    refine pairwise_moments (fun _ _ _ h hnext => h.trans hnext) ?_ hcoherent
    intro incident hincident earlier later hmoves horderly
    have hsteady : ¬ incident.intake.restarted := by
      rw [Incident.intake, hsteady incident hincident]
      exact Bool.false_ne_true
    exact ⟨hmoves.orderly horderly, hmoves.keeps horderly hsteady⟩
  refine ⟨fun moment hmoment => (hlife moment hmoment).2, ?_⟩
  exact hrunning.imp_of_mem fun hearlier _ h => (h (hlife _ hearlier).2).2

/-- One entry is committed and applied, and what comes after does not undo it. -/
theorem committed_prefix_stable_hostile :
    (∀ incident ∈ Hostile.calls, incident.isRestart = false) ∧
      ((Handover.server 1 2).after Hostile.calls).commitIndex = 0 ∧
      ((Handover.server 1 2).after Hostile.calls).delivered.toList = [⟨0, Handover.command⟩] ∧
      ((Handover.server 1 2).after Hostile.calls).view.Orderly := by
  have hstart : start (Handover.config 1 2) {} Handover.draws .zero = .ok (Handover.server 1 2) :=
    rfl
  have hsteady : ∀ incident ∈ Hostile.calls, incident.isRestart = false := by
    decide +kernel
  refine ⟨hsteady, by decide +kernel, by decide +kernel, ?_⟩
  apply (committed_prefix_stable hstart hsteady).1
  simpa using (Handover.server 1 2).after_mem_moments Hostile.calls []

/-! ## Votes -/

/-- In one term a server votes for one candidate through all its lives, and for itself when
it has opened the election. -/
theorem one_vote_per_term (hstart : start config store draws now = .ok server) :
    ((server.moments incidents).Pairwise
        fun earlier later => later.view.Remembers earlier.view) ∧
      ∀ term, ∃ candidate,
        (∀ incident posting, (incident, posting) ∈ server.posted incidents →
          posting.message = .voteResponse ⟨term, true⟩ → ∃ request,
            incident.Brings posting.receiver (.voteRequest request) ∧
              request.term = term ∧ request.candidateId = candidate) ∧
        (server.Campaigned incidents term → candidate = server.id) := by
  obtain ⟨_, hcoherent, _⟩ := start_eq_ok trivial hstart
  refine ⟨remembers_of_life hcoherent, fun term => ?_⟩
  -- Each grant was made with the vote for its candidate stored.
  have hgrants : ∀ incident posting, (incident, posting) ∈ server.posted incidents →
      posting.message = .voteResponse ⟨term, true⟩ → ∃ request,
        incident.Brings posting.receiver (.voteRequest request) ∧ request.term = term ∧
          ∃ moment ∈ server.moments incidents, moment.term = term ∧
            moment.votedFor = some request.candidateId := by
    intro incident posting hposted hmessage
    have hbacked := backed_of_posted hcoherent incident posting hposted
    have hmember := sender_mem_moments hposted
    obtain ⟨hterm, hvote⟩ := (coherent_of_mem_moments hcoherent _ hmember).1.stored_eq
    obtain ⟨request, hbrings, hrequest, hstored⟩ := hbacked.granted term hmessage
    have hmessage_term : posting.message.term = term := by rw [hmessage]; rfl
    exact ⟨request, hbrings, hrequest, _, hmember,
      hterm.symm.trans (hbacked.term_eq.symm.trans hmessage_term), hvote.symm.trans hstored⟩
  by_cases hvoted : ∃ moment ∈ server.moments incidents, moment.term = term ∧
      ∃ candidate, moment.votedFor = some candidate
  · obtain ⟨moment, hmoment, hterm, candidate, hvote⟩ := hvoted
    refine ⟨candidate, fun incident posting hposted hmessage => ?_, fun hcampaigned => ?_⟩
    · obtain ⟨request, hbrings, hrequest, other, hother, hother_term, hother_vote⟩ :=
        hgrants incident posting hposted hmessage
      exact ⟨request, hbrings, hrequest, vote_unique_of_life hcoherent hother hmoment
        (hother_term.trans hterm.symm) hother_vote hvote⟩
    · obtain ⟨other, hother, hother_term, hother_vote⟩ := hcampaigned.voted_self hcoherent
      exact vote_unique_of_life hcoherent hmoment hother (hterm.trans hother_term.symm) hvote
        hother_vote
  -- Without a vote in the term there is neither a grant nor an election of its own.
  · refine ⟨server.id, fun incident posting hposted hmessage => ?_, fun _ => rfl⟩
    obtain ⟨request, _, _, other, hother, hother_term, hother_vote⟩ :=
      hgrants incident posting hposted hmessage
    exact absurd ⟨other, hother, hother_term, _, hother_vote⟩ hvoted

/-- The vote of one term is granted twice, to the same candidate. -/
theorem one_vote_per_term_hostile :
    (((Handover.server 1 2).posted Hostile.life).filter fun sent =>
        sent.2.message = .voteResponse ⟨2, true⟩).length = 2 ∧
      ∃ candidate, ∀ incident posting,
        (incident, posting) ∈ (Handover.server 1 2).posted Hostile.life →
          posting.message = .voteResponse ⟨2, true⟩ → ∃ request,
            incident.Brings posting.receiver (.voteRequest request) ∧
              request.term = 2 ∧ request.candidateId = candidate := by
  have hstart : start (Handover.config 1 2) {} Handover.draws .zero = .ok (Handover.server 1 2) :=
    rfl
  obtain ⟨candidate, hgrants, _⟩ := (one_vote_per_term hstart).2 2
  exact ⟨by decide +kernel, candidate, hgrants⟩

/-! ## Durability -/

/-- The stored term and vote are those at hand at every moment, and whatever is posted was
stored before. -/
theorem durable_before_reply (hstart : start config store draws now = .ok server) :
    (∀ moment ∈ server.moments incidents,
        Store.load moment.log.store = .ok (moment.term, moment.votedFor)) ∧
      ∀ incident posting, (incident, posting) ∈ server.posted incidents →
        posting.Backed incident := by
  obtain ⟨_, hcoherent, _⟩ := start_eq_ok trivial hstart
  exact ⟨fun moment hmoment => (coherent_of_mem_moments hcoherent moment hmoment).1.load_store,
    backed_of_posted hcoherent⟩

theorem durable_before_reply_hostile :
    ((Handover.server 1 2).posted Hostile.life).map (fun sent => sent.2.message) = [
        .appendResponse ⟨1, true, 1, 0⟩, .appendResponse ⟨1, false, 1, 0⟩,
        .voteResponse ⟨2, true⟩, .appendResponse ⟨2, true, 1, 0⟩,
        .voteResponse ⟨2, false⟩, .voteResponse ⟨2, true⟩] ∧
      ∀ incident posting, (incident, posting) ∈ (Handover.server 1 2).posted Hostile.life →
        posting.Backed incident := by
  have hstart : start (Handover.config 1 2) {} Handover.draws .zero = .ok (Handover.server 1 2) :=
    rfl
  exact ⟨by decide +kernel, (durable_before_reply hstart).2⟩

end Server

end Consensus
