import Consensus.Proofs.Life.Requests
import Consensus.Proofs.Replication.Incumbency

/-! # How a leader leaves its office

Within a term a leader gives up its role for a vote only. Past the first term there is, it has
voted for itself, so the one request that gets its vote asks for it in the leader's own name. No
peer that keeps to the protocol sends such a request.
-/

namespace Consensus

variable {σ : Type} [Store σ]

/-- The call brings a request of a peer that gets the server's vote. -/
structure Server.YieldsTo (server : Server σ) (call : Call) (sender : ServerId)
    (request : VoteRequest) : Prop where
  heard : server.hears call sender (.voteRequest request)
  grants : server.Grants request

/-- The leader is in its office after a call as it was before, and no vote has been given. -/
structure Server.HoldsOffice {α : Type} (server : Server σ) (outcome : Outcome σ α) : Prop where
  leads : outcome.server.role.isLeader = true
  votedFor_eq : outcome.server.votedFor = server.votedFor
  quiet : ∀ posting ∈ outcome.postings, ¬ posting.message.GrantsVote

/-- The leader has left its office within its term, with its vote for the one who asked. -/
structure Server.LeavesOffice {α : Type} (server : Server σ) (outcome : Outcome σ α)
    (sender : ServerId) : Prop where
  follows : outcome.server.role.isLeader = false
  term_eq : outcome.server.term = server.term
  granted : (sender, .voteResponse ⟨server.term, true⟩) ∈ outcome.messages

namespace Server

variable {server : Server σ}

/-- A leader has voted for itself, unless it leads in term 0. -/
theorem Reachable.stands [LawfulStore σ] (h : server.Reachable) : server.view.Stands := by
  refine h.view_induction ?_ fun _ _ _ hmove hstands => hmove.stands hstands
  intro view hfollows htally _ _ _
  exact ⟨.inl (congrArg Tally.term htally), by simp [hfollows]⟩

/-- A leader that has voted yields to a request for the vote that it has given. -/
theorem YieldsTo.leavesOffice {call : Call} {sender : ServerId} {request : VoteRequest}
    (h : server.YieldsTo call sender request) (hleads : server.role.isLeader = true)
    (hvoted : server.votedFor ≠ none) (now : Duration) :
    server.LeavesOffice (server.call now call) sender := by
  obtain ⟨⟨hpeer, frame, rfl, hdecode⟩, hgrants⟩ := h
  have hleaves : server.LeavesOffice (server.receive now sender frame) sender := by
    rw [receive_eq_turn hpeer hdecode]
    refine Action.Ends.outcome (fun outcome => server.LeavesOffice outcome sender)
      (Action.dispatch_concedes hleads hvoted hgrants) ?_ ?_
    · exact fun _ last hlast => ⟨hlast.follows, hlast.term_eq, hlast.granted⟩
    · exact fun _ last hlast => ⟨hlast.follows, hlast.term_eq, hlast.granted⟩
  exact ⟨hleaves.follows, hleaves.term_eq, hleaves.granted⟩

/-- Whatever the call, a leader that is in its term after it leads on and has given no vote,
unless the call brings a request that gets its vote. Past the first term that is a request in the
leader's own name, and it has the leader step down. -/
theorem leader_yields_to_vote_alone [LawfulStore σ] (hreachable : server.Reachable)
    (hleads : server.role.isLeader = true) (now : Duration) (call : Call) :
    ((server.call now call).server.term = server.term →
      (∀ sender request, ¬ server.YieldsTo call sender request) →
        server.HoldsOffice (server.call now call)) ∧
      (server.term ≠ 0 → server.votedFor = some server.id ∧
        ∀ sender request, server.YieldsTo call sender request →
          request.candidateId = server.id ∧ server.LeavesOffice (server.call now call) sender) := by
  refine ⟨fun hterm hnever => ?_, fun hlater => ?_⟩
  · obtain ⟨last, hfares, hserver, hpostings⟩ := call_fares hleads now call
    cases hfares with
    | goesOn h =>
      refine ⟨?_, ?_, fun posting hposting => ?_⟩
      · rw [hserver]
        exact h.server.leads
      · rw [hserver]
        exact h.server.votedFor_eq
      · rw [hpostings] at hposting
        exact (h.quiet posting hposting).elim (fun hnone => nomatch hnone) fun hquiet => hquiet
    | concedes hheard hgrants => exact absurd ⟨hheard, hgrants⟩ (hnever _ _)
    | retires _ hnewer =>
      rw [← hserver, hterm] at hnewer
      exact absurd hnewer (Int.lt_irrefl _)
  · have hself : server.votedFor = some server.id :=
      hreachable.stands.votedFor_self hleads hlater
    have hvoted : server.votedFor ≠ none := by simp [hself]
    refine ⟨hself, fun sender request hyields => ⟨?_, hyields.leavesOffice hleads hvoted now⟩⟩
    rcases hyields.grants.2.1 with hfree | hsame
    · exact absurd hfree hvoted
    · exact (Option.some.inj (hself.symm.trans hsame)).symm

end Server

/-! ## A leader of three -/

namespace Trio

/-- The leader of term 1. -/
def leader : Server MemoryStore := server.after campaign

/-- Server 2 asks for a vote in term 1, in the leader's name. -/
def echo : Message := .voteRequest ⟨1, 1, .null⟩

/-- Server 2 sends the leader a message. -/
def word (message : Message) : Call := .receive 2 message.encode

end Trio

namespace Server

theorem leader_yields_to_vote_alone_plea_echo :
    Trio.leader.HoldsOffice (Trio.leader.call (.ofSeconds 1 0) (Trio.word Trio.plea)) ∧
      Trio.leader.LeavesOffice (Trio.leader.call (.ofSeconds 1 0) (Trio.word Trio.echo)) 2 := by
  have hreachable : Trio.leader.Reachable := Trio.reachable_server.after _
  have hleads : Trio.leader.role.isLeader = true := by decide +kernel
  constructor
  · refine (leader_yields_to_vote_alone hreachable hleads _ _).1 (by decide +kernel) ?_
    rintro sender request ⟨⟨_, frame, hcall, hdecode⟩, hgrants⟩
    obtain ⟨_, rfl⟩ := Call.receive.inj hcall
    have hplea : Message.decode Trio.plea.encode = .ok Trio.plea := by decide +kernel
    obtain rfl := Message.voteRequest.inj (Except.ok.inj (hplea.symm.trans hdecode))
    have hrefused : ¬ Trio.leader.Grants ⟨1, 2, .null⟩ := by decide +kernel
    exact hrefused hgrants
  · have hecho : Message.decode Trio.echo.encode = .ok Trio.echo := by decide +kernel
    have hyields : Trio.leader.YieldsTo (Trio.word Trio.echo) 2 ⟨1, 1, .null⟩ :=
      ⟨⟨by decide +kernel, _, rfl, hecho⟩, by decide +kernel⟩
    have hterm : Trio.leader.term ≠ 0 := by decide +kernel
    exact (((leader_yields_to_vote_alone hreachable hleads _ _).2 hterm).2 _ _ hyields).2

/-- A leader can step down and grant a vote within its term. -/
theorem leader_gives_way_within_term :
    Trio.leader.Reachable ∧ Trio.leader.role.isLeader = true ∧
      (Trio.leader.call (.ofSeconds 1 0) (Trio.word Trio.echo)).server.term = Trio.leader.term ∧
      (Trio.leader.call (.ofSeconds 1 0) (Trio.word Trio.echo)).server.role = .follower none ∧
      (2, .voteResponse ⟨Trio.leader.term, true⟩) ∈
        (Trio.leader.call (.ofSeconds 1 0) (Trio.word Trio.echo)).messages := by
  refine ⟨Trio.reachable_server.after _, ?_, ?_, ?_, ?_⟩ <;> decide +kernel

end Server

end Consensus
