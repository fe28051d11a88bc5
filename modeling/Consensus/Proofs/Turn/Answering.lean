import Consensus.Proofs.Results
import Consensus.Proofs.Turn.Action
import Consensus.Server.Following
import Consensus.Server.Voting

/-! # What answering does

Answers are posted on the channel that the question came on. A refusal changes nothing, and a
granted vote is stored first unless it was given before.
-/

namespace Consensus

variable {σ : Type} [Store σ] {turn : Turn σ}

/-- The server as it is when it grants its vote: it has stored the vote, now or before. -/
def Server.Votes (server : Server σ) (candidate : ServerId) (voted : Server σ) : Prop :=
  (server.votedFor ≠ none ∧ voted = server) ∨
    server.votedFor = none ∧ ∃ durable, server.durable.voteFor candidate = .ok durable ∧
      voted = { server with durable }

namespace Action

section Append

variable {done : Unit → Turn σ → Prop} {failed : Turn σ → Prop}

omit [Store σ] in
/-- An append request is answered by one response in the current term. -/
@[simp] theorem ends_answerAppend (receiver : ServerId) (successful : Bool)
    (matchLogIndex : Index) :
    (answerAppend receiver successful matchLogIndex).Ends done failed turn ↔
      done () { turn with postings := turn.postings ++ [⟨receiver, .appendResponse
        ⟨turn.server.term, successful, turn.server.id, matchLogIndex⟩, turn.server⟩] } := Iff.rfl

/-- A refusal hints at the last index of the log. -/
@[simp] theorem ends_refuseAppend (receiver : ServerId) :
    (refuseAppend receiver).Ends done failed turn ↔
      done () { turn with postings := turn.postings ++ [⟨receiver, .appendResponse
        ⟨turn.server.term, false, turn.server.id, turn.server.log.lastIndex⟩, turn.server⟩] } :=
  Iff.rfl

end Append

section Vote

variable {done : Bool → Turn σ → Prop} {failed : Turn σ → Prop} {sender : ServerId}

/-- A vote that is not granted is refused in the current term, and nothing else happens. -/
theorem ends_answerVoteRequest_of_refused {request : VoteRequest}
    (hrefused : ¬ turn.server.Grants request) :
    (answerVoteRequest sender request).Ends done failed turn ↔ done false { turn with
      postings := turn.postings ++
        [⟨sender, .voteResponse ⟨turn.server.term, false⟩, turn.server⟩] } := by
  unfold answerVoteRequest
  rw [ends_bind, ends_server, if_neg hrefused]
  rfl

/-- A vote is stored before it is granted. -/
theorem ends_answerVoteRequest {request : VoteRequest}
    (hgranted : ∀ voted, turn.server.Grants request →
      turn.server.Votes request.candidateId voted →
      done true { turn with
        server := voted
        postings := turn.postings ++
          [⟨sender, .voteResponse ⟨turn.server.term, true⟩, voted⟩] })
    (hrefused : ¬ turn.server.Grants request → done false { turn with
      postings := turn.postings ++
        [⟨sender, .voteResponse ⟨turn.server.term, false⟩, turn.server⟩] })
    (hfailed : turn.server.votedFor = none → ∀ cause,
      turn.server.durable.voteFor request.candidateId = .error cause → failed turn) :
    (answerVoteRequest sender request).Ends done failed turn := by
  unfold answerVoteRequest
  simp only [ends_bind, ends_server]
  apply ends_ite
  · intro hgrants
    apply ends_ite
    · intro hfree
      rw [ends_bind]
      apply ends_changeDurable_cases
      · intro durable hchange
        exact hgranted _ hgrants (.inr ⟨hfree, durable, mapError_eq_ok.mp hchange, rfl⟩)
      · intro failure hchange
        obtain ⟨cause, hvote⟩ := exists_of_mapError_eq_error hchange
        exact hfailed hfree cause hvote
    · intro hvoted
      exact hgranted _ hgrants (.inl ⟨hvoted, rfl⟩)
  · exact hrefused

omit [Store σ] in
/-- A vote counts if it was granted in the current term. -/
theorem ends_countVote {response : VoteResponse}
    (hcounted : response.granted = true → response.term = turn.server.term →
      turn.server.progress.tally.Counts turn.server.term sender →
      done true { turn with server := { turn.server with progress := { turn.server.progress with
        tally := turn.server.progress.tally.record turn.server.term sender } } })
    (hpassed : done false turn) : (countVote sender response).Ends done failed turn := by
  unfold countVote
  rw [ends_bind, ends_server]
  apply ends_ite
  · rintro ⟨hgranted, hterm, hcounts⟩
    exact hcounted hgranted hterm hcounts
  · intro _
    exact hpassed

end Vote

end Action

end Consensus
