import Consensus.Proofs.Life.Run
import Mathlib.Data.List.Pairwise

/-! # What a server promises

A message promises what its sender has stored by then. A vote is promised to whoever the
store names, and an acknowledged entry is in the stored log with all in front of it.
-/

namespace Consensus

/-- The store holds what a follower acknowledges by this match index. -/
structure MemoryStore.Backs (store : MemoryStore) (request : AppendRequest)
    (matchIndex : Index) : Prop where
  matchIndex_eq : matchIndex = request.lastNewIndex
  complete : ∀ index, 0 ≤ index → index ≤ matchIndex → (Store.read? store index).isSome = true
  entry_stored : ∀ entry, request.entry = some entry →
    ∃ stored, Store.read? store entry.index = some stored ∧ stored.term = entry.term
  prev_stored : request.entry = none → ¬ request.prevLogEntry.IsNull →
    ∃ stored, Store.read? store request.prevLogEntry.index = some stored ∧
      stored.term = request.prevLogEntry.term

/-- What the message says of its sender was stored when it was posted, and what it answers
came with the incident. -/
structure Posting.Backed (incident : Incident) (posting : Posting MemoryStore) : Prop where
  term_eq : posting.message.term = posting.sender.log.store.term
  asked : ∀ request, posting.message = .voteRequest request →
    posting.sender.log.store.votedFor = some posting.sender.id
  granted : ∀ term, posting.message = .voteResponse ⟨term, true⟩ → ∃ request,
    incident.Brings posting.receiver (.voteRequest request) ∧ request.term = term ∧
      posting.sender.log.store.votedFor = some request.candidateId
  acknowledged : ∀ response, posting.message = .appendResponse response →
    response.successful = true → ∃ request,
      incident.Brings posting.receiver (.appendRequest request) ∧
        posting.sender.log.store.Backs request response.matchLogIndex

namespace Server

/-- The server itself opened the election of a term: its duties took it there. -/
def Campaigned (server : Server MemoryStore) (incidents : List Incident) (term : Term) : Prop :=
  ∃ front now rest, incidents = front ++ .call now .perform :: rest ∧
    (server.after front).term < term ∧
    (server.after (front ++ [.call now .perform])).term = term

variable {server : Server MemoryStore} {incidents : List Incident}

/-- A store in memory holds the term and vote at hand. -/
theorem Coherent.load_store (h : server.Coherent) :
    Store.load server.log.store = .ok (server.term, server.votedFor) := by
  have hload : Store.load server.log.store =
      .ok (server.log.store.term, server.log.store.votedFor) := rfl
  rw [hload, h.durable.loaded_eq _ hload]
  rfl

theorem Coherent.stored_eq (h : server.Coherent) :
    server.log.store.term = server.term ∧ server.log.store.votedFor = server.votedFor :=
  Prod.mk.inj (Except.ok.inj h.load_store)

/-- A log that reflects a request holds what the request vouches for. -/
theorem backs_of_reflects {request : AppendRequest}
    (hreflects : server.view.log.Reflects request) :
    server.log.store.Backs request request.lastNewIndex := by
  refine ⟨rfl, fun index hnonneg hle => ?_, fun entry => hreflects.read?_entry, ?_⟩
  · have hlt := Int.lt_of_le_of_lt hle hreflects.lastNewIndex_lt
    obtain ⟨entry, hget⟩ : ∃ entry, server.view.log[index.toNat]? = some entry :=
      ⟨_, List.getElem?_eq_getElem (by lia)⟩
    have hread : Store.read? server.log.store index = some entry :=
      Entries.read?_eq_some_iff.mpr ⟨hnonneg, hget⟩
    rw [hread]
    rfl
  · exact fun _ hplaced => hreflects.holds_prev.resolve_left hplaced

/-- A coherent server stands behind what it vouches for. -/
theorem backed_of_vouches {incident : Incident} {posting : Posting MemoryStore}
    (hcoherent : posting.sender.Coherent)
    (hvouches : posting.sender.view.Vouches incident.intake posting.receiver posting.message) :
    posting.Backed incident := by
  obtain ⟨receiver, message, sender⟩ := posting
  dsimp only at hcoherent hvouches
  obtain ⟨hterm, hvoted⟩ := hcoherent.stored_eq
  have hmessage : message.term = sender.log.store.term := by
    refine Eq.trans ?_ hterm.symm
    cases hvouches <;> first | rfl | assumption
  refine ⟨hmessage, ?_, ?_, ?_⟩
  · rintro request rfl
    cases hvouches with
    | askVote hself => exact hvoted.trans hself
  · rintro term rfl
    cases hvouches with
    | @grant request harrived hrequest hvote =>
      exact ⟨request, harrived, hrequest, hvoted.trans hvote⟩
  · rintro response rfl hsuccessful
    cases hvouches with
    | @acknowledge request harrived _ hreflects =>
      exact ⟨request, harrived, backs_of_reflects hreflects⟩
    | decline => cases hsuccessful

/-- Whatever is posted in a life is backed by the store. -/
theorem backed_of_posted (hcoherent : server.Coherent) :
    ∀ incident posting, (incident, posting) ∈ server.posted incidents →
      posting.Backed incident := by
  refine forall_posted hcoherent fun present hpresent incident _ posting hposting => ?_
  have htraces := meet_traces hpresent incident
  refine backed_of_vouches (htraces.coherent _ ?_) (htraces.vouches hposting)
  exact List.mem_append_left _ (List.mem_map_of_mem hposting)

/-! ## Votes -/

/-- Through a life terms do not fall, and no vote is taken back within a term. -/
theorem remembers_of_life (hcoherent : server.Coherent) :
    (server.moments incidents).Pairwise
      fun earlier later => later.view.Remembers earlier.view :=
  pairwise_moments (fun _ _ _ h hnext => h.trans hnext) (fun _ _ _ _ h => h.remembers) hcoherent

/-- Whenever in its life a server has voted in a term, it has voted for the same candidate. -/
theorem vote_unique_of_life (hcoherent : server.Coherent) {one other : Server MemoryStore}
    (hone : one ∈ server.moments incidents) (hother : other ∈ server.moments incidents)
    (hterm : one.term = other.term) {candidate also : ServerId}
    (hvote : one.votedFor = some candidate) (hvote_other : other.votedFor = some also) :
    candidate = also := by
  have hagree : ((server.moments incidents).map Server.view).Pairwise View.Agrees :=
    List.pairwise_map.mpr ((remembers_of_life hcoherent).imp fun h => h.agrees)
  exact hagree.forall_of_forall (fun view _ => .refl view) (List.mem_map_of_mem hone)
    (List.mem_map_of_mem hother) hterm _ _ hvote hvote_other

theorem after_concat (server : Server MemoryStore) (front : List Incident)
    (incident : Incident) :
    server.after (front ++ [incident]) = ((server.after front).meet incident).server := by
  simp [after, List.foldl_append]

/-- A server that has opened an election has voted for itself in it. -/
theorem Campaigned.voted_self (hcoherent : server.Coherent) {term : Term}
    (h : server.Campaigned incidents term) :
    ∃ moment ∈ server.moments incidents, moment.term = term ∧
      moment.votedFor = some server.id := by
  obtain ⟨front, now, rest, rfl, hbefore, hterm⟩ := h
  have hquiet : ∀ sender message,
      ¬ (Incident.call now .perform).intake.received sender message := by
    rintro _ _ ⟨_, _, heq, _⟩
    cases heq
  have hmember : server.after front ∈ server.moments front := by
    simpa using server.after_mem_moments front []
  obtain ⟨hfront, hid⟩ := coherent_of_mem_moments hcoherent _ hmember
  have htraces := meet_traces hfront (.call now .perform)
  have hmoves := htraces.moves (Outcome.server_mem_moments _)
  rw [after_concat] at hterm
  have hvote := hmoves.votedFor_self hquiet (lt_of_lt_of_eq hbefore hterm.symm)
  refine ⟨_, ?_, hterm, hvote.trans (congrArg some ?_)⟩
  · rw [← after_concat]
    have := server.after_mem_moments (front ++ [.call now .perform]) rest
    rwa [List.append_assoc] at this
  · exact hmoves.id_eq.trans hid

end Server

end Consensus
