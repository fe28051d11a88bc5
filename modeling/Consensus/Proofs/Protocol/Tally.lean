import Consensus.Proofs.Config.Quorum
import Consensus.Proofs.Protocol.Moves

/-! # Tallies of one server

Whatever the messages of its peers say, a server counts each of them once and in one term, and
leads only by a majority of the cluster. Past the first term there is, the term is one whose
election it opened, so it has voted for itself there.
-/

namespace Consensus.View

variable {intake : Intake} {view next : View}

/-- What can be said of a tally without trust in the peers. -/
structure Polls (view : View) : Prop where
  term_nonneg : 0 ≤ view.term
  tally_term_le : view.tally.term ≤ view.term
  distinct : view.tally.voters.Nodup
  members : ∀ voter ∈ view.tally.voters, voter = view.id ∨ voter ∈ view.config.peerIds
  won : view.leads = true → view.tally.term = view.term ∧ view.config.majority ≤ view.tally.size
  /-- A tally is started with the server's own vote, and is of the first term otherwise. -/
  voted : view.tally.term = view.term → view.term ≠ 0 ∨ view.id ∈ view.tally.voters →
    view.votedFor = some view.id

/-- An empty tally of a server that does not lead counts nothing. -/
theorem polls_of_fresh (hterm : 0 ≤ view.term) (htally : view.tally = {})
    (hfollows : view.leads = false) : view.Polls := by
  refine ⟨hterm, by simpa [htally] using hterm, by simp [htally], by simp [htally], ?_, ?_⟩
  · simp [hfollows]
  · intro hsame hopened
    rw [htally] at hsame hopened
    rcases hopened with hlater | hself
    · exact absurd hsame.symm hlater
    · cases hself

/-- What leaves the tally behind, or does not concern it, keeps what can be said of it. -/
theorem Polls.of_cleared (h : view.Polls) (hid : next.config = view.config)
    (hterm : view.term ≤ next.term) (htally : next.tally = view.tally.clear)
    (hfollows : next.leads = false)
    (hvote : next.term = view.term → next.votedFor = view.votedFor) : next.Polls := by
  refine ⟨Int.le_trans h.term_nonneg hterm, ?_, ?_, ?_, by simp [hfollows], ?_⟩
  · rw [htally]
    exact Int.le_trans h.tally_term_le hterm
  · simp [htally, Tally.clear]
  · simp [htally, Tally.clear]
  · rw [htally]
    intro hsame hopened
    have hcurrent : next.term = view.term := by
      have htally_le : view.tally.term ≤ view.term := h.tally_term_le
      have hclear : view.tally.term = next.term := hsame
      lia
    have hid : next.id = view.id := congrArg Config.serverId hid
    rw [hvote hcurrent, hid]
    refine h.voted (hsame.trans hcurrent) (.inl ?_)
    rcases hopened with hlater | hself
    · exact hcurrent ▸ hlater
    · cases hself

/-- A tally counts votes of peers and the own one only. -/
theorem Move.polls (hpeers : ∀ sender message, intake.received sender message →
      sender ∈ view.config.peerIds)
    (hself : view.id ∉ view.config.peerIds) (h : view.Polls) (hmove : view.Move intake next) :
    next.Polls := by
  cases hmove with
  | adopt _ hnewer =>
    refine h.of_cleared rfl (Int.le_of_lt hnewer) rfl rfl fun hsame => ?_
    exact absurd hsame (Int.ne_of_gt hnewer)
  | concede => exact h.of_cleared rfl (Int.le_refl _) rfl rfl fun _ => rfl
  | vote _ _ hfree =>
    refine ⟨h.term_nonneg, h.tally_term_le, h.distinct, h.members, h.won, fun hsame hopened => ?_⟩
    -- In a term that it has opened an election of, the server has voted already.
    have hvoted := h.voted hsame hopened
    rw [hfree] at hvoted
    cases hvoted
  | campaign hfollows =>
    refine ⟨Int.le_trans h.term_nonneg (Int.le_of_lt (Int.lt_succ _)), Int.le_refl _,
      List.nodup_singleton _, by simp [Tally.start, id], ?_, fun _ _ => rfl⟩
    intro hleads
    rw [show view.leads = true from hleads] at hfollows
    exact absurd hfollows (by decide)
  | @countVote sender harrived hcounts =>
    have hrecord : view.tally.record view.term sender =
        { view.tally with voters := sender :: view.tally.voters } := if_pos hcounts
    have hpeer := hpeers sender _ harrived
    rw [hrecord]
    refine ⟨h.term_nonneg, h.tally_term_le, List.nodup_cons.mpr ⟨hcounts.2, h.distinct⟩, ?_, ?_, ?_⟩
    · intro voter hvoter
      rcases List.mem_cons.mp hvoter with rfl | hold
      · exact .inr hpeer
      · exact h.members voter hold
    · intro hleads
      obtain ⟨hterm, hwon⟩ := h.won hleads
      exact ⟨hterm, Nat.le_succ_of_le hwon⟩
    · intro hsame hopened
      refine h.voted hsame (hopened.imp_right fun hmember => ?_)
      rcases List.mem_cons.mp hmember with hsender | hold
      · exact absurd (hsender ▸ hpeer) hself
      · exact hold
  | win _ htally hwon =>
    exact ⟨h.term_nonneg, h.tally_term_le, h.distinct, h.members, fun _ => ⟨htally, hwon⟩, h.voted⟩
  | restart => exact polls_of_fresh h.term_nonneg rfl rfl
  | _ => exact ⟨h.term_nonneg, h.tally_term_le, h.distinct, h.members, h.won, h.voted⟩

theorem Moves.polls (hpeers : ∀ sender message, intake.received sender message →
      sender ∈ view.config.peerIds)
    (hself : view.id ∉ view.config.peerIds) (h : view.Polls) (hmoves : view.Moves intake next) :
    next.Polls := by
  induction hmoves with
  | refl => exact h
  | tail hmoves hmove ih =>
    have hconfig := Moves.config_eq hmoves
    refine hmove.polls (hconfig ▸ hpeers) ?_ ih
    rw [Moves.id_eq hmoves, hconfig]
    exact hself

/-! ## The vote for itself -/

/-- A server leads in the term of its tally only. One that is not of the first term there is was
started with the server's vote for itself. -/
structure Stands (view : View) : Prop where
  started : view.tally.term = 0 ∨ view.tally.term ≤ view.term ∧
    (view.tally.term = view.term → view.votedFor = some view.id)
  leads_term : view.leads = true → view.tally.term = view.term

theorem Move.stands (hmove : view.Move intake next) (h : view.Stands) : next.Stands := by
  cases hmove with
  | @adopt _ message _ hnewer =>
    refine ⟨h.started.imp_right fun ⟨hle, _⟩ => ?_, by simp [retired]⟩
    have htally : view.tally.term < message.term := Int.lt_of_le_of_lt hle hnewer
    exact ⟨Int.le_of_lt htally, fun hsame => absurd hsame (Int.ne_of_lt htally)⟩
  | concede => exact ⟨h.started, by simp [retired]⟩
  | vote _ _ hfree =>
    refine ⟨h.started.imp_right fun ⟨hle, hself⟩ => ⟨hle, fun hsame => ?_⟩, h.leads_term⟩
    have hvoted := hself hsame
    rw [hfree] at hvoted
    cases hvoted
  | campaign hfollows =>
    refine ⟨.inr ⟨Int.le_refl _, fun _ => rfl⟩, fun hleads => ?_⟩
    rw [show view.leads = true from hleads] at hfollows
    cases hfollows
  | countVote _ hcounts =>
    rw [Tally.record, if_pos hcounts]
    exact ⟨h.started, h.leads_term⟩
  | win _ htally => exact ⟨h.started, fun _ => htally⟩
  | restart => exact ⟨.inl rfl, by simp⟩
  | _ => exact ⟨h.started, h.leads_term⟩

/-- Whoever leads in a term past the first there is voted for itself. -/
theorem Stands.votedFor_self (h : view.Stands) (hleads : view.leads = true)
    (hterm : view.term ≠ 0) : view.votedFor = some view.id := by
  have hcurrent := h.leads_term hleads
  rcases h.started with hfirst | ⟨_, hself⟩
  · exact absurd (hcurrent.symm.trans hfirst) hterm
  · exact hself hcurrent

end Consensus.View
