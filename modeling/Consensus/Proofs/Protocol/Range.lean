import Consensus.Proofs.Protocol.Commitment
import Consensus.Proofs.Wire.RoundTrip

/-! # What is sent fits its frame

Terms stay below the last one, indices within the logs that they point into, and servers
are named by the ids of members. Nothing wraps on its way, then, and a frame means to
its receiver what it meant to its sender.
-/

namespace Consensus

theorem Word.inRange_term {term : Term} (hlow : nullTerm ≤ term) (hhigh : term ≤ maxTerm) :
    Word.InRange 4 term := by
  simp only [nullTerm, maxTerm] at hlow hhigh
  simp only [Word.InRange, Word.bound]
  lia

theorem Word.inRange_index {index : Index} (hlow : nullIndex ≤ index)
    (hhigh : index ≤ Cursor.maxIndex) : Word.InRange 8 index := by
  simp only [nullIndex, Cursor.maxIndex] at hlow hhigh
  simp only [Word.InRange, Word.bound]
  lia

namespace Chronicle

variable {members : Finset ServerId} {chronicle : Chronicle}

/-- A term in a seen log fits, and so does the one in front of the log. -/
theorem Reachable.term_inRange (h : Reachable members chronicle) {view : View}
    (hseen : view ∈ chronicle.seen) {entry : Entry} (hentry : entry ∈ view.log) :
    Word.InRange 4 entry.term := by
  have hbounds := (h.grounded hseen).terms entry hentry
  have hterm := (h.ballots hseen).term_le
  refine Word.inRange_term ?_ (Int.le_trans hbounds.2 hterm)
  simp only [nullTerm]
  lia

/-- Every index of a log and the ones next to it fit into a word. -/
theorem Reachable.index_inRange (h : Reachable members chronicle) {view : View}
    (hseen : view ∈ chronicle.seen) {index : Index} (hlow : -1 ≤ index)
    (hhigh : index ≤ view.log.length) : Word.InRange 8 index :=
  Word.inRange_index hlow (Int.le_trans hhigh (h.grounded hseen).length_le)

theorem Reachable.lastKey_fits (h : Reachable members chronicle) {view : View}
    (hseen : view ∈ chronicle.seen) : view.log.lastKey.Fits := by
  constructor
  · rcases List.eq_nil_or_concat' view.log with hnil | ⟨front, entry, hlog⟩
    · rw [hnil]
      exact Word.inRange_term (Int.le_refl _) (by decide)
    · have hmem : entry ∈ view.log := by simp [hlog]
      have := h.term_inRange hseen hmem
      rw [Entries.lastKey, hlog, Entries.lastTerm_concat]
      exact this
  · have hindex : view.log.lastKey.index = (view.log.length : Int) - 1 := rfl
    rw [hindex]
    exact h.index_inRange hseen (by lia) (by lia)

/-- A request that shows a log fits into a frame. -/
theorem Reachable.shows_fits (h : Reachable members chronicle) {view : View}
    (hseen : view ∈ chronicle.seen) {request : AppendRequest} (hshows : view.log.Shows request) :
    request.prevLogEntry.Fits ∧ ∀ entry, request.entry = some entry → entry.key.Fits := by
  constructor
  · rcases Entries.termAt?_eq_some hshows.prev_termAt with hnull | ⟨entry, hread, hterm⟩
    · have hprev := hshows.prev_termAt
      rw [hnull] at hprev
      have hnull_term : request.prevLogEntry.term = nullTerm :=
        (Option.some.inj hprev).symm
      refine ⟨hnull_term ▸ Word.inRange_term (Int.le_refl _) (by decide), ?_⟩
      exact hnull ▸ Word.inRange_index (Int.le_refl _) (by decide)
    · obtain ⟨hnonneg, hlt⟩ := Entries.bounds_of_read? hread
      refine ⟨hterm ▸ h.term_inRange hseen (Entries.mem_of_read? hread), ?_⟩
      exact h.index_inRange hseen (by lia) (Int.le_of_lt hlt)
  · intro entry hentry
    obtain ⟨_, hread⟩ := hshows.read?_entry hentry
    obtain ⟨hnonneg, hlt⟩ := Entries.bounds_of_read? hread
    refine ⟨h.term_inRange hseen (Entries.mem_of_read? hread), ?_⟩
    have hlow : -1 ≤ entry.index := by lia
    exact h.index_inRange hseen hlow (Int.le_of_lt hlt)

/-- Members whose ids fit send messages that fit. -/
theorem Reachable.fits (h : Reachable members chronicle)
    (hids : ∀ server ∈ members, Word.InRange 4 server) {envelope : Envelope}
    (hsent : envelope ∈ chronicle.sent) : envelope.message.Fits := by
  have hlasting : Lasting fun _ (envelope : Envelope) => envelope.message.Fits :=
    fun _ _ _ _ hfits => hfits
  refine h.recorded_envelopes hlasting ?_ envelope hsent
  intro chronicle server receiver message h hmember hold hvouches
  have hseen := h.attended.present_seen server hmember
  have hterm : Word.InRange 4 (chronicle.present server).term := by
    have hnonneg := (h.ballots hseen).term_nonneg
    refine Word.inRange_term ?_ (h.ballots hseen).term_le
    simp only [nullTerm]
    lia
  have hid : Word.InRange 4 (chronicle.present server).id :=
    hids _ (h.attended.seen_member _ hseen)
  cases hvouches with
  | askVote => exact ⟨hterm, hid, h.lastKey_fits hseen⟩
  | grant => exact hterm
  | refuse => exact hterm
  | replicate _ hsame hleader hcommit hshows =>
    obtain ⟨hprev, hentry⟩ := h.shows_fits hseen hshows
    refine ⟨hsame ▸ hterm, hleader ▸ hid, hprev, hcommit ▸ ?_, hentry⟩
    obtain ⟨entries, hsecured⟩ := h.secured hseen
    have hlength := hsecured.length_eq
    have hbegins := hsecured.entries_isPrefix.length_le
    exact h.index_inRange hseen (by lia) (by lia)
  -- An acknowledgement repeats an index of the request it answers, which was sent before.
  | @acknowledge request harrived =>
    refine ⟨hterm, hid, ?_⟩
    obtain ⟨_, _, hprev, _, hentry⟩ := hold _ harrived.1
    cases hcarried : request.entry with
    | none =>
      rw [AppendRequest.lastNewIndex, hcarried]
      exact hprev.2
    | some entry =>
      rw [AppendRequest.lastNewIndex, hcarried]
      exact (hentry entry hcarried).2
  | decline =>
    exact ⟨hterm, hid, h.index_inRange hseen (by lia) (by lia)⟩
  | handOver _ hpeer =>
    have hmember := ((h.attended.lists server hmember).mem_peerIds_iff receiver).mp
      (Config.isPeer_iff.mp hpeer)
    exact ⟨hterm, hids receiver hmember.1⟩

end Chronicle

end Consensus
