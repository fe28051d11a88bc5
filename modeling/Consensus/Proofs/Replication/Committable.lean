import Consensus.Proofs.Replication.Incumbency
import Mathlib.Order.Bounds.Defs

/-! # What a leader can commit

A leader can commit what a majority holds, up to an entry of its own term. It looks at one index
only, the highest that a majority holds. Where the terms of a log do not fall and are not beyond
the leader's, no other index can be committed unless that one can.
-/

namespace Consensus

/-- The terms of the log do not fall by index, and none is beyond `term`. -/
structure Entries.Ascends (log : Entries) (term : Term) : Prop where
  ordered : ∀ ⦃lower upper : Index⦄ ⦃one other : Entry⦄, lower ≤ upper →
    log.read? lower = some one → log.read? upper = some other → one.term ≤ other.term
  bounded : ∀ entry ∈ log, entry.term ≤ term

variable {σ : Type} [Store σ]

namespace Server

/-- By what the leader knows a majority of the cluster holds the index, itself included, and the
entry there is of its term. -/
structure Committable (server : Server σ) (index : Index) : Prop where
  held : server.config.majority ≤
    (server.progress.cursors.map Cursor.matchIndex ++ [server.log.lastIndex]).countP
      fun held => decide (index ≤ held)
  current : ∃ entry, server.log.read? index = some entry ∧ entry.term = server.term

/-- Nothing beyond the commit index can be committed. -/
def Settled (server : Server σ) : Prop :=
  ∀ index, server.Committable index → index ≤ server.commitIndex

variable {server earlier later : Server σ} {index committed : Index}

/-- Nobody is known to hold more than the leader. -/
theorem Tracks.le_lastIndex (h : server.Tracks) {held : Index}
    (hheld : held ∈ server.progress.cursors.map Cursor.matchIndex ++ [server.log.lastIndex]) :
    held ≤ server.log.lastIndex := by
  rcases List.mem_append.mp hheld with hfollower | hleader
  · obtain ⟨cursor, hcursor, rfl⟩ := List.mem_map.mp hfollower
    obtain ⟨_, hmatched, hnext⟩ := h.within cursor hcursor
    exact Int.le_sub_one_of_lt (Int.lt_of_lt_of_le hmatched hnext)
  · exact Int.le_of_eq (List.mem_singleton.mp hleader)

/-- A leader holds what a majority holds. -/
theorem Tracks.majorityMatch_le (h : server.Tracks)
    (hheld : nullIndex < server.majorityMatch) : server.majorityMatch ≤ server.log.lastIndex := by
  have hcount := Cursors.majority_le_countP server.progress.cursors server.log.lastIndex
    (Nat.succ_pos _) hheld
  have hsome := Nat.lt_of_lt_of_le (Nat.succ_pos _) hcount
  obtain ⟨held, hmember, hholds⟩ := List.countP_pos_iff.mp hsome
  exact Int.le_trans (of_decide_eq_true hholds) (h.le_lastIndex hmember)

/-! ## One index to look at -/

/-- What is committable is held by a majority. -/
theorem Committable.le_majorityMatch (h : server.Committable index) :
    index ≤ server.majorityMatch :=
  Cursors.le_majorityMatch _ _ (Nat.succ_pos _) h.held

/-- What goes beyond what is committed, up to an entry of the server's term, can be committed. -/
theorem Exceeds.committable (h : server.Exceeds committed) (hcommitted : nullIndex ≤ committed) :
    server.Committable server.majorityMatch := by
  obtain ⟨hhigher, hterm⟩ := h
  have hheld : nullIndex < server.majorityMatch := Int.lt_of_le_of_lt hcommitted hhigher
  refine ⟨Cursors.majority_le_countP _ _ (Nat.succ_pos _) hheld, ?_⟩
  exact (Entries.termAt?_eq_some hterm).resolve_left (Int.ne_of_gt hheld)

/-- Anything that can be committed beyond what is committed has what a majority holds be
committed. -/
theorem Committable.exceeds (h : server.Committable index) (hhigher : committed < index)
    (htracks : server.Tracks) (hascends : Entries.Ascends server.log.entries server.term) :
    server.Exceeds committed := by
  obtain ⟨entry, hread, hterm⟩ := h.current
  have hle := h.le_majorityMatch
  have hnonneg := (Entries.bounds_of_read? hread).1
  have hheld : nullIndex < server.majorityMatch := Int.lt_of_lt_of_le hnonneg hle
  have hlast := htracks.majorityMatch_le hheld
  refine ⟨Int.lt_of_lt_of_le hhigher hle, ?_⟩
  obtain ⟨last, hread_last⟩ : ∃ last, server.log.read? server.majorityMatch = some last := by
    have hlt : server.majorityMatch.toNat < server.log.entries.length := by
      have hsize : server.log.lastIndex = (server.log.entries.length : Int) - 1 := rfl
      lia
    exact ⟨_, Entries.read?_eq_some_iff.mpr
      ⟨Int.le_trans hnonneg hle, List.getElem?_eq_getElem hlt⟩⟩
  -- The entry there is between the server's term and the server's term.
  have hlow : server.term ≤ last.term := hterm ▸ hascends.ordered hle hread hread_last
  have hhigh : last.term ≤ server.term :=
    hascends.bounded last (Entries.mem_of_read? hread_last)
  have hthere : server.log.termAt? server.majorityMatch = some last.term :=
    Entries.termAt?_of_read? hread_last
  rw [hthere, Int.le_antisymm hhigh hlow]

/-! ## What leaves nothing to commit -/

/-- A leader that has looked at its commit index has raised it to the greatest index that can be
committed, or there was none. -/
theorem Reckons.settled (h : server.Reckons committed) (hcommitted : nullIndex ≤ committed)
    (htracks : server.Tracks) (hascends : Entries.Ascends server.log.entries server.term) :
    server.Settled ∧ (committed < server.commitIndex →
      IsGreatest { index | server.Committable index } server.commitIndex) := by
  rcases h with ⟨hexceeds, hcommit⟩ | ⟨hstays, hcommit⟩
  · have hsettled : server.Settled := fun index hindex => hcommit ▸ hindex.le_majorityMatch
    exact ⟨hsettled, fun _ => ⟨hcommit ▸ hexceeds.committable hcommitted, hsettled⟩⟩
  · refine ⟨fun index hindex => ?_, fun hrises => absurd hcommit (Int.ne_of_gt hrises)⟩
    rw [hcommit]
    by_contra hhigher
    exact hstays (hindex.exceeds (Int.not_le.mp hhigher) htracks hascends)

/-- A leader that keeps its books stays settled. -/
theorem Retains.settled (h : earlier.Retains later) (hsettled : earlier.Settled) :
    later.Settled := by
  rintro index ⟨hheld, entry, hread, hterm⟩
  rw [h.commitIndex_eq]
  refine hsettled index ⟨?_, entry, ?_, hterm.trans h.term_eq⟩
  · rwa [← h.config_eq, ← h.matchIndices_eq, ← h.lastIndex_eq]
  · have hsame : later.log.read? index = earlier.log.read? index :=
      congrArg (Entries.read? · index) h.entries_eq
    exact hsame.symm.trans hread

/-- A server that has begun to lead has nothing to commit yet. With peers it knows of no other
that holds an entry, and alone it is in a term of which there is no entry. -/
theorem Begins.settled (h : earlier.Begins later)
    (hbounded : ∀ entry ∈ earlier.log.entries, entry.term ≤ earlier.term) : later.Settled := by
  rintro index ⟨hheld, entry, hread, hterm⟩
  exfalso
  rcases h.supported with ⟨peer, hpeer⟩ | hopened
  · have hnonneg := (Entries.bounds_of_read? hread).1
    have hothers : (later.progress.cursors.map Cursor.matchIndex).countP
        (fun held => decide (index ≤ held)) = 0 := by
      refine List.countP_eq_zero.mpr fun held hmember hholds => ?_
      obtain ⟨cursor, hcursor, rfl⟩ := List.mem_map.mp hmember
      have hnull : cursor.matchIndex = -1 := h.unknown _ (List.mem_map_of_mem hcursor)
      have hindex := of_decide_eq_true hholds
      lia
    have hself : [later.log.lastIndex].countP (fun held => decide (index ≤ held)) ≤ 1 :=
      List.countP_le_length
    have hpeers : 0 < later.config.peers.length := by
      obtain ⟨other, hother, _⟩ := List.any_eq_true.mp hpeer
      exact List.length_pos_of_mem hother
    rw [List.countP_append, hothers] at hheld
    unfold Config.majority Config.clusterSize at hheld
    omega
  · have hentry : entry ∈ earlier.log.entries := h.entries_eq ▸ Entries.mem_of_read? hread
    have hold := hbounded entry hentry
    rw [hterm, hopened] at hold
    exact absurd hold (Int.not_le.mpr (Int.lt_succ _))

end Server

end Consensus
