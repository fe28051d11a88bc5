import Consensus.Proofs.Ensemble.Schedule
import Consensus.Proofs.Ensemble.Simulation

/-! # Safety of runs

What no run of a cluster can do, however its members are called, restarted and kept
waiting: elect two leaders of one term, let logs that meet at an entry differ below
it, lose a committed entry to a later leader, or hand two commands to state machines
for one index. The two sides of each statement can be at different moments of the run.
-/

namespace Consensus.Ensemble

variable {σ : Type} [Store σ] [LawfulStore σ] {members : Finset ServerId}
variable {run : List (Ensemble σ)} {first second : Ensemble σ} {one other : ServerId}

/-- One term has one leader. -/
theorem election_safety (h : Run members run) (hfirst : first ∈ run) (hsecond : second ∈ run)
    (hone : one ∈ members) (hother : other ∈ members)
    (hone_leads : (first.servers one).role.isLeader = true)
    (hother_leads : (second.servers other).role.isLeader = true)
    (hterm : (first.servers one).term = (second.servers other).term) : one = other := by
  obtain ⟨chronicle, hreachable, hseen⟩ := h.exists_seen
  obtain ⟨hone_seen, hone_id⟩ := hseen first hfirst one hone
  obtain ⟨hother_seen, hother_id⟩ := hseen second hsecond other hother
  have hsame := hreachable.leader_unique hone_seen hother_seen hone_leads hother_leads hterm
  exact hone_id.symm.trans (hsame.trans hother_id)

/-- The first server leads its term at two moments. -/
theorem election_safety_handover :
    ((Handover.moment 9).servers 1).role.isLeader = true ∧
      ((Handover.moment 5).servers 1).role.isLeader = true ∧
      ((Handover.moment 9).servers 1).term = ((Handover.moment 5).servers 1).term ∧
      (1 : ServerId) = 1 := by
  have hleads : ((Handover.moment 9).servers 1).role.isLeader = true := by decide +kernel
  have hstill : ((Handover.moment 5).servers 1).role.isLeader = true := by decide +kernel
  have hterm : ((Handover.moment 9).servers 1).term = ((Handover.moment 5).servers 1).term := by
    decide +kernel
  exact ⟨hleads, hstill, hterm, election_safety Handover.run_moments
    (Handover.moment_mem (by decide +kernel)) (Handover.moment_mem (by decide +kernel))
    (by decide) (by decide) hleads hstill hterm⟩

/-- State machines are handed one command for one index, by whatever server and whichever
of its lives. -/
theorem state_machine_safety (h : Run members run) (hfirst : first ∈ run)
    (hsecond : second ∈ run) (hone : one ∈ members) (hother : other ∈ members)
    {applied also : Delivery} (hone_applied : applied ∈ (first.servers one).delivered.toList)
    (hother_applied : also ∈ (second.servers other).delivered.toList)
    (hindex : applied.index = also.index) : applied.command = also.command := by
  obtain ⟨chronicle, hreachable, hseen⟩ := h.exists_seen
  exact hreachable.delivered_unique (hseen first hfirst one hone).1
    (hseen second hsecond other hother).1 hone_applied hother_applied hindex

/-- Both servers have applied the command. -/
theorem state_machine_safety_handover :
    ∃ applied ∈ ((Handover.moment 6).servers 1).delivered.toList,
      ∃ also ∈ ((Handover.moment 4).servers 2).delivered.toList,
        applied.command = also.command := by
  have happlied : ⟨0, Handover.command⟩ ∈ ((Handover.moment 6).servers 1).delivered.toList := by
    decide +kernel
  have halso : ⟨0, Handover.command⟩ ∈ ((Handover.moment 4).servers 2).delivered.toList := by
    decide +kernel
  exact ⟨_, happlied, _, halso, state_machine_safety Handover.run_moments
    (Handover.moment_mem (by decide +kernel)) (Handover.moment_mem (by decide +kernel))
    (by decide) (by decide) happlied halso rfl⟩

/-- A leader has whatever any server committed in an earlier term, at its index. -/
theorem leader_completeness (h : Run members run) (hfirst : first ∈ run) (hsecond : second ∈ run)
    (hone : one ∈ members) (hother : other ∈ members)
    (hother_leads : (second.servers other).role.isLeader = true)
    (hterm : (first.servers one).term < (second.servers other).term) {index : Index} {entry : Entry}
    (hcommitted : index ≤ (first.servers one).commitIndex)
    (hread : (first.servers one).log.read? index = some entry) :
    (second.servers other).log.read? index = some entry := by
  obtain ⟨chronicle, hreachable, hseen⟩ := h.exists_seen
  exact hreachable.committed_in_later_leaders (hseen first hfirst one hone).1
    (hseen second hsecond other hother).1 hother_leads hterm hcommitted hread

/-- What the first leader has committed is in the log of the second one. -/
theorem leader_completeness_handover :
    ((Handover.moment 6).servers 1).commitIndex = 0 ∧
      ((Handover.moment 0).servers 2).role.isLeader = true ∧
      ∃ entry, ((Handover.moment 6).servers 1).log.read? 0 = some entry ∧
        ((Handover.moment 0).servers 2).log.read? 0 = some entry := by
  have hcommit : ((Handover.moment 6).servers 1).commitIndex = 0 := by decide +kernel
  have hleads : ((Handover.moment 0).servers 2).role.isLeader = true := by decide +kernel
  have hterm : ((Handover.moment 6).servers 1).term < ((Handover.moment 0).servers 2).term := by
    decide +kernel
  have hsome : (((Handover.moment 6).servers 1).log.read? 0).isSome = true := by decide +kernel
  obtain ⟨entry, hread⟩ := Option.isSome_iff_exists.mp hsome
  exact ⟨hcommit, hleads, entry, hread, leader_completeness Handover.run_moments
    (Handover.moment_mem (by decide +kernel)) (Handover.moment_mem (by decide +kernel))
    (by decide) (by decide) hleads hterm (Int.le_of_eq hcommit.symm) hread⟩

/-- Logs that hold an entry of one index and term are equal up to it. -/
theorem log_matching (h : Run members run) (hfirst : first ∈ run) (hsecond : second ∈ run)
    (hone : one ∈ members) (hother : other ∈ members) {index : Index} {entry also : Entry}
    (hone_read : (first.servers one).log.read? index = some entry)
    (hother_read : (second.servers other).log.read? index = some also)
    (hterm : entry.term = also.term) {place : Index} (hplace : place ≤ index) :
    (first.servers one).log.read? place = (second.servers other).log.read? place := by
  obtain ⟨chronicle, hreachable, hseen⟩ := h.exists_seen
  obtain ⟨shared, hshared, hshared_other, hlength⟩ := hreachable.shared_of_read?
    (hseen first hfirst one hone).1 (hseen second hsecond other hother).1 hone_read hother_read
    hterm
  have hlt : place < shared.length := by lia
  exact (Entries.read?_eq_of_isPrefix hshared hlt).trans
    (Entries.read?_eq_of_isPrefix hshared_other hlt).symm

/-- Both servers hold the entry of term 1, and all of it. -/
theorem log_matching_handover :
    (((Handover.moment 7).servers 1).log.read? 0).map Entry.term = some 1 ∧
      (((Handover.moment 0).servers 2).log.read? 0).map Entry.term = some 1 ∧
      ((Handover.moment 7).servers 1).log.read? 0 =
        ((Handover.moment 0).servers 2).log.read? 0 := by
  have hone : (((Handover.moment 7).servers 1).log.read? 0).map Entry.term = some 1 := by
    decide +kernel
  have hother : (((Handover.moment 0).servers 2).log.read? 0).map Entry.term = some 1 := by
    decide +kernel
  obtain ⟨entry, hread, hterm⟩ := Option.map_eq_some_iff.mp hone
  obtain ⟨also, hother_read, hother_term⟩ := Option.map_eq_some_iff.mp hother
  exact ⟨hone, hother, log_matching Handover.run_moments
    (Handover.moment_mem (by decide +kernel)) (Handover.moment_mem (by decide +kernel))
    (by decide) (by decide) hread hother_read (hterm.trans hother_term.symm) (Int.le_refl 0)⟩

end Consensus.Ensemble
