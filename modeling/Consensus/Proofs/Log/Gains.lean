import Consensus.Proofs.Log.Agreement
import Consensus.Proofs.Log.Writes

/-! # Logs that gain on a leader's

Whatever a log takes over from a leader that it matches, it never agrees with the leader
less than before. On a reliable store nothing of this can fail.
-/

namespace Consensus.Log

variable {σ : Type} [Store σ] {log later earlier : Log σ} {leaderLog : Entries}

/-- What the log and the leader's have in common. -/
def shared (log : Log σ) (leaderLog : Entries) : Entries := Entries.common log.entries leaderLog

theorem shared_isPrefix (log : Log σ) (leaderLog : Entries) :
    log.shared leaderLog <+: log.entries := Entries.common_isPrefix_left _ _

theorem shared_isPrefix_leader (log : Log σ) (leaderLog : Entries) :
    log.shared leaderLog <+: leaderLog := Entries.common_isPrefix_right _ _

/-- A log that the leader's begins with is shared as a whole. -/
theorem shared_eq (h : log.entries <+: leaderLog) : log.shared leaderLog = log.entries :=
  Entries.common_eq_self h

/-- No write to the log fails, and each of its commands can be read. -/
structure Sure (log : Log σ) : Prop where
  reliable : Store.Reliable log.store
  decodes : ∀ entry ∈ log.entries, Command.Decodes entry.command

variable [LawfulStore σ]

/-- The later log agrees with the leader's as far as the earlier one did, and perhaps
further. It is no less sure, and longer than before only as far as the leader's goes. -/
structure Gains (later earlier : Log σ) (leaderLog : Entries) : Prop where
  coherent : later.Coherent
  matching : Entries.Matches later.entries leaderLog
  shared_isPrefix : earlier.shared leaderLog <+: later.shared leaderLog
  length_le : later.entries.length ≤ max earlier.entries.length leaderLog.length
  sure : earlier.Sure → later.Sure

/-- A log that matches the leader's gains on it by staying as it is. -/
theorem gains_refl (hcoherent : log.Coherent) (hmatches : Entries.Matches log.entries leaderLog) :
    log.Gains log leaderLog :=
  ⟨hcoherent, hmatches, List.prefix_rfl, Nat.le_max_left _ _, id⟩

/-- Gains add up. -/
theorem Gains.trans {middle : Log σ} (h : later.Gains middle leaderLog)
    (hfirst : middle.Gains earlier leaderLog) : later.Gains earlier leaderLog :=
  ⟨h.coherent, h.matching, hfirst.shared_isPrefix.trans h.shared_isPrefix,
    h.length_le.trans (max_le hfirst.length_le (Nat.le_max_right _ _)),
    fun hsure => h.sure (hfirst.sure hsure)⟩

/-! ## Changes -/

/-- A log that is cut off behind what it has in common with the leader's gains on it. -/
theorem Gains.truncate {shorter : Log σ} (hcoherent : log.Coherent)
    (hmatches : Entries.Matches log.entries leaderLog) {index : Index}
    (hkept : ((log.shared leaderLog).length : Int) ≤ index)
    (hok : log.truncate index = .ok shorter) :
    shorter.Gains log leaderLog ∧ shorter.entries = log.entries.take index.toNat := by
  have hnonneg : 0 ≤ index := by lia
  obtain ⟨hshorter, hentries, _⟩ := hcoherent.truncate_ok hnonneg hok
  refine ⟨⟨hshorter, ?_, ?_, ?_, fun hsure => ⟨?_, fun entry hentry => ?_⟩⟩, hentries⟩
  · rw [hentries]
    exact hmatches.take _
  · rw [shared, shared, hentries]
    exact Entries.common_isPrefix_take (Int.le_toNat hnonneg |>.mpr hkept)
  · rw [hentries]
    exact (List.length_take_le' _ _).trans (Nat.le_max_left _ _)
  · exact (of_exists_ok (exists_truncate hsure.reliable hnonneg) hok :)
  · rw [hentries] at hentry
    exact hsure.decodes entry (List.mem_of_mem_take hentry)

variable {entry : PlacedEntry}

/-- What is left of a log that takes over the leader's entry, or fails to. It holds all that
the log had in common with the leader's, and the entry too unless a write failed. -/
structure Takes (log : Log σ) (leaderLog : Entries) (entry : PlacedEntry)
    (left : Log σ × Except StorageFailure Placement) : Prop where
  gains : left.1.Gains log leaderLog
  taken : ∀ placed, left.2 = .ok placed → entry.index < (left.1.shared leaderLog).length
  unsure : ∀ cause, left.2 = .error cause → ¬ log.Sure

/-- A log that the leader's goes on from takes over the leader's next entry. -/
theorem takes_place (hcoherent : log.Coherent) (hbegins : log.entries <+: leaderLog)
    (hindex : (log.entries.length : Int) = entry.index)
    (hread : leaderLog.read? entry.index = some ⟨entry.term, entry.command⟩)
    (hdecodes : Command.Decodes entry.command) (placement : Placement) :
    log.Takes leaderLog entry (log.place entry placement) := by
  have hextends (hsure : log.Sure) : ∃ extended,
      log.extend entry.index ⟨entry.term, entry.command⟩ = .ok extended ∧
        Store.Reliable extended.store := exists_extend hsure.reliable hindex hdecodes.length_lt
  unfold Log.place
  cases hextend : log.extend entry.index ⟨entry.term, entry.command⟩ with
  | error cause =>
    refine ⟨gains_refl hcoherent (Entries.matches_of_isPrefix hbegins),
      (fun _ hok => nomatch hok), fun _ _ hsure => ?_⟩
    exact ne_error_of_exists_ok cause (hextends hsure) hextend
  | ok extended =>
    obtain ⟨hextended, _, hentries, _⟩ := hcoherent.extend_ok hextend
    have hlonger : extended.entries <+: leaderLog := by
      rw [hentries]
      exact Entries.concat_isPrefix_of_read? hbegins (hindex ▸ hread)
    refine ⟨⟨hextended, Entries.matches_of_isPrefix hlonger, ?_,
      hlonger.length_le.trans (Nat.le_max_right _ _), fun hsure => ⟨?_, ?_⟩⟩,
      fun _ _ => ?_, fun _ herror => nomatch herror⟩
    · rw [shared_eq hbegins, shared_eq hlonger, hentries]
      exact List.prefix_append _ _
    · exact (of_exists_ok (hextends hsure) hextend :)
    · intro held hheld
      rw [hentries] at hheld
      rcases List.mem_append.mp hheld with hold | hnew
      · exact hsure.decodes held hold
      · rw [List.mem_singleton.mp hnew]
        exact hdecodes
    · rw [shared_eq hlonger, hentries, List.length_append, List.length_singleton]
      lia

/-- A leader's entry is taken over behind what the logs have in common, or is in it already. -/
theorem takes_accept (hcoherent : log.Coherent) (hmatches : Entries.Matches log.entries leaderLog)
    (hindex : entry.index ≤ (log.shared leaderLog).length)
    (hread : leaderLog.read? entry.index = some ⟨entry.term, entry.command⟩)
    (hdecodes : Command.Decodes entry.command) :
    log.Takes leaderLog entry (log.accept entry) := by
  have hnames : leaderLog.Names entry.key := Entries.termAt?_of_read? hread
  have hnonneg : 0 ≤ entry.index := (Entries.bounds_of_read? hread).1
  unfold Log.accept
  cases hstanding : log.standing entry.key with
  | held =>
    refine ⟨gains_refl hcoherent hmatches, fun _ _ => ?_, fun _ herror => nomatch herror⟩
    exact (Log.standing_eq_held.mp hstanding).lt_common hmatches hnames
  | beyond =>
    -- The log ends where the entry belongs, so all of it is the leader's.
    have hend : (log.entries.length : Int) ≤ entry.index := length_le_of_standing hstanding hnonneg
    have hwhole : log.shared leaderLog = log.entries :=
      (log.shared_isPrefix leaderLog).eq_of_length_le (by lia)
    have hbegins : log.entries <+: leaderLog := hwhole ▸ log.shared_isPrefix_leader leaderLog
    rw [hwhole] at hindex
    exact takes_place hcoherent hbegins (Int.le_antisymm hend hindex) hread hdecodes .added
  | conflicting =>
    -- The conflict lies right behind what is shared, so the cut leaves just that.
    have hkept : ((log.shared leaderLog).length : Int) ≤ entry.index :=
      Entries.common_le_of_not_holds hnames (Log.conflicts_of_standing hstanding).not_holds
    cases htruncate : log.truncate entry.index with
    | error cause =>
      refine ⟨gains_refl hcoherent hmatches, (fun _ hok => nomatch hok), fun _ _ hsure => ?_⟩
      exact ne_error_of_exists_ok cause (exists_truncate hsure.reliable hnonneg) htruncate
    | ok shorter =>
      obtain ⟨hshorter, hentries⟩ := Gains.truncate hcoherent hmatches hkept htruncate
      have hend : entry.index.toNat = (log.shared leaderLog).length := by lia
      have hfront : shorter.entries = log.shared leaderLog := by
        rw [hentries, hend]
        exact (List.prefix_iff_eq_take.mp (log.shared_isPrefix leaderLog)).symm
      have hbegins : shorter.entries <+: leaderLog := hfront ▸ log.shared_isPrefix_leader leaderLog
      have hplaced := takes_place hshorter.coherent hbegins (by rw [hfront]; lia) hread hdecodes
        (.replaced entry.index)
      exact ⟨hplaced.gains.trans hshorter, hplaced.taken,
        fun cause herror hsure => hplaced.unsure cause herror (hshorter.sure hsure)⟩

end Consensus.Log
