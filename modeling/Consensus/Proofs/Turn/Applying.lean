import Consensus.Proofs.Log.Entries
import Consensus.Proofs.Turn.Action
import Consensus.Server.Events

/-! # Applying what is committed

A server that applies commands takes note of how far it got and hands the commands out, and
does nothing else. It goes on until no command is due, and fails only over an entry that is
missing or that is no command.
-/

namespace Consensus

variable {σ : Type}

namespace Server

variable {later middle earlier : Server σ}

/-- The later server has applied what the earlier one had, and perhaps more. There is no
other difference. -/
structure Applied (later earlier : Server σ) : Prop where
  applied_le : earlier.progress.lastApplied ≤ later.progress.lastApplied
  same : later = { earlier with
    progress := { earlier.progress with lastApplied := later.progress.lastApplied }
    delivered := later.delivered }

theorem Applied.refl (server : Server σ) : server.Applied server := ⟨Int.le_refl _, rfl⟩

theorem Applied.trans (h : later.Applied middle) (hfirst : middle.Applied earlier) :
    later.Applied earlier := by
  refine ⟨Int.le_trans hfirst.applied_le h.applied_le, ?_⟩
  rw [h.same, hfirst.same]

theorem Applied.config_eq (h : later.Applied earlier) : later.config = earlier.config := by
  rw [h.same]

theorem Applied.role_eq (h : later.Applied earlier) : later.role = earlier.role := by
  rw [h.same]

/-- Applying leaves what is durable alone. -/
theorem Applied.durable_eq (h : later.Applied earlier) : later.durable = earlier.durable := by
  rw [h.same]

theorem Applied.commitIndex_eq (h : later.Applied earlier) :
    later.commitIndex = earlier.commitIndex := by
  rw [h.same]
  rfl

theorem Applied.cursors_eq (h : later.Applied earlier) :
    later.progress.cursors = earlier.progress.cursors := by
  rw [h.same]

variable [Store σ]

/-- The command is the next one that is committed and not applied. -/
structure Due (server : Server σ) (command : Command) : Prop where
  waits : server.progress.lastApplied < server.commitIndex
  read : ∃ entry, server.log.read? (server.progress.lastApplied + 1) = some entry ∧
    Command.decode entry.command = .ok command

/-- The server as it is when it has handed out the next command. -/
def deliver (server : Server σ) (command : Command) : Server σ :=
  { server with
    delivered := server.delivered.push (server.progress.lastApplied + 1) command
    progress := server.progress.markApplied (server.progress.lastApplied + 1) }

omit [Store σ] in
/-- Handing out a command applies one entry. -/
theorem applied_deliver (server : Server σ) (command : Command) :
    (server.deliver command).Applied server :=
  ⟨Int.le_of_lt (Int.lt_succ _), rfl⟩

/-- Every entry that is committed but not applied can be. -/
structure Applicable (server : Server σ) : Prop where
  applied_ge : nullIndex ≤ server.progress.lastApplied
  commit_lt : server.commitIndex < server.log.entries.length
  decodes : ∀ entry ∈ server.log.entries, Command.Decodes entry.command

/-- What is committed stays applicable while it is applied. -/
theorem Applied.applicable (h : later.Applied earlier) (hearlier : earlier.Applicable) :
    later.Applicable := by
  have hlog : later.log = earlier.log := congrArg Durable.log h.durable_eq
  refine ⟨Int.le_trans hearlier.applied_ge h.applied_le, ?_, ?_⟩
  · rw [h.commitIndex_eq, hlog]
    exact hearlier.commit_lt
  · rw [hlog]
    exact hearlier.decodes

/-- A command is due while not all that is committed is applied. -/
theorem Applicable.exists_due {server : Server σ} (h : server.Applicable)
    (hwaits : server.progress.lastApplied < server.commitIndex) :
    ∃ command, server.Due command := by
  have hlow : -1 ≤ server.progress.lastApplied := h.applied_ge
  have hhigh := h.commit_lt
  have hplace : (server.progress.lastApplied + 1).toNat < server.log.entries.length := by lia
  obtain ⟨command, hcommand⟩ := h.decodes _ (List.getElem_mem hplace)
  exact ⟨command, hwaits, _,
    Entries.read?_eq_some_iff.mpr ⟨by lia, List.getElem?_eq_getElem hplace⟩, hcommand⟩

end Server

namespace Action

variable [Store σ] {turn : Turn σ} {failed : Turn σ → Prop}

/-- The next entry is applied by handing out the command that is due. -/
theorem ends_applyAt {done : Unit → Turn σ → Prop}
    (hwaits : turn.server.progress.lastApplied < turn.server.commitIndex)
    (hdeliver : ∀ command, turn.server.Due command →
      done () { turn with server := turn.server.deliver command })
    (hstuck : (∀ command, ¬ turn.server.Due command) → failed turn) :
    (applyAt (turn.server.progress.lastApplied + 1)).Ends done failed turn := by
  unfold applyAt
  rw [ends_bind, ends_server]
  split
  next hnone =>
    refine hstuck fun command hdue => ?_
    obtain ⟨entry, hread, _⟩ := hdue.read
    simp [hnone] at hread
  next entry hread =>
    split
    next cause hcause =>
      refine hstuck fun command hdue => ?_
      obtain ⟨other, hother, hdecode⟩ := hdue.read
      obtain rfl := Option.some.inj (hread.symm.trans hother)
      rw [hcause] at hdecode
      cases hdecode
    next command hdecode => exact hdeliver command ⟨hwaits, entry, hread, hdecode⟩

/-- What each delivery keeps, applying keeps, and it ends when nothing waits or nothing that waits
is due. -/
theorem ends_applyNext (invariant : Turn σ → Prop) (count : Nat)
    (hdeliver : ∀ last command, invariant last → last.server.Due command →
      invariant { last with server := last.server.deliver command })
    (hstuck : ∀ last, invariant last → last.server.progress.lastApplied < last.server.commitIndex →
      (∀ command, ¬ last.server.Due command) → failed last)
    (hcount : turn.server.commitIndex ≤ turn.server.progress.lastApplied + count)
    (hstart : invariant turn) :
    (applyNext count).Ends (fun _ last => invariant last ∧
      last.server.commitIndex ≤ last.server.progress.lastApplied) failed turn := by
  induction count generalizing turn with
  | zero => exact ⟨hstart, by simpa using hcount⟩
  | succ count ih =>
    unfold applyNext
    rw [ends_bind, ends_server]
    unfold Progress.nextDue?
    split
    next hnone =>
      have hlast : turn.server.progress.commitIndex ≤ turn.server.progress.lastApplied := by
        simpa using hnone
      exact ⟨hstart, hlast⟩
    next index hnext =>
      rw [Option.ite_none_right_eq_some] at hnext
      obtain ⟨hwaits, hindex⟩ := hnext
      rw [← Option.some.inj hindex, ends_bind]
      refine ends_applyAt hwaits (fun command hdue => ?_) (hstuck turn hstart hwaits)
      refine ih ?_ (hdeliver turn command hstart hdue)
      show turn.server.commitIndex ≤ turn.server.progress.lastApplied + 1 + count
      lia

/-- What each delivery keeps is kept by applying all that is committed. -/
theorem ends_applyCommitted (invariant : Turn σ → Prop)
    (hdeliver : ∀ last command, invariant last → last.server.Due command →
      invariant { last with server := last.server.deliver command })
    (hstuck : ∀ last, invariant last → last.server.progress.lastApplied < last.server.commitIndex →
      (∀ command, ¬ last.server.Due command) → failed last)
    (hstart : invariant turn) :
    applyCommitted.Ends (fun _ last => invariant last ∧
      last.server.commitIndex ≤ last.server.progress.lastApplied) failed turn := by
  unfold applyCommitted
  rw [ends_bind, ends_server]
  refine ends_applyNext invariant _ hdeliver hstuck ?_ hstart
  show turn.server.progress.commitIndex ≤ _
  lia

/-- The turn goes on, only that more is applied. -/
def Applies (first last : Turn σ) : Prop :=
  last.server.Applied first.server ∧ last.postings = first.postings

/-- What is committed is applied and nothing else is done. Only a server that is not fit to
apply its commands fails. -/
theorem applyCommitted_applies :
    (applyCommitted : Action σ Unit).Ends (fun _ last => Applies turn last)
      (fun last => Applies turn last ∧ ¬ turn.server.Applicable) turn := by
  apply (ends_applyCommitted (Applies turn) ?_ ?_ ⟨.refl _, rfl⟩).mono
  · exact fun _ _ hlast => hlast.1
  · rintro last command ⟨happlied, hpostings⟩ _
    exact ⟨(Server.applied_deliver _ _).trans happlied, hpostings⟩
  · rintro last ⟨happlied, hpostings⟩ hwaits hnothing
    refine ⟨⟨happlied, hpostings⟩, fun happlicable => ?_⟩
    obtain ⟨command, hdue⟩ := (happlied.applicable happlicable).exists_due hwaits
    exact hnothing command hdue

end Action

end Consensus
