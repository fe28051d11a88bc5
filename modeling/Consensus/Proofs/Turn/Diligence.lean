import Consensus.Proofs.Protocol.Moves
import Consensus.Proofs.Turn.Applying

/-! # Diligence

A server is diligent when no command is due. It always is when it has applied what it can, and
when all of its log can be applied then nothing that is committed waits.
-/

namespace Consensus

variable {σ : Type} [Store σ]

namespace Server

variable {server later earlier : Server σ} {command : Command}

/-- What is committed can be applied. -/
structure Ready (server : Server σ) : Prop where
  orderly : server.view.Orderly
  decodes : ∀ entry ∈ server.log.entries, Command.Decodes entry.command

/-- A ready server has a command to hand out while not all that is committed is applied. -/
theorem Ready.exists_due (h : server.Ready)
    (hwaits : server.progress.lastApplied < server.commitIndex) :
    ∃ command, server.Due command := by
  obtain ⟨entry, hread⟩ := h.orderly.exists_due hwaits
  obtain ⟨command, hdecode⟩ := h.decodes entry (Entries.mem_of_read? hread)
  exact ⟨command, hwaits, entry, hread, hdecode⟩

/-- A server stays ready when it hands out the command that is due. -/
theorem Ready.deliver (h : server.Ready) (hdue : server.Due command) :
    (server.deliver command).Ready := by
  obtain ⟨hwaits, entry, hread, hdecode⟩ := hdue
  exact ⟨h.orderly.deliver hwaits hread hdecode, h.decodes⟩

/-- What is committed can be applied still when moves have led on from where it could be. -/
theorem Ready.moves (h : earlier.Ready) {intake : View.Intake} (hlegible : intake.Legible)
    (hmoves : earlier.view.Moves intake later.view) : later.Ready :=
  ⟨hmoves.orderly h.orderly, hmoves.decodes hlegible h.decodes⟩

/-- No command is due. -/
def Diligent (server : Server σ) : Prop := ∀ command, ¬ server.Due command

theorem diligent_of_le (happlied : server.commitIndex ≤ server.progress.lastApplied) :
    server.Diligent :=
  fun _ hdue => absurd hdue.waits (Int.not_lt.mpr happlied)

/-- Nothing that is committed waits when it can be applied and no command is due. -/
theorem Diligent.lastApplied_eq (h : server.Diligent) (hready : server.Ready) :
    server.progress.lastApplied = server.commitIndex := by
  refine Int.le_antisymm hready.orderly.applied_le (Int.not_lt.mp fun hwaits => ?_)
  obtain ⟨command, hdue⟩ := hready.exists_due hwaits
  exact h command hdue

/-- What is committed waits, and cannot be applied. -/
structure Stuck (server : Server σ) : Prop where
  waits : server.progress.lastApplied < server.commitIndex
  diligent : server.Diligent

/-- A ready server is not stuck. -/
theorem Ready.not_stuck (h : server.Ready) : ¬ server.Stuck := by
  intro hstuck
  obtain ⟨command, hdue⟩ := h.exists_due hstuck.waits
  exact hstuck.diligent command hdue

/-- What is due depends only on what is committed and applied of the log. -/
theorem Diligent.of_same (h : earlier.Diligent)
    (hcommit : later.commitIndex = earlier.commitIndex)
    (happlied : later.progress.lastApplied = earlier.progress.lastApplied)
    (hread : ∀ index, index ≤ earlier.commitIndex →
      later.log.read? index = earlier.log.read? index) : later.Diligent := by
  rintro command ⟨hwaits, entry, hentry, hdecode⟩
  rw [hcommit, happlied] at hwaits
  have hsame : later.log.read? (later.progress.lastApplied + 1) =
      earlier.log.read? (earlier.progress.lastApplied + 1) := by
    rw [happlied]
    exact hread _ hwaits
  exact h command ⟨hwaits, entry, hsame.symm.trans hentry, hdecode⟩

end Server

namespace Action

variable {turn : Turn σ}

/-- Applying what is committed leaves nothing to apply, or gets stuck. -/
theorem applyCommitted_diligent :
    applyCommitted.Ends (fun _ last => last.server.Diligent) (fun last => last.server.Stuck)
      turn :=
  (ends_applyCommitted (fun _ => True) (fun _ _ _ _ => trivial)
    (fun _ _ hwaits hnothing => ⟨hwaits, hnothing⟩) trivial).mono
      fun _ _ hlast => Server.diligent_of_le hlast.2

/-- A server whose log can be applied does not fail to apply it, and nothing waits then. -/
theorem applyCommitted_ready (h : turn.server.Ready) :
    applyCommitted.Ends
      (fun _ last => Applies turn last ∧
        last.server.progress.lastApplied = last.server.commitIndex)
      (fun _ => False) turn := by
  apply (ends_applyCommitted (fun last => Applies turn last ∧ last.server.Ready) ?_ ?_
    ⟨⟨.refl _, rfl⟩, h⟩).mono
  · rintro _ last ⟨⟨happlies, hready⟩, hcommit⟩
    exact ⟨happlies, Int.le_antisymm hready.orderly.applied_le hcommit⟩
  · rintro last command ⟨⟨happlied, hpostings⟩, hready⟩ hdue
    exact ⟨⟨(Server.applied_deliver _ _).trans happlied, hpostings⟩, hready.deliver hdue⟩
  · rintro last ⟨_, hready⟩ hwaits hnothing
    obtain ⟨command, hdue⟩ := hready.exists_due hwaits
    exact hnothing command hdue

/-- When nothing waits there is nothing to do. -/
theorem ends_applyCommitted_of_le {done : Unit → Turn σ → Prop} {failed : Turn σ → Prop}
    (happlied : turn.server.commitIndex ≤ turn.server.progress.lastApplied)
    (hdone : done () turn) : applyCommitted.Ends done failed turn := by
  have hcount : (turn.server.progress.commitIndex -
      turn.server.progress.lastApplied).toNat = 0 :=
    Int.toNat_of_nonpos (Int.sub_nonpos_of_le happlied)
  unfold applyCommitted
  rw [ends_bind, ends_server]
  dsimp only
  rw [hcount]
  exact hdone

end Action

end Consensus
