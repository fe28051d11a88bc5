import Consensus.Proofs.Ensemble.Run
import Mathlib.Data.List.GetD

/-! # Schedules

A schedule says what happens to which member at which clock reading, one occurrence
after the other. Following one makes a run, whatever it says, since what cannot occur is
passed over. Restarts are left to the runs themselves.
-/

namespace Consensus

/-- Something that can happen to a member. -/
inductive Occurrence where
  /-- A frame arrives, the one at a place among all that were offered. -/
  | arrival (place : Nat)
  | submission (command : Command)
  /-- A client's frame arrives. -/
  | clientFrame (frame : Bytes)
  | timer
  | duties
  | transfer (target : ServerId)

/-- An occurrence, the member it happens to and the clock reading there. -/
structure Appointment where
  id : ServerId
  now : Duration
  occurrence : Occurrence

namespace Ensemble

variable {σ : Type} [Store σ]

/-- What an occurrence makes of an ensemble, none when it cannot occur. -/
def occur (ensemble : Ensemble σ) (id : ServerId) (now : Duration) :
    Occurrence → Option (Ensemble σ)
  | .arrival place =>
    match ensemble.offered[place]? with
    | none => none
    | some parcel =>
      if parcel.receiver = id then
        some (ensemble.settle id ((ensemble.servers id).receive now parcel.sender parcel.frame))
      else
        none
  | .submission command =>
    if (ensemble.servers id).log.size < Cursor.maxIndex then
      some (ensemble.settle id ((ensemble.servers id).submit now command))
    else
      none
  | .clientFrame frame =>
    if (ensemble.servers id).log.size < Cursor.maxIndex then
      some (ensemble.settle id ((ensemble.servers id).receiveCommand now frame))
    else
      none
  | .timer => some (ensemble.settle id ((ensemble.servers id).pollTimer now))
  | .duties => some (ensemble.settle id ((ensemble.servers id).perform now))
  | .transfer target =>
    match (ensemble.servers id).transferRequest target with
    | .error _ => none
    | .ok message => some (ensemble.offer [(target, message)] id)

/-- The moments of a run that goes on by a schedule, the latest one first. -/
def follow (members : Finset ServerId) :
    List Appointment → (present : Ensemble σ) → (earlier : List (Ensemble σ)) → List (Ensemble σ)
  | [], present, earlier => present :: earlier
  | appointment :: later, present, earlier =>
    if appointment.id ∈ members then
      match present.occur appointment.id appointment.now appointment.occurrence with
      | none => follow members later present earlier
      | some next => follow members later next (present :: earlier)
    else
      follow members later present earlier

variable [LawfulStore σ] {members : Finset ServerId}

/-- What occurs to a member is a step. -/
theorem Step.of_occur {before after : Ensemble σ} {id : ServerId} {now : Duration}
    {occurrence : Occurrence} (hmember : id ∈ members)
    (hoccurs : before.occur id now occurrence = some after) : Step members before after := by
  cases occurrence with
  | arrival place =>
    simp only [occur] at hoccurs
    split at hoccurs
    next => cases hoccurs
    next parcel hparcel =>
      split at hoccurs
      next hreceiver =>
        cases hoccurs
        subst hreceiver
        exact .receive now hmember (List.mem_of_getElem? hparcel)
      next => cases hoccurs
  | submission command =>
    simp only [occur] at hoccurs
    split at hoccurs
    next hroom =>
      cases hoccurs
      exact .submit now command hmember hroom
    next => cases hoccurs
  | clientFrame frame =>
    simp only [occur] at hoccurs
    split at hoccurs
    next hroom =>
      cases hoccurs
      exact .receiveCommand now frame hmember hroom
    next => cases hoccurs
  | timer =>
    cases hoccurs
    exact .pollTimer now hmember
  | duties =>
    cases hoccurs
    exact .perform now hmember
  | transfer target =>
    simp only [occur] at hoccurs
    split at hoccurs
    next => cases hoccurs
    next message hrequest =>
      cases hoccurs
      exact .transfer hmember hrequest

/-- A run that goes on by a schedule is a run. -/
theorem Run.follow {present : Ensemble σ} {earlier : List (Ensemble σ)}
    (h : Run members (present :: earlier)) (schedule : List Appointment) :
    Run members (Ensemble.follow members schedule present earlier) := by
  induction schedule generalizing present earlier with
  | nil => exact h
  | cons appointment later ih =>
    unfold Ensemble.follow
    split
    next hmember =>
      split
      next => exact ih h
      next after hoccurs => exact ih (h.step (.of_occur hmember hoccurs))
    next => exact ih h

end Ensemble

/-! ## A handover

Server 1 is elected and commits a command together with server 2, which takes over.
-/

namespace Handover

/-- One of two members. -/
def config (self other : ServerId) : Config where
  serverId := self
  peers := [⟨other, "channel"⟩]

/-- Draws that make each timeout the shortest one. -/
def draws : Draws := ⟨fun _ => 0, 0⟩

/-- A member that has just started. -/
def server (self other : ServerId) : Server MemoryStore where
  config := config self other
  role := .follower none
  durable := ⟨0, none, .ofStore {}⟩
  progress := {}
  timer := Countdown.restart
    ⟨(config self other).electionMin, (config self other).electionMax, .zero,
      (config self other).electionMax, draws⟩ .zero
  delivered := {}

/-- Both members, before anything was offered. -/
def start : Ensemble MemoryStore where
  servers id := if id = 1 then server 1 2 else server 2 1
  offered := []

def command : Command := ⟨7, 1, [42]⟩

def schedule : List Appointment := [
  ⟨1, .ofSeconds 1 0, .timer⟩, ⟨1, .ofSeconds 1 0, .duties⟩,
  -- The request for a vote, and the vote.
  ⟨2, .ofSeconds 1 0, .arrival 0⟩, ⟨1, .ofSeconds 1 0, .arrival 1⟩,
  ⟨1, .ofSeconds 1 0, .submission command⟩,
  -- The entry, and what it is answered.
  ⟨2, .ofSeconds 1 0, .arrival 2⟩, ⟨1, .ofSeconds 1 0, .arrival 3⟩,
  -- A heartbeat that tells of the commitment.
  ⟨1, .ofSeconds 2 0, .duties⟩, ⟨2, .ofSeconds 2 0, .arrival 4⟩,
  ⟨2, .ofSeconds 3 0, .timer⟩, ⟨2, .ofSeconds 3 0, .duties⟩,
  ⟨1, .ofSeconds 3 0, .arrival 6⟩, ⟨2, .ofSeconds 3 0, .arrival 7⟩]

/-- The moments of the handover, the latest one first. -/
def moments : List (Ensemble MemoryStore) := Ensemble.follow {1, 2} schedule start []

/-- The moment that so many others come after. -/
def moment (later : Nat) : Ensemble MemoryStore := moments.getD later start

/-- Each of two servers lists the other one. -/
theorem mem_peerIds_config {self other : ServerId} (hne : self ≠ other) (id : ServerId) :
    id ∈ (config self other).peerIds ↔ id ∈ ({self, other} : Finset ServerId) ∧ id ≠ self := by
  simp only [Config.peerIds, config, List.map_cons, List.map_nil, List.mem_singleton,
    Finset.mem_insert, Finset.mem_singleton]
  constructor
  · rintro rfl
    exact ⟨.inr rfl, hne.symm⟩
  · rintro ⟨heither, hother⟩
    exact heither.resolve_left hother

theorem started_start : start.Started {1, 2} where
  ids_fit := by simp [Word.InRange, Word.bound]
  offered_eq := rfl
  started id hid := by
    rcases Finset.mem_insert.mp hid with rfl | hid
    · exact ⟨config 1 2, {}, draws, .zero, rfl, mem_peerIds_config (by decide), trivial, rfl, rfl,
        rfl⟩
    · obtain rfl := Finset.mem_singleton.mp hid
      rw [Finset.pair_comm]
      exact ⟨config 2 1, {}, draws, .zero, rfl, mem_peerIds_config (by decide), trivial, rfl, rfl,
        rfl⟩

/-- The handover is a run. -/
theorem run_moments : Ensemble.Run {1, 2} moments :=
  Ensemble.Run.follow (.start started_start) schedule

theorem moment_mem {later : Nat} (h : later < moments.length) : moment later ∈ moments := by
  unfold moment
  rw [List.getD_eq_getElem _ _ h]
  exact List.getElem_mem h

end Handover

end Consensus
