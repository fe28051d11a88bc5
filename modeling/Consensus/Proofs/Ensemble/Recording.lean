import Consensus.Proofs.Ensemble.Schedule
import Consensus.Proofs.Ensemble.Simulation
import Consensus.Proofs.Turn.Submission

/-! # Recorded runs

A recorded run keeps its moments and, beside them, every submission that was accepted. A
submission counts as accepted when the call that made it says so.
-/

namespace Consensus

/-- A command that was submitted, and the server as it was then. -/
structure Submission (σ : Type) where
  server : Server σ
  command : Command

namespace Submission

variable {σ : Type} [Store σ]

/-- The key that the command is due: the end of the server's log, in the server's term. -/
def key (submission : Submission σ) : LogKey :=
  ⟨submission.server.term, submission.server.log.size⟩

/-- The entry has the submission's key and holds the bytes of its command. -/
def Made (submission : Submission σ) (index : Index) (entry : Entry) : Prop :=
  submission.key = ⟨entry.term, index⟩ ∧ submission.command.encode = .ok entry.command

/-- What state machines are handed when the command is committed at its key. -/
def delivery (submission : Submission σ) : Delivery :=
  ⟨submission.key.index, submission.command⟩

end Submission

namespace Server

variable {σ : Type} [Store σ]

/-- The submission that a call makes, if it answers that the command was added. -/
def accepted (server : Server σ) (now : Duration) (call : Call) : List (Submission σ) :=
  match call.command?, (server.call now call).answer with
  | some command, .ok true => [⟨server, command⟩]
  | _, _ => []

/-- Commands that are added are those of the submissions that are accepted. -/
theorem accepted_cases [LawfulStore σ] {server : Server σ} (now : Duration) {call : Call}
    {command : Command} (hcommand : call.command? = some command) (hcoherent : server.Coherent)
    (hready : server.Ready) :
    (server.accepted now call = [⟨server, command⟩] ∧
        (server.call now call).server.Added server command) ∨
      (server.accepted now call = [] ∧
        (server.call now call).server.log.entries = server.log.entries) := by
  have hcall : server.call now call = server.submit now command := call_of_command? now hcommand
  unfold accepted
  rw [hcommand, hcall]
  rcases submit_cases now hcoherent hready with ⟨hadded, hanswer⟩ | ⟨hsame, hanswer⟩
  · rw [hanswer]
    exact .inl ⟨rfl, hadded⟩
  · refine .inr ⟨?_, hsame⟩
    split
    next htold => exact absurd htold hanswer
    next => rfl

/-- Only the command that a call carries is accepted by it. -/
theorem of_mem_accepted {server : Server σ} {now : Duration} {call : Call}
    {submission : Submission σ} (h : submission ∈ server.accepted now call) :
    submission.server = server ∧ call.command? = some submission.command := by
  unfold accepted at h
  split at h
  next command hcommand _ =>
    rw [List.mem_singleton.mp h]
    exact ⟨rfl, hcommand⟩
  next => cases h

end Server

namespace Ensemble

variable {σ : Type} [Store σ]

/-- What can be asked of a member: frames arrive that were offered, the numbers of a command
fit their words, and a command only comes while there is an index left for it. -/
def Possible (before : Ensemble σ) (id : ServerId) : Call → Prop
  | .receive sender frame => ⟨sender, id, frame⟩ ∈ before.offered
  | .submit command => (before.servers id).log.size < Cursor.maxIndex ∧ command.Fits
  | .receiveCommand _ => (before.servers id).log.size < Cursor.maxIndex
  | .pollTimer => True
  | .perform => True
  | .transfer _ => True

/-- The moments of a run and the submissions that were accepted in it, the latest ones first. -/
inductive Recorded [LawfulStore σ] (members : Finset ServerId) :
    List (Ensemble σ) → List (Submission σ) → Prop where
  | start {ensemble : Ensemble σ} (h : Started members ensemble) : Recorded members [ensemble] []
  | call {before : Ensemble σ} {earlier : List (Ensemble σ)} {accepted : List (Submission σ)}
      {id : ServerId} (now : Duration) (call : Call)
      (h : Recorded members (before :: earlier) accepted) (hmember : id ∈ members)
      (hpossible : before.Possible id call) :
      Recorded members
        (before.settle id ((before.servers id).call now call) :: before :: earlier)
        ((before.servers id).accepted now call ++ accepted)
  /-- Start again from a store that holds what the server had stored. -/
  | restart {before : Ensemble σ} {earlier : List (Ensemble σ)} {accepted : List (Submission σ)}
      {id : ServerId} {store : σ} {server : Server σ} (draws : Draws) (now : Duration)
      (h : Recorded members (before :: earlier) accepted) (hmember : id ∈ members)
      (hvalid : LawfulStore.Valid store)
      (hload : Store.load store = Store.load (before.servers id).log.store)
      (hentries : Store.entries store = (before.servers id).log.entries)
      (hstart : Server.start (before.servers id).config store draws now = .ok server) :
      Recorded members (before.replace id server :: before :: earlier) accepted

variable {members : Finset ServerId} {before : Ensemble σ}

/-- A command that can be submitted fits the wire. -/
theorem fits_of_possible {id : ServerId} {call : Call} {command : Command}
    (hpossible : before.Possible id call) (hcommand : call.command? = some command) :
    command.Fits := by
  cases call with
  | submit other =>
    obtain rfl := Option.some.inj hcommand
    exact hpossible.2
  | receiveCommand frame =>
    exact Command.fits_of_decode (Call.command?_receiveCommand.mp hcommand)
  | _ => cases hcommand

omit [Store σ] in
/-- A server that is left as it is takes its own place. -/
theorem replace_self (before : Ensemble σ) (id : ServerId) :
    before.replace id (before.servers id) = before := by
  simp [replace]

/-- Handing over changes no server and sends one message. -/
theorem settle_transfer {id target : ServerId} {now : Duration} {message : Message}
    (hrequest : (before.servers id).transferRequest target = .ok message) :
    before.settle id ((before.servers id).call now (.transfer target)) =
      before.offer [(target, message)] id := by
  simp [Server.call, Server.transfer, hrequest, Outcome.map, settle, Outcome.messages,
    replace_self]

variable [LawfulStore σ]

/-- A call makes a step, or changes nothing at all. -/
theorem step_of_call {id : ServerId} (now : Duration) {call : Call} (hmember : id ∈ members)
    (hpossible : before.Possible id call) :
    Step members before (before.settle id ((before.servers id).call now call)) ∨
      before.settle id ((before.servers id).call now call) = before := by
  cases call with
  | receive sender frame => exact .inl (.receive now hmember hpossible)
  | submit command => exact .inl (.submit now command hmember hpossible.1)
  | receiveCommand frame => exact .inl (.receiveCommand now frame hmember hpossible)
  | pollTimer => exact .inl (.pollTimer now hmember)
  | perform => exact .inl (.perform now hmember)
  | transfer target =>
    cases hrequest : (before.servers id).transferRequest target with
    | error failure =>
      right
      simp [Server.call, Server.transfer, hrequest, Outcome.map, settle, Outcome.messages,
        replace_self, offer]
    | ok message =>
      rw [settle_transfer hrequest]
      exact .inl (.transfer hmember hrequest)

/-- A call traces the protocol on what was sent to the member. -/
theorem Shown.call_traces {chronicle : Chronicle} {id : ServerId} {call : Call}
    (h : before.Shown members chronicle) (hids : ∀ id ∈ members, Word.InRange 4 id)
    (hmember : id ∈ members) (hpossible : before.Possible id call) (now : Duration) :
    ((before.servers id).call now call).Traces (chronicle.intake id) (before.servers id) := by
  apply Server.call_traces (h.coherent id hmember)
  · rintro sender message hpeer ⟨frame, rfl, hdecode⟩
    exact h.given hids hmember hpossible hpeer hdecode
  · rintro bytes ⟨command, hcommand, _⟩
    cases call with
    | submit => exact hpossible.1
    | receiveCommand => exact hpossible
    | _ => cases hcommand

/-- A recorded run is a run. -/
theorem Recorded.exists_run {latest : Ensemble σ} {earlier : List (Ensemble σ)}
    {accepted : List (Submission σ)} (h : Recorded members (latest :: earlier) accepted) :
    ∃ past, Run members (latest :: past) ∧
      ∀ moment ∈ latest :: earlier, moment ∈ latest :: past := by
  generalize hrun : latest :: earlier = run at h
  induction h generalizing latest earlier with
  | start h =>
    obtain ⟨rfl, rfl⟩ := List.cons.inj hrun
    exact ⟨[], .start h, fun _ hmoment => hmoment⟩
  | call now call _ hmember hpossible ih =>
    obtain ⟨rfl, rfl⟩ := List.cons.inj hrun
    obtain ⟨past, hpast, hmoments⟩ := ih rfl
    rcases step_of_call now hmember hpossible with hstep | hsame
    · refine ⟨_, hpast.step hstep, fun moment hmoment => ?_⟩
      exact List.mem_cons.mpr ((List.mem_cons.mp hmoment).imp_right (hmoments moment))
    -- A call that changed nothing shows no other moment.
    · rw [hsame]
      refine ⟨past, hpast, fun moment hmoment => ?_⟩
      rcases List.mem_cons.mp hmoment with rfl | hold
      · exact List.mem_cons_self
      · exact hmoments moment hold
  | restart draws now _ hmember hvalid hload hentries hstart ih =>
    obtain ⟨rfl, rfl⟩ := List.cons.inj hrun
    obtain ⟨past, hpast, hmoments⟩ := ih rfl
    refine ⟨_, hpast.step (.restart draws now hmember hvalid hload hentries hstart),
      fun moment hmoment => ?_⟩
    exact List.mem_cons.mpr ((List.mem_cons.mp hmoment).imp_right (hmoments moment))

/-- Some chronicle shows the latest moment of a recorded run and has seen all of them. -/
theorem Recorded.exists_shown {latest : Ensemble σ} {earlier : List (Ensemble σ)}
    {accepted : List (Submission σ)} (h : Recorded members (latest :: earlier) accepted) :
    ∃ chronicle, latest.Shown members chronicle ∧ (∀ id ∈ members, Word.InRange 4 id) ∧
      ∀ moment ∈ latest :: earlier, moment.Seen members chronicle := by
  obtain ⟨past, hrun, hmoments⟩ := h.exists_run
  obtain ⟨chronicle, hshown, hseen⟩ := hrun.exists_shown
  exact ⟨chronicle, hshown, hrun.ids_fit,
    fun moment hmoment => hseen moment (hmoments moment hmoment)⟩

/-! ## Schedules -/

omit [LawfulStore σ] in
/-- What occurs to a member is a call that can be made to it. -/
theorem exists_call_of_occur {after : Ensemble σ} {id : ServerId} {now : Duration}
    {occurrence : Occurrence} (hfits : ∀ command, occurrence = .submission command → command.Fits)
    (hoccurs : before.occur id now occurrence = some after) :
    ∃ call, before.Possible id call ∧
      after = before.settle id ((before.servers id).call now call) := by
  cases occurrence with
  | arrival place =>
    simp only [occur] at hoccurs
    split at hoccurs
    next => cases hoccurs
    next parcel hparcel =>
      split at hoccurs
      next hreceiver =>
        cases hoccurs
        subst hreceiver
        exact ⟨.receive parcel.sender parcel.frame, List.mem_of_getElem? hparcel, rfl⟩
      next => cases hoccurs
  | submission command =>
    simp only [occur, Option.ite_none_right_eq_some, Option.some.injEq] at hoccurs
    exact ⟨.submit command, ⟨hoccurs.1, hfits command rfl⟩, hoccurs.2.symm⟩
  | clientFrame frame =>
    simp only [occur, Option.ite_none_right_eq_some, Option.some.injEq] at hoccurs
    exact ⟨.receiveCommand frame, hoccurs.1, hoccurs.2.symm⟩
  | timer => exact ⟨.pollTimer, trivial, (Option.some.inj hoccurs).symm⟩
  | duties => exact ⟨.perform, trivial, (Option.some.inj hoccurs).symm⟩
  | transfer target =>
    simp only [occur] at hoccurs
    split at hoccurs
    next => cases hoccurs
    next message hrequest =>
      exact ⟨.transfer target, trivial,
        (Option.some.inj hoccurs).symm.trans (settle_transfer hrequest).symm⟩

/-- A run that goes on by a schedule can be recorded. -/
theorem Recorded.follow {present : Ensemble σ} {earlier : List (Ensemble σ)}
    {accepted : List (Submission σ)} (h : Recorded members (present :: earlier) accepted)
    (schedule : List Appointment) (hfits : ∀ appointment ∈ schedule, ∀ command,
      appointment.occurrence = .submission command → command.Fits) :
    ∃ more, Recorded members (Ensemble.follow members schedule present earlier) more := by
  induction schedule generalizing present earlier accepted with
  | nil => exact ⟨accepted, h⟩
  | cons appointment later ih =>
    have hlater := fun other hother => hfits other (List.mem_cons_of_mem _ hother)
    unfold Ensemble.follow
    split
    next hmember =>
      split
      next => exact ih h hlater
      next after hoccurs =>
        obtain ⟨call, hpossible, rfl⟩ :=
          exists_call_of_occur (hfits appointment List.mem_cons_self) hoccurs
        exact ih (h.call _ call hmember hpossible) hlater
    next => exact ih h hlater

end Ensemble

end Consensus
