import Consensus.Proofs.Life.Requests

/-! # Faults

A server over a store that takes all its writes or none carries a call out or leaves it. A call
that fails leaves no trace in the durable state, commits and applies nothing, and is not heard of
by anybody.
-/

namespace Consensus

variable {σ : Type} [Store σ] [LawfulStore σ]

/-- The call is one that the server does not carry out, whatever its store does. -/
inductive Call.Excused (server : Server σ) : Call → Prop
  | overlong {call : Call} {command : Command} {cause : Malformed}
      (hleads : server.role.isLeader = true) (hcommand : call.command? = some command)
      (hencode : command.encode = .error cause) : Excused server call
  | exhausted (h : server.Exhausted) : Excused server .perform
  | refused {target : ServerId} {failure : Failure}
      (hrequest : server.transferRequest target = .error failure) :
      Excused server (.transfer target)

namespace Server

variable {server : Server σ} {now : Duration} {call : Call}

omit [LawfulStore σ] in
/-- A leader refuses a command that is too long for the wire. -/
theorem submit_of_overlong (hleads : server.role.isLeader = true) {command : Command}
    {cause : Malformed} (hencode : command.encode = .error cause) :
    (server.submit now command).answer = .error (.malformed cause) := by
  refine Action.FailsWith.answer (.bind (.bind ?_ _) _)
  unfold Action.handle Action.roleEvent
  dsimp only [Event.term?]
  rw [Action.failsWith_server]
  cases hrole : server.role with
  | leader nextHeartbeat =>
    dsimp only
    unfold Action.leaderEvent Action.appendCommand
    rw [Action.failsWith_server]
    refine .bind ?_ _
    rw [Action.failsWith_server, hencode]
    exact ⟨_, rfl⟩
  | _ => simp [hrole, Role.isLeader] at hleads

omit [LawfulStore σ] in
/-- A candidate without a term left fails when it is to open its election. -/
theorem perform_of_exhausted (h : server.Exhausted) :
    (server.perform now).answer = .error (.termExhausted server.term) := by
  obtain ⟨hrole, hterm⟩ := h
  refine Action.FailsWith.answer (.bind ?_ _)
  unfold Action.duties Action.campaign
  rw [Action.failsWith_server, hrole]
  dsimp only
  rw [if_pos rfl, Action.failsWith_setRole]
  refine .bind ?_ _
  unfold Action.startElection
  rw [Action.failsWith_server]
  exact .bind (Action.failsWith_changeDurable (if_pos hterm)) _

omit [LawfulStore σ] in
/-- A server that has an excuse does not put it on its store. -/
theorem answer_ne_storage_of_excused (h : call.Excused server) (cause : StorageFailure) :
    (server.call now call).answer ≠ .error (.storage cause) := by
  cases h with
  | overlong hleads hcommand hencode =>
    rw [call_of_command? now hcommand, submit_of_overlong hleads hencode]
    simp
  | exhausted hexhausted =>
    show (server.perform now).answer.map _ ≠ _
    rw [perform_of_exhausted hexhausted]
    simp [Except.map]
  | @refused target failure hrequest =>
    have hanswer : (server.call now (.transfer target)).answer = .error failure := by
      show (server.transfer target).answer.map _ = _
      unfold transfer
      rw [hrequest]
      rfl
    rw [hanswer]
    rintro ⟨⟩
    unfold transferRequest at hrequest
    split at hrequest
    next => split at hrequest <;> cases hrequest
    next => cases hrequest

/-- A call ends when no command is due any more, unless it halts over a write or is stuck. -/
theorem call_concludes (hcoherent : server.Coherent) (now : Duration) (call : Call) :
    (server.call now call).Ends
      (fun last => Turn.Wrote ⟨server, now, []⟩ last ∧ (server.Diligent → last.server.Diligent))
      (fun last => Turn.Halts (call.Excused server) ⟨server, now, []⟩ last ∨
        last.server.Stuck) := by
  have happly : ∀ worked : Turn σ, Turn.Wrote ⟨server, now, []⟩ worked →
      Action.applyCommitted.Ends
        (fun _ last => Turn.Wrote ⟨server, now, []⟩ last ∧
          (server.Diligent → last.server.Diligent))
        (fun last => Turn.Halts (call.Excused server) ⟨server, now, []⟩ last ∨
          last.server.Stuck) worked := by
    intro worked hworked
    apply (Action.applyCommitted_applies.and Action.applyCommitted_diligent).imp
    · rintro _ last ⟨⟨happlied, _⟩, hdiligent⟩
      exact ⟨hworked.trans (Turn.wrote_of_durable happlied.durable_eq), fun _ => hdiligent⟩
    · exact fun last hlast => .inr hlast.2
  apply call_ends
  · exact ⟨Turn.wrote_of_durable rfl, fun hdiligent => hdiligent⟩
  · intro event hraises
    rw [Action.dispatch_eq, Action.ends_bind]
    apply (Action.react_halts hcoherent call.intake_legible hraises.given).imp
    · exact fun _ worked hworked => happly worked hworked
    · intro last hlast
      refine .inl (hlast.imp ?_)
      rintro ⟨hleads, command, cause, rfl, hencode⟩
      cases hraises with
      | submitted hcommand => exact .overlong hleads hcommand hencode
  · rintro rfl
    unfold Action.perform
    rw [Action.ends_bind]
    apply Action.duties_halts.imp
    · exact fun _ worked hworked => happly worked hworked
    · exact fun last hlast => .inl (hlast.imp .exhausted)
  · exact fun _ _ _ => ⟨Turn.wrote_of_durable rfl, fun hdiligent => hdiligent⟩
  · rintro target failure rfl hrequest
    exact .inl ⟨.refl _, fun _ => rfl, fun _ => ⟨.refused hrequest, rfl⟩⟩

/-- However a call ends, no command is due behind it unless one was due before. -/
theorem call_diligent (hcoherent : server.Coherent) (horderly : server.view.Orderly)
    (hdiligent : server.Diligent) (now : Duration) (call : Call) :
    (server.call now call).server.Diligent := by
  have hends := call_concludes hcoherent now call
  unfold Outcome.Ends at hends
  split at hends
  next =>
    obtain ⟨last, ⟨_, hlast⟩, hserver, _⟩ := hends
    exact hserver ▸ hlast hdiligent
  next =>
    obtain ⟨last, hhalts | hstuck, hserver, _⟩ := hends
    -- What is committed is what it was, and so are the entries up to there.
    · have hkeeps := (call_moves hcoherent now call).keeps horderly not_false
      rw [hserver] at hkeeps ⊢
      exact hdiligent.of_same hhalts.quiet.commitIndex_eq hhalts.quiet.lastApplied_eq
        hkeeps.read?_eq
    · exact hserver ▸ hstuck.diligent

/-- Whatever has become of a server, no command is due while it is not called. -/
theorem Reachable.diligent (h : server.Reachable) : server.Diligent := by
  induction h with
  | start hvalid hstart =>
    obtain ⟨_, _, _, hview⟩ := start_eq_ok hvalid hstart
    have hcommit := congrArg View.commitIndex hview
    have happlied := congrArg View.lastApplied hview
    exact diligent_of_le (Int.le_of_eq (hcommit.trans happlied.symm))
  | call hreachable now call ih =>
    exact call_diligent hreachable.coherent hreachable.orderly ih now call
  | @disturb server _ change _ hentries _ ih =>
    refine ih.of_same rfl rfl fun index _ => ?_
    exact congrArg (fun log => Entries.read? log index) hentries

/-- A server whose log can be applied has applied what it has committed. -/
theorem Reachable.lastApplied_eq (h : server.Reachable)
    (hdecodes : ∀ entry ∈ server.log.entries, Command.Decodes entry.command) :
    server.progress.lastApplied = server.commitIndex :=
  h.diligent.lastApplied_eq ⟨h.orderly, hdecodes⟩

end Server

/-! ## Calls that fail -/

/-- The call has left nothing behind that is durable, committed or applied, and has told nobody. -/
structure Outcome.Void {α : Type} (outcome : Outcome σ α) (server : Server σ) : Prop where
  durable_eq : outcome.server.durable = server.durable
  commitIndex_eq : outcome.server.commitIndex = server.commitIndex
  lastApplied_eq : outcome.server.progress.lastApplied = server.progress.lastApplied
  delivered_eq : outcome.server.delivered = server.delivered
  postings_eq : outcome.postings = []

/-- Whether or not writes to its memory are switched off, a server whose log can be applied leaves
no trace of a call that fails: its term and vote, the log and the store that they are kept in, what
is committed and what is applied are as they were, and no message is sent. -/
theorem Server.failed_call_void {server : Server MemoryStore} (hreachable : server.Reachable)
    (hdecodes : ∀ entry ∈ server.log.entries, Command.Decodes entry.command) (now : Duration)
    (call : Call) {failure : Failure} (hfailed : (server.call now call).answer = .error failure) :
    (server.call now call).Void server := by
  have hready : (server.call now call).server.Ready :=
    Ready.moves ⟨hreachable.orderly, hdecodes⟩ call.intake_legible
      (call_moves hreachable.coherent now call)
  have hends := call_concludes hreachable.coherent now call
  unfold Outcome.Ends at hends
  rw [hfailed] at hends
  obtain ⟨last, hhalts | hstuck, hserver, hpostings⟩ := hends
  · have hdurable : last.server.durable = server.durable := by
      rcases server.log.store.reliable_or_sealed with hreliable | hsealed
      · exact (hhalts.excused hreliable).2
      · exact hhalts.sealed hsealed
    have hquiet := hhalts.quiet
    exact ⟨hserver ▸ hdurable, hserver ▸ hquiet.commitIndex_eq, hserver ▸ hquiet.lastApplied_eq,
      hserver ▸ hquiet.delivered_eq, hpostings.trans hquiet.postings_eq⟩
  · exact absurd (hserver ▸ hstuck) hready.not_stuck

namespace Trio

/-- A leader has committed a command when writes are switched off. -/
def outage : List Incident :=
  campaign ++ [.call (.ofSeconds 1 0) (.submit Handover.command),
    arrival 2 (.appendResponse ⟨1, true, 2, 0⟩), .fault true]

end Trio

/-- A leader whose store takes no more writes fails over the next command and sends it to nobody. -/
theorem Server.failed_call_void_outage :
    (Trio.server.after Trio.outage).Reachable ∧
      (∀ entry ∈ (Trio.server.after Trio.outage).log.entries, Command.Decodes entry.command) ∧
      ((Trio.server.after Trio.outage).call (.ofSeconds 1 0) (.submit Handover.command)).answer =
        .error (.storage .injectedFault) ∧
      (Trio.server.after Trio.outage).progress.lastApplied = 0 ∧
      ((Trio.server.after Trio.outage).call (.ofSeconds 1 0) (.submit Handover.command)).Void
        (Trio.server.after Trio.outage) := by
  have hreachable : (Trio.server.after Trio.outage).Reachable := Trio.reachable_server.after _
  have hdecodes : ∀ entry ∈ (Trio.server.after Trio.outage).log.entries,
      Command.Decodes entry.command := by
    decide +kernel
  have hfailed : ((Trio.server.after Trio.outage).call (.ofSeconds 1 0)
      (.submit Handover.command)).answer = .error (.storage .injectedFault) := by
    decide +kernel
  exact ⟨hreachable, hdecodes, hfailed, by decide +kernel,
    failed_call_void hreachable hdecodes _ _ hfailed⟩

end Consensus
