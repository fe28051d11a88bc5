import Consensus.Proofs.Turn.Calls
import Consensus.Proofs.Turn.Diligence

/-! # Submissions

A submitted command is added to the end of a leader's log, in the leader's term, or nothing
becomes of it. The call tells which: once a command is added, nothing that is left to do
can fail.
-/

namespace Consensus

variable {σ : Type} [Store σ]

namespace Action

/-! ## What cannot fail -/

/-- Whatever turn it is part of, the action succeeds and leaves the durable state and the role
as they are. -/
def Calm (action : Action σ Unit) : Prop :=
  ∀ turn, action.Ends (fun _ last => last.server.durable = turn.server.durable ∧
    last.server.role = turn.server.role) (fun _ => False) turn

/-- Sending an entry is calm. -/
theorem sendAppend_calm (peer : ServerId) : Calm (sendAppend peer : Action σ Unit) := by
  intro turn
  unfold sendAppend
  simp only [ends_bind, ends_server]
  split
  next => exact ⟨rfl, rfl⟩
  next =>
    simp only [ends_bind, ends_modifyProgress, ends_server]
    split
    next => exact ⟨rfl, rfl⟩
    next => exact ⟨rfl, rfl⟩

/-- Raising the commit index is calm. -/
theorem raiseCommit_calm : Calm (raiseCommit : Action σ Unit) := by
  intro turn
  unfold raiseCommit
  simp only [ends_bind, ends_server]
  exact ends_ite (fun _ => ⟨rfl, rfl⟩) (fun _ => ⟨rfl, rfl⟩)

omit [Store σ] in
theorem forM_calm {peers : List ServerId} {body : ServerId → Action σ Unit}
    (hbody : ∀ peer, Calm (body peer)) : Calm (peers.forM body) := by
  intro turn
  apply ends_forM (fun last => last.server.durable = turn.server.durable ∧
    last.server.role = turn.server.role) ?_ ⟨rfl, rfl⟩
  rintro peer _ last ⟨hdurable, hrole⟩
  apply (hbody peer last).mono
  rintro _ next ⟨hnext_durable, hnext_role⟩
  exact ⟨hnext_durable.trans hdurable, hnext_role.trans hrole⟩

omit [Store σ] in
/-- Calm actions are calm one after the other. -/
theorem Calm.then {action next : Action σ Unit} (h : Calm action) (hnext : Calm next) :
    Calm (action >>= fun _ => next) := by
  intro turn
  rw [ends_bind]
  apply (h turn).mono
  rintro _ middle ⟨hdurable, hrole⟩
  apply (hnext middle).mono
  rintro _ last ⟨hlast_durable, hlast_role⟩
  exact ⟨hlast_durable.trans hdurable, hlast_role.trans hrole⟩

/-- What is left to do for a command in the log is to send it and to commit what it completes. -/
theorem offerCommand_calm (before : Server σ) :
    Calm (do
      before.config.peerIds.forM fun peer => do
        let caughtUp := ((← server).progress.cursor? peer).any (·.nextIndex == before.log.size)
        if caughtUp then sendAppend peer
      raiseCommit : Action σ Unit) := by
  refine (forM_calm fun peer turn => ?_).then raiseCommit_calm
  simp only [ends_bind, ends_server]
  exact ends_ite (fun _ => sendAppend_calm peer turn) (fun _ => ⟨rfl, rfl⟩)

end Action

/-! ## What becomes of a command -/

variable [LawfulStore σ]

/-- The later server leads as the earlier one did, with the command added to the log. -/
structure Server.Added (later earlier : Server σ) (command : Command) : Prop where
  leads : earlier.role.isLeader = true
  role_eq : later.role = earlier.role
  term_eq : later.term = earlier.term
  entries_eq : ∃ bytes, command.encode = .ok bytes ∧
    later.log.entries = earlier.log.entries ++ [⟨earlier.term, bytes⟩]

omit [LawfulStore σ] in
/-- What was added stays added while what is durable and the role stay. -/
theorem Server.Added.of_durable {later middle earlier : Server σ} {command : Command}
    (h : middle.Added earlier command) (hdurable : later.durable = middle.durable)
    (hrole : later.role = middle.role) : later.Added earlier command := by
  have hlog : later.log = middle.log := congrArg Durable.log hdurable
  refine ⟨h.leads, hrole.trans h.role_eq, ?_, hlog ▸ h.entries_eq⟩
  exact (congrArg Durable.term hdurable).trans h.term_eq

namespace Action

variable {turn : Turn σ} {command : Command}

/-- A leader that appends a command adds it, or fails and stays as it was. -/
theorem appendCommand_adds (hcoherent : turn.server.Coherent)
    (hleads : turn.server.role.isLeader = true) :
    (appendCommand command).Ends (fun _ last => last.server.Added turn.server command)
      (fun last => last.server = turn.server) turn := by
  unfold appendCommand
  simp only [ends_bind, ends_server]
  split
  next => rfl
  next bytes hencode =>
    rw [ends_bind]
    refine ends_changeDurable (fun durable hchange => ?_) rfl
    obtain ⟨⟨longer, key⟩, hpush, rfl⟩ := map_eq_ok.mp (mapError_eq_ok.mp hchange)
    obtain ⟨extended, hextend, hpair⟩ := map_eq_ok.mp hpush
    obtain rfl : extended = longer := congrArg Prod.fst hpair
    obtain ⟨_, _, hentries, _⟩ := hcoherent.durable.log.extend_ok hextend
    have hadded : Server.Added
        { turn.server with durable := { turn.server.durable with log := extended } }
        turn.server command := ⟨hleads, rfl, rfl, bytes, hencode, hentries⟩
    -- Whatever is sent, the entry is in the log by then.
    apply (offerCommand_calm turn.server _).imp ?_ (fun _ hnever => hnever.elim)
    exact fun _ last hlast => hadded.of_durable hlast.1 hlast.2

/-- A leader that can add the command goes on to apply what is committed, and that succeeds. -/
theorem dispatch_submitted_adds {server : Server σ} {now : Duration}
    (hcoherent : server.Coherent) (hready : server.Ready) :
    (dispatch (.submitted command)).Ends
      (fun _ last => last.server.durable = server.durable ∨ last.server.Added server command)
      (fun last => last.server = server) ⟨server, now, []⟩ := by
  have hquiet : (applyCommitted : Action σ Unit).Ends
      (fun _ last => last.server.durable = server.durable ∨ last.server.Added server command)
      (fun last => last.server = server) ⟨server, now, []⟩ :=
    (applyCommitted_ready hready).imp (fun _ _ hlast => .inl hlast.1.1.durable_eq)
      fun _ hnever => hnever.elim
  unfold dispatch handle roleEvent
  simp only [Event.term?, ends_bind, ends_server]
  split
  next => exact hquiet
  next => exact hquiet
  next nextHeartbeat hrole =>
    have hleads : server.role.isLeader = true := by rw [hrole]; rfl
    have hbegun : Turn.Trace (Call.submit command).intake ⟨server, now, []⟩ ⟨server, now, []⟩ :=
      .start hcoherent
    have htrace := appendCommand_ends hbegun hleads
      fun bytes hencode => ⟨command, rfl, hencode⟩
    unfold leaderEvent
    simp only [ends_bind, ends_server]
    apply (htrace.and (appendCommand_adds hcoherent hleads)).imp ?_ fun _ hlast => hlast.2
    rintro _ middle ⟨hmiddle, hadded⟩
    have hmiddle_ready : middle.server.Ready :=
      hready.moves (Call.intake_legible _) hmiddle.through.ends
    apply (applyCommitted_ready hmiddle_ready).imp ?_ fun _ hnever => hnever.elim
    rintro _ last ⟨⟨happlied, _⟩, _⟩
    exact .inr (hadded.of_durable happlied.durable_eq happlied.role_eq)

end Action

/-- A call that submits a command adds it and tells so, or adds nothing and does not. -/
theorem Server.submit_cases {server : Server σ} (now : Duration) {command : Command}
    (hcoherent : server.Coherent) (hready : server.Ready) :
    ((server.submit now command).server.Added server command ∧
        (server.submit now command).answer = .ok true) ∨
      ((server.submit now command).server.log.entries = server.log.entries ∧
        (server.submit now command).answer ≠ .ok true) := by
  have hends : (do
      Action.dispatch (.submitted command)
      return decide (server.log.size < (← Action.server).log.size) : Action σ Bool).Ends
        (fun answer last => (last.server.Added server command ∧ answer = true) ∨
          (last.server.log.entries = server.log.entries ∧ answer = false))
        (fun last => last.server = server) ⟨server, now, []⟩ := by
    rw [Action.ends_bind]
    apply (Action.dispatch_submitted_adds hcoherent hready).mono
    intro _ last hlast
    simp only [Action.ends_bind, Action.ends_server, Action.ends_pure]
    rcases hlast with hsame | hadded
    · have hlog : last.server.log = server.log := congrArg Durable.log hsame
      rw [hlog]
      exact .inr ⟨rfl, decide_eq_false (Int.lt_irrefl _)⟩
    · refine .inl ⟨hadded, decide_eq_true ?_⟩
      obtain ⟨bytes, _, hentries⟩ := hadded.entries_eq
      have hlength : last.server.log.size = server.log.size + 1 := by
        change (last.server.log.entries.length : Int) = server.log.entries.length + 1
        simp [hentries]
      lia
  refine hends.outcome (fun outcome =>
    (outcome.server.Added server command ∧ outcome.answer = .ok true) ∨
      (outcome.server.log.entries = server.log.entries ∧ outcome.answer ≠ .ok true)) ?_ ?_
  · rintro answer last (⟨hadded, rfl⟩ | ⟨hsame, rfl⟩)
    · exact .inl ⟨hadded, rfl⟩
    · exact .inr ⟨hsame, by simp⟩
  · rintro failure last rfl
    exact .inr ⟨rfl, by simp⟩

end Consensus
