import Consensus.Proofs.Life.Requests
import Consensus.Proofs.Turn.Abreast

/-! # Renewal by a newer term

A message of a newer term leaves nothing of what a server was. Two servers that have come to the
same log by whatever ways handle it alike, and so does a follower that is new in that term.
-/

namespace Consensus

variable {σ : Type} [Store σ]

namespace Server

/-- The servers have the same configuration and log, and have committed and applied as much of
it. They may differ in all else. -/
structure SharesLog (one other : Server σ) : Prop where
  config_eq : one.config = other.config
  entries_eq : one.log.entries = other.log.entries
  commitIndex_eq : one.commitIndex = other.commitIndex
  lastApplied_eq : one.progress.lastApplied = other.progress.lastApplied

/-- The server follows in a term as one that is new to it: it has given no vote and heard of no
leader. Its log is the past server's, and so is what it has committed and applied of that. -/
structure Afresh [LawfulStore σ] (fresh past : Server σ) (term : Term) : Prop where
  role_eq : fresh.role = .follower none
  renewed : fresh.Renewed term
  votedFor_eq : fresh.votedFor = none
  shares : past.SharesLog fresh
  delivered_eq : past.delivered = fresh.delivered
  coherent : fresh.log.Coherent
  reliable : Store.Reliable fresh.log.store

variable {one other : Server σ}

theorem SharesLog.refl (server : Server σ) : server.SharesLog server := ⟨rfl, rfl, rfl, rfl⟩

/-- What has come to the same log has handed out the same commands. -/
theorem SharesLog.delivered_eq [LawfulStore σ] (h : one.SharesLog other) (hone : one.Reachable)
    (hother : other.Reachable) : one.delivered = other.delivered :=
  congrArg Deliveries.mk
    (hone.orderly.deliveries_eq hother.orderly h.entries_eq h.lastApplied_eq)

/-- Of pasts with the same log nothing tells servers apart that are new to a term. -/
theorem Afresh.abreast [LawfulStore σ] {fresh also : Server σ} {term : Term} {now later : Duration}
    (h : fresh.Afresh one term) (halso : also.Afresh other term) (hshares : one.SharesLog other)
    (hdelivered : one.delivered = other.delivered) :
    Turn.Abreast term ⟨fresh, now, []⟩ ⟨also, later, []⟩ := by
  have hentries : fresh.log.entries = also.log.entries := by
    rw [← h.shares.entries_eq, hshares.entries_eq, halso.shares.entries_eq]
  have halike : fresh.Alike also := {
    config_eq := by rw [← h.shares.config_eq, hshares.config_eq, halso.shares.config_eq]
    role_eq := h.role_eq.trans halso.role_eq.symm
    term_eq := h.renewed.term_eq.trans halso.renewed.term_eq.symm
    votedFor_eq := h.votedFor_eq.trans halso.votedFor_eq.symm
    entries_eq := hentries
    commitIndex_eq := by
      rw [← h.shares.commitIndex_eq, hshares.commitIndex_eq, halso.shares.commitIndex_eq]
    lastApplied_eq := by
      rw [← h.shares.lastApplied_eq, hshares.lastApplied_eq, halso.shares.lastApplied_eq]
    cursors_eq := h.renewed.cursors_eq.trans halso.renewed.cursors_eq.symm
    voters_eq := h.renewed.voters_eq.trans halso.renewed.voters_eq.symm
    delivered_eq := by rw [← h.delivered_eq, hdelivered, halso.delivered_eq] }
  exact ⟨halike, h.renewed, ⟨hentries, ⟨h.coherent, halso.coherent⟩, ⟨h.reliable, halso.reliable⟩⟩,
    rfl⟩

end Server

/-- Both calls leave servers that are alike, which know one leader and count as many votes. They
send the same messages and give one answer. -/
structure Outcome.Alike {α : Type} (one other : Outcome σ α) : Prop where
  server : one.server.Alike other.server
  knownLeader_eq : one.server.knownLeader = other.server.knownLeader
  voteCount_eq : one.server.voteCount = other.server.voteCount
  messages_eq : one.messages = other.messages
  answer_eq : one.answer = other.answer

/-- Turns that end abreast leave outcomes that are alike. -/
theorem Turn.Abreast.outcome_alike [LawfulStore σ] {α : Type} {term : Term} {one other : Turn σ}
    (h : Abreast term one other) {answer also : Except Failure α} (hanswer : answer = also) :
    Outcome.Alike ⟨one.server, one.postings, answer⟩ ⟨other.server, other.postings, also⟩ :=
  ⟨h.alike, h.alike.knownLeader_eq, h.alike.voteCount_eq, h.messages_eq, hanswer⟩

namespace Action

variable {turn : Turn σ} {sender : ServerId} {message : Message}

/-- What is done with an event by a server that is a follower of its term. -/
def settle (event : Event) : Action σ Unit := do
  let change ← handle event
  enter change
  applyCommitted

/-- Whatever a server has been, it settles a message of a newer term as a follower of that
term. -/
theorem dispatch_of_newer (hnewer : turn.server.term < message.term) {moved : Durable σ}
    (hmoved : turn.server.durable.moveTo message.term = .ok moved) :
    (dispatch (.received sender message)).run turn =
      (settle (.received sender message)).run { turn with
        server := ({ turn.server with durable := moved } : Server σ).stepDown turn.now } := by
  have hhandle : (handle (.received sender message)).Ends
      (fun change last => change = .follow ∧
        last = { turn with server := { turn.server with durable := moved } })
      (fun _ => False) turn := by
    apply ends_handle_of_newer hnewer
    · intro durable hmove
      obtain rfl := Except.ok.inj (hmoved.symm.trans hmove)
      exact ⟨rfl, rfl⟩
    · exact fun _ hfailed => nomatch hmoved.symm.trans hfailed
  unfold Ends at hhandle
  unfold dispatch settle
  rw [EStateM.run_bind]
  cases hrun : (handle (.received sender message)).run turn with
  | error failure last =>
    rw [hrun] at hhandle
    exact hhandle.elim
  | ok change last =>
    rw [hrun] at hhandle
    obtain ⟨rfl, rfl⟩ := hhandle
    rfl

/-- Actions that end beside each other have outcomes that are alike. -/
theorem EndBeside.turn_alike [LawfulStore σ] {α : Type} {one other : Action σ α} {term : Term}
    {server also : Server σ} {now later : Duration}
    (h : EndBeside term one other (Together term) ⟨server, now, []⟩ ⟨also, later, []⟩) :
    (server.turn now one).Alike (also.turn later other) ∧
      (server.turn now one).server.Renewed term := by
  unfold EndBeside at h
  unfold Server.turn
  cases hone : one.run ⟨server, now, []⟩ with
  | ok answer last =>
    cases hother : other.run ⟨also, later, []⟩ with
    | ok answer' last' =>
      rw [hone, hother] at h
      obtain ⟨rfl, hlast⟩ := h
      exact ⟨hlast.outcome_alike rfl, hlast.renewed⟩
    | error cause last' =>
      rw [hone, hother] at h
      exact h.elim
  | error failure last =>
    cases hother : other.run ⟨also, later, []⟩ with
    | ok answer' last' =>
      rw [hone, hother] at h
      exact h.elim
    | error cause last' =>
      rw [hone, hother] at h
      obtain ⟨rfl, hlast⟩ := h
      exact ⟨hlast.outcome_alike rfl, hlast.renewed⟩

end Action

namespace Server

variable [LawfulStore σ] {one other server : Server σ} {sender : ServerId} {frame : Bytes}
variable {message : Message}

/-- A message of a newer term is settled by a server that is new to the term. -/
theorem exists_afresh (hcoherent : server.Coherent)
    (hreliable : Store.Reliable server.log.store) (now : Duration)
    (hpeer : server.config.isPeer sender = true) (hdecode : Message.decode frame = .ok message)
    (hnewer : server.term < message.term) :
    ∃ fresh : Server σ, fresh.Afresh server message.term ∧
      server.receive now sender frame =
        fresh.turn now (Action.settle (.received sender message)) := by
  obtain ⟨moved, hmoved, hmoved_reliable⟩ := Durable.exists_moveTo hreliable message.term
  obtain ⟨hmoved_coherent, hterm, hvote, hentries⟩ :=
    hcoherent.durable.moveTo_ok hnewer hmoved
  have hfresh : (({ server with durable := moved } : Server σ).stepDown now).Afresh server
      message.term :=
    ⟨rfl, ⟨hterm, rfl, rfl⟩, hvote, ⟨rfl, hentries.symm, rfl, rfl⟩, rfl, hmoved_coherent.log,
      hmoved_reliable⟩
  refine ⟨_, hfresh, ?_⟩
  rw [receive_eq_turn hpeer hdecode]
  unfold turn
  rw [Action.dispatch_of_newer hnewer hmoved]

/-- A message of a newer term erases the past of a server. Two servers that have come to the same
log by whatever ways handle it alike while no write fails: they end in its term with the same
role, vote, log and commands applied, with no votes and no cursors, and send the same messages.
They end as a server does that was new to the term. -/
theorem newer_term_erases_past (hone : one.Reachable) (hother : other.Reachable)
    (hshares : one.SharesLog other) (hreliable : Store.Reliable one.log.store)
    (hreliable_other : Store.Reliable other.log.store)
    (hpeer : one.config.isPeer sender = true) (hdecode : Message.decode frame = .ok message)
    (hnewer : one.term < message.term) (hnewer_other : other.term < message.term)
    (now later : Duration) :
    (one.receive now sender frame).Alike (other.receive later sender frame) ∧
      (one.receive now sender frame).server.Renewed message.term ∧
      ∀ fresh : Server σ, fresh.Afresh one message.term → ∀ since : Duration,
        (one.receive now sender frame).Alike (fresh.receive since sender frame) := by
  have hcarried := Message.carried_of_decode hdecode
  have hpeer_other : other.config.isPeer sender = true := hshares.config_eq ▸ hpeer
  obtain ⟨first, hfirst, hone_turn⟩ :=
    exists_afresh hone.coherent hreliable now hpeer hdecode hnewer
  obtain ⟨second, hsecond, hother_turn⟩ :=
    exists_afresh hother.coherent hreliable_other later hpeer_other hdecode hnewer_other
  rw [hone_turn, hother_turn]
  have hboth : Turn.Abreast message.term ⟨first, now, []⟩ ⟨second, later, []⟩ :=
    hfirst.abreast hsecond hshares (hshares.delivered_eq hone hother)
  obtain ⟨halike, hrenewed⟩ := Action.EndBeside.turn_alike
    (Action.settle_together (fun _ _ => rfl) (fun _ _ => rfl) hboth hfirst.role_eq sender
      (Int.le_refl _) hcarried)
  refine ⟨halike, hrenewed, fun fresh hfresh since => ?_⟩
  have hdispatch : fresh.receive since sender frame =
      fresh.turn since (Action.dispatch (.received sender message)) := by
    rw [receive, if_pos (hfresh.shares.config_eq ▸ hpeer), hdecode]
  rw [hdispatch]
  have hnew : Turn.Abreast message.term ⟨first, now, []⟩ ⟨fresh, since, []⟩ :=
    hfirst.abreast hfresh (.refl one) rfl
  -- A server that follows already looks at the event once.
  refine (Action.EndBeside.turn_alike (Action.settle_together (fun _ _ => rfl) ?_ hnew
    hfirst.role_eq sender (Int.le_refl _) hcarried)).1
  intro change hchange
  exact if_neg hchange

end Server

namespace Trio

/-- Server 2 asks for a vote in term 2. -/
def summons : Message := .voteRequest ⟨2, 2, .null⟩

/-- A server of the trio that is new to term 2. -/
def newcomer : Server MemoryStore :=
  { server with durable := { server.durable with term := 2 } }

end Trio

/-- A leader of term 1 and a server that has not heard of anybody give their votes alike. -/
theorem Server.newer_term_erases_past_summons :
    (Trio.server.after Trio.campaign).role.isLeader = true ∧
      Trio.server.role = .follower none ∧
      ((Trio.server.after Trio.campaign).receive (.ofSeconds 1 0) 2 Trio.summons.encode).Alike
        (Trio.server.receive .zero 2 Trio.summons.encode) ∧
      ((Trio.server.after Trio.campaign).receive (.ofSeconds 1 0) 2
        Trio.summons.encode).server.Renewed 2 ∧
      ((Trio.server.after Trio.campaign).receive (.ofSeconds 1 0) 2 Trio.summons.encode).Alike
        (Trio.newcomer.receive .zero 2 Trio.summons.encode) := by
  have hreachable : (Trio.server.after Trio.campaign).Reachable := Trio.reachable_server.after _
  have hshares : (Trio.server.after Trio.campaign).SharesLog Trio.server := by
    constructor <;> decide +kernel
  have hdecode : Message.decode Trio.summons.encode = .ok Trio.summons := by
    decide +kernel
  have hreliable : Store.Reliable (Trio.server.after Trio.campaign).log.store :=
    MemoryStore.reliable (by decide +kernel)
  have hpeer : (Trio.server.after Trio.campaign).config.isPeer 2 = true := by
    decide +kernel
  obtain ⟨halike, hrenewed, hfresh⟩ := newer_term_erases_past hreachable Trio.reachable_server
    hshares hreliable (MemoryStore.reliable rfl) hpeer hdecode (by decide +kernel)
    (by decide +kernel) (.ofSeconds 1 0) .zero
  refine ⟨by decide +kernel, rfl, halike, hrenewed, hfresh Trio.newcomer ?_ .zero⟩
  exact ⟨rfl, ⟨rfl, rfl, rfl⟩, rfl, { hshares with }, by decide +kernel,
    Trio.reachable_server.coherent.durable.log, MemoryStore.reliable rfl⟩

end Consensus
