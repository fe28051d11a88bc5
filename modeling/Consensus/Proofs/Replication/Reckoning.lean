import Consensus.Proofs.Replication.Tenure

/-! # What a call makes of a leader

In one call a leader goes on, or it steps down. One that goes on changes what it knows of its
followers or what its log holds once at most, and then looks for what it can commit by that. One
that steps down has granted its vote to another of its term, or is in a newer one.
-/

namespace Consensus

variable {σ : Type} [Store σ]

/-- The message brings a candidate a vote. -/
def Message.GrantsVote (message : Message) : Prop := ∃ term, message = .voteResponse ⟨term, true⟩

theorem Message.not_grantsVote_of_kind {message : Message} (hkind : message.kind ≠ .voteResponse) :
    ¬ message.GrantsVote := by
  rintro ⟨term, rfl⟩
  exact hkind rfl

/-- The messages that a call brings, each on the channel of its sender. -/
abbrev Hearing := ServerId → Message → Prop

namespace Server

/-! ## Books -/

/-- Nothing has changed that a leader keeps books of. -/
structure Retains (earlier later : Server σ) : Prop where
  config_eq : later.config = earlier.config
  leads_eq : later.role.isLeader = earlier.role.isLeader
  term_eq : later.term = earlier.term
  votedFor_eq : later.votedFor = earlier.votedFor
  entries_eq : later.log.entries = earlier.log.entries
  matched_eq : later.progress.cursors.matched = earlier.progress.cursors.matched
  commitIndex_eq : later.commitIndex = earlier.commitIndex

/-- What is known of the followers was known before, or is what they have reported in the
leader's term. -/
def Reports (heard : Hearing) (earlier later : Server σ) : Prop :=
  ∀ follower ∈ later.progress.cursors.matched, follower ∈ earlier.progress.cursors.matched ∨
    ∃ sender response, heard sender (.appendResponse response) ∧
      response.term = earlier.term ∧ response.successful = true ∧
      response.serverId = follower.1 ∧ follower.2 ≤ response.matchLogIndex

/-- What a majority holds goes beyond what is committed, up to an entry of the server's term. -/
def Exceeds (server : Server σ) (committed : Index) : Prop :=
  committed < server.majorityMatch ∧
    server.log.termAt? server.majorityMatch = some server.term

/-- The commit index is what follows from a former one and from what a majority holds. -/
def Reckons (server : Server σ) (committed : Index) : Prop :=
  (server.Exceeds committed ∧ server.commitIndex = server.majorityMatch) ∨
    (¬ server.Exceeds committed ∧ server.commitIndex = committed)

/-- The server goes on as a leader. Its commit index is looked at anew when its books have
changed. -/
structure GoesOn (heard : Hearing) (earlier later : Server σ) : Prop where
  leads : later.role.isLeader = true
  config_eq : later.config = earlier.config
  term_eq : later.term = earlier.term
  votedFor_eq : later.votedFor = earlier.votedFor
  reports : earlier.Reports heard later
  reckoned : earlier.Retains later ∨ later.Reckons earlier.commitIndex

/-- The server leads on with books that may have changed. It has yet to look at its commit
index. -/
structure Revises (heard : Hearing) (earlier later : Server σ) : Prop where
  leads : later.role.isLeader = true
  config_eq : later.config = earlier.config
  term_eq : later.term = earlier.term
  votedFor_eq : later.votedFor = earlier.votedFor
  reports : earlier.Reports heard later
  commitIndex_eq : later.commitIndex = earlier.commitIndex

variable {earlier middle later server : Server σ} {heard : Hearing}

theorem Retains.refl (server : Server σ) : server.Retains server :=
  ⟨rfl, rfl, rfl, rfl, rfl, rfl, rfl⟩

/-- Books that are retained twice are retained. -/
theorem Retains.trans (h : earlier.Retains middle) (hnext : middle.Retains later) :
    earlier.Retains later :=
  ⟨hnext.config_eq.trans h.config_eq, hnext.leads_eq.trans h.leads_eq,
    hnext.term_eq.trans h.term_eq, hnext.votedFor_eq.trans h.votedFor_eq,
    hnext.entries_eq.trans h.entries_eq, hnext.matched_eq.trans h.matched_eq,
    hnext.commitIndex_eq.trans h.commitIndex_eq⟩

theorem Retains.matchIndices_eq (h : earlier.Retains later) :
    later.progress.cursors.map Cursor.matchIndex =
      earlier.progress.cursors.map Cursor.matchIndex := by
  simpa [Cursors.matched, Function.comp_def] using congrArg (List.map Prod.snd) h.matched_eq

theorem Retains.lastIndex_eq (h : earlier.Retains later) :
    later.log.lastIndex = earlier.log.lastIndex :=
  congrArg (fun entries : List Entry => (entries.length : Int) - 1) h.entries_eq

/-- A majority holds as much while the books stay as they are. -/
theorem Retains.majorityMatch_eq (h : earlier.Retains later) :
    later.majorityMatch = earlier.majorityMatch := by
  unfold majorityMatch Cursors.majorityMatch Cursors.holdings
  rw [h.matchIndices_eq, h.lastIndex_eq, h.config_eq]

theorem Reckons.retains {committed : Index} (h : middle.Reckons committed)
    (hnext : middle.Retains later) : later.Reckons committed := by
  unfold Reckons Exceeds at h ⊢
  rw [Log.termAt?_eq] at h ⊢
  rw [hnext.commitIndex_eq, hnext.majorityMatch_eq, hnext.term_eq, hnext.entries_eq]
  exact h

/-- A leader that keeps its books as they are goes on. -/
theorem Retains.goesOn (h : earlier.Retains later) (hleads : earlier.role.isLeader = true) :
    earlier.GoesOn heard later :=
  ⟨h.leads_eq.trans hleads, h.config_eq, h.term_eq, h.votedFor_eq,
    fun _ hfollower => .inl (h.matched_eq ▸ hfollower), .inl h⟩

theorem Revises.retains (h : earlier.Revises heard middle) (hnext : middle.Retains later) :
    earlier.Revises heard later :=
  ⟨hnext.leads_eq.trans h.leads, hnext.config_eq.trans h.config_eq,
    hnext.term_eq.trans h.term_eq, hnext.votedFor_eq.trans h.votedFor_eq,
    fun follower hfollower => h.reports follower (hnext.matched_eq ▸ hfollower),
    hnext.commitIndex_eq.trans h.commitIndex_eq⟩

/-- A leader that goes on may then keep its books as they are. -/
theorem GoesOn.retains (h : earlier.GoesOn heard middle) (hnext : middle.Retains later) :
    earlier.GoesOn heard later := by
  refine ⟨hnext.leads_eq.trans h.leads, hnext.config_eq.trans h.config_eq,
    hnext.term_eq.trans h.term_eq, hnext.votedFor_eq.trans h.votedFor_eq,
    fun follower hfollower => h.reports follower (hnext.matched_eq ▸ hfollower), ?_⟩
  rcases h.reckoned with hretains | hreckons
  · exact .inl (hretains.trans hnext)
  · exact .inr (hreckons.retains hnext)

end Server

/-! ## Turns -/

namespace Turn

/-- The turn has come from `first` to `last` with its books as they were, and without a vote. -/
structure Retains (first last : Turn σ) : Prop where
  server : first.server.Retains last.server
  quiet : ∀ posting ∈ last.postings, posting ∈ first.postings ∨ ¬ posting.message.GrantsVote

/-- The turn has come from `first` to `last` in one leadership, and without a vote. -/
structure GoesOn (heard : Hearing) (first last : Turn σ) : Prop where
  server : first.server.GoesOn heard last.server
  quiet : ∀ posting ∈ last.postings, posting ∈ first.postings ∨ ¬ posting.message.GrantsVote

variable {first middle last : Turn σ} {heard : Hearing}

theorem Retains.refl (turn : Turn σ) : turn.Retains turn :=
  ⟨.refl _, fun _ hposting => .inl hposting⟩

theorem Retains.trans (h : first.Retains middle) (hnext : middle.Retains last) :
    first.Retains last :=
  ⟨h.server.trans hnext.server, fun posting hposting =>
    (hnext.quiet posting hposting).elim (h.quiet posting) .inr⟩

theorem Retains.step (h : first.Retains middle) {server : Server σ}
    (hserver : middle.server.Retains server) : first.Retains { middle with server } :=
  ⟨h.server.trans hserver, h.quiet⟩

/-- A message that grants no vote may be posted. -/
theorem Retains.post (h : first.Retains middle) (receiver : ServerId) {message : Message}
    (hmessage : ¬ message.GrantsVote) :
    first.Retains { middle with
      postings := middle.postings ++ [⟨receiver, message, middle.server⟩] } := by
  refine ⟨h.server, fun posting hposting => ?_⟩
  rcases List.mem_append.mp hposting with hold | hnew
  · exact h.quiet posting hold
  · rw [List.mem_singleton.mp hnew]
    exact .inr hmessage

theorem Retains.goesOn (h : first.Retains last) (hleads : first.server.role.isLeader = true) :
    first.GoesOn heard last :=
  ⟨h.server.goesOn hleads, h.quiet⟩

theorem GoesOn.retains (h : first.GoesOn heard middle) (hnext : middle.Retains last) :
    first.GoesOn heard last :=
  ⟨h.server.retains hnext.server, fun posting hposting =>
    (hnext.quiet posting hposting).elim (h.quiet posting) .inr⟩

end Turn

namespace Action

variable {first turn : Turn σ} {heard : Hearing}

/-- Whatever turn it is part of, the action succeeds and leaves the books as they are. -/
def Retaining {α : Type} (action : Action σ α) : Prop :=
  ∀ turn, action.Ends (fun _ last => turn.Retains last) (fun _ => False) turn

theorem not_grantsVote_refuse (term : Term) :
    ¬ (Message.voteResponse ⟨term, false⟩).GrantsVote := by
  rintro ⟨_, hmessage⟩
  cases hmessage

/-- Sending an entry changes no books. -/
theorem sendAppend_retaining (peer : ServerId) : Retaining (sendAppend peer : Action σ Unit) := by
  intro turn
  have hstart := Turn.Retains.refl turn
  unfold sendAppend
  simp only [ends_bind, ends_server]
  split
  next => exact hstart
  next cursor _ =>
    simp only [ends_bind, ends_modifyProgress, ends_server]
    have hmoved : turn.server.Retains { turn.server with
        progress := turn.server.progress.updateCursor peer
          ({ · with nextIndex := min cursor.nextIndex turn.server.log.size }) } :=
      ⟨rfl, rfl, rfl, rfl, rfl, Cursors.matched_update _ _ (fun _ => rfl) fun _ => rfl, rfl⟩
    split
    next => exact hstart.step hmoved
    next =>
      exact (hstart.step hmoved).post peer
        (Message.not_grantsVote_of_kind MessageKind.noConfusion)

omit [Store σ] in
theorem forM_retaining [Store σ] {peers : List ServerId} {body : ServerId → Action σ Unit}
    (hbody : ∀ peer, Retaining (body peer)) : Retaining (peers.forM body) := by
  intro turn
  apply ends_forM (fun last => turn.Retains last) ?_ (.refl turn)
  intro peer _ last hlast
  exact (hbody peer last).mono fun _ _ hnext => hlast.trans hnext

theorem refuseAppend_retaining (receiver : ServerId) :
    Retaining (refuseAppend receiver : Action σ Unit) :=
  fun turn => (Turn.Retains.refl turn).post receiver
    (Message.not_grantsVote_of_kind MessageKind.noConfusion)

/-- Counting a vote changes no books of a leader. -/
theorem countVote_retaining (sender : ServerId) (response : VoteResponse) :
    Retaining (countVote sender response : Action σ Bool) := by
  intro turn
  apply ends_countVote
  · intro _ _ _
    exact (Turn.Retains.refl turn).step ⟨rfl, rfl, rfl, rfl, rfl, rfl, rfl⟩
  · exact .refl turn

theorem Applies.retains {last : Turn σ} (h : Applies turn last) : turn.Retains last := by
  refine ⟨⟨h.1.config_eq, congrArg Role.isLeader h.1.role_eq,
    congrArg Durable.term h.1.durable_eq, congrArg Durable.votedFor h.1.durable_eq,
    congrArg (fun durable => durable.log.entries) h.1.durable_eq,
    congrArg Cursors.matched h.1.cursors_eq, h.1.commitIndex_eq⟩, fun posting hposting => ?_⟩
  exact .inl (h.2 ▸ hposting)

/-- Applying what is committed changes no books. -/
theorem applyCommitted_retains :
    (applyCommitted : Action σ Unit).Ends (fun _ last => turn.Retains last)
      (fun last => turn.Retains last) turn :=
  applyCommitted_applies.imp (fun _ _ hlast => hlast.retains) fun _ hlast => hlast.1.retains

/-- Heartbeats change no books. -/
theorem sendHeartbeats_retains (nextHeartbeat : Duration)
    (hleads : turn.server.role.isLeader = true) :
    (sendHeartbeats nextHeartbeat).Ends (fun _ last => turn.Retains last) (fun _ => False)
      turn := by
  unfold sendHeartbeats
  simp only [ends_bind, ends_now]
  apply ends_ite
  · intro _
    simp only [ends_bind, ends_server, ends_setRole]
    have hrole : turn.server.Retains { turn.server with
        role := .leader (turn.now + turn.server.config.heartbeat) } :=
      ⟨rfl, hleads.symm, rfl, rfl, rfl, rfl, rfl⟩
    have hset := (Turn.Retains.refl turn).step hrole
    exact (forM_retaining sendAppend_retaining _).mono fun _ _ hlast => hset.trans hlast
  · exact fun _ => .refl turn

/-! ## Reckoning -/

/-- What has changed in the books is reckoned with. -/
theorem raiseCommit_goesOn (h : first.server.Revises heard turn.server) :
    (raiseCommit : Action σ Unit).Ends
      (fun _ last => first.server.GoesOn heard last.server ∧ last.postings = turn.postings)
      (fun _ => False) turn := by
  have hgoes (server : Server σ) (hleads : server.role.isLeader = true)
      (hconfig : server.config = turn.server.config)
      (hdurable : server.durable = turn.server.durable)
      (hcursors : server.progress.cursors = turn.server.progress.cursors)
      (hreckons : server.Reckons first.server.commitIndex) : first.server.GoesOn heard server :=
    ⟨hleads, hconfig.trans h.config_eq, (congrArg Durable.term hdurable).trans h.term_eq,
      (congrArg Durable.votedFor hdurable).trans h.votedFor_eq,
      fun follower hfollower => h.reports follower (hcursors ▸ hfollower), .inr hreckons⟩
  unfold raiseCommit
  simp only [ends_bind, ends_server]
  apply ends_ite
  · rintro ⟨hhigher, hterm⟩
    rw [ends_modifyProgress]
    have hraised : turn.server.progress.raiseCommit turn.server.majorityMatch =
        { turn.server.progress with commitIndex := turn.server.majorityMatch } :=
      if_pos hhigher
    rw [hraised]
    exact ⟨hgoes _ h.leads rfl rfl rfl (.inl ⟨⟨h.commitIndex_eq ▸ hhigher, hterm⟩, rfl⟩), rfl⟩
  · intro hstays
    exact ⟨hgoes _ h.leads rfl rfl rfl (.inr ⟨h.commitIndex_eq ▸ hstays, h.commitIndex_eq⟩), rfl⟩

/-- A leader adds a command to its log and reckons with it, or does nothing. -/
theorem appendCommand_goesOn (command : Command) (hleads : turn.server.role.isLeader = true) :
    (appendCommand command).Ends (fun _ last => turn.GoesOn heard last)
      (turn.GoesOn heard) turn := by
  have hstart : turn.GoesOn heard turn := (Turn.Retains.refl turn).goesOn hleads
  unfold appendCommand
  simp only [ends_bind, ends_server]
  split
  next => exact hstart
  next bytes _ =>
    rw [ends_bind]
    refine ends_changeDurable (fun durable hchange => ?_) hstart
    obtain ⟨⟨longer, key⟩, _, rfl⟩ := map_eq_ok.mp (mapError_eq_ok.mp hchange)
    have hadded : turn.server.Revises heard { turn.server with
        durable := { turn.server.durable with log := longer } } :=
      ⟨hleads, rfl, rfl, rfl, fun _ hfollower => .inl hfollower, rfl⟩
    rw [ends_bind]
    refine (forM_retaining ?_ _).imp ?_ fun _ hnever => hnever.elim
    · intro peer middle
      simp only [ends_bind, ends_server]
      exact ends_ite (fun _ => sendAppend_retaining peer middle) (fun _ => .refl middle)
    · intro _ middle hmiddle
      apply (raiseCommit_goesOn (hadded.retains hmiddle.server)).imp ?_ fun _ hnever => hnever.elim
      rintro _ last ⟨hlast, hpostings⟩
      exact ⟨hlast, fun posting hposting => hmiddle.quiet posting (hpostings ▸ hposting)⟩

/-- The cursor of a follower that has reported advances, and the leader reckons with it. -/
theorem followerMatched_goesOn {response : AppendResponse} {cursor : Cursor}
    (hleads : turn.server.role.isLeader = true) {sender : ServerId}
    (hheard : heard sender (.appendResponse response))
    (hterm : response.term = turn.server.term) (hsuccessful : response.successful = true)
    (hcursor : turn.server.progress.cursor? response.serverId = some cursor) :
    (followerMatched response.serverId cursor response.matchLogIndex).Ends
      (fun _ last => turn.GoesOn heard last) (turn.GoesOn heard) turn := by
  obtain ⟨hmember, hserver⟩ := Cursors.mem_of_find? hcursor
  have hreports : turn.server.Reports heard { turn.server with
      progress := turn.server.progress.updateCursor response.serverId fun _ =>
        cursor.advance (min response.matchLogIndex turn.server.log.lastIndex) } := by
    intro follower hfollower
    rcases Cursors.mem_matched_update hfollower with hold | rfl
    · exact .inl hold
    · rcases cursor.matchIndex_advance (min response.matchLogIndex turn.server.log.lastIndex) with
        hsame | hmoved
      · rw [hsame, cursor.serverId_advance]
        exact .inl (List.mem_map_of_mem hmember)
      · refine .inr ⟨sender, response, hheard, hterm, hsuccessful, ?_, ?_⟩
        · rw [cursor.serverId_advance, hserver]
        · rw [hmoved]
          exact Int.min_le_left _ _
  unfold followerMatched
  simp only [ends_bind, ends_server, ends_modifyProgress]
  have hrevised : turn.server.Revises heard { turn.server with
      progress := turn.server.progress.updateCursor response.serverId fun _ =>
        cursor.advance (min response.matchLogIndex turn.server.log.lastIndex) } :=
    ⟨hleads, rfl, rfl, rfl, hreports, rfl⟩
  apply (raiseCommit_goesOn hrevised).imp ?_ fun _ hnever => hnever.elim
  rintro _ middle ⟨hmiddle, hpostings⟩
  have hgoes : turn.GoesOn heard middle :=
    ⟨hmiddle, fun posting hposting => .inl (hpostings ▸ hposting)⟩
  apply ends_ite
  · intro _
    exact (sendAppend_retaining _ middle).imp (fun _ _ hlast => hgoes.retains hlast)
      fun _ hnever => hnever.elim
  · exact fun _ => hgoes

/-- A leader that takes a response of its term goes on by what it has heard. -/
theorem takeAppendResponse_goesOn {response : AppendResponse}
    (hleads : turn.server.role.isLeader = true) {sender : ServerId}
    (hheard : heard sender (.appendResponse response))
    (hterm : response.term = turn.server.term) :
    (takeAppendResponse response).Ends (fun _ last => turn.GoesOn heard last)
      (turn.GoesOn heard) turn := by
  have hstart := Turn.Retains.refl turn
  unfold takeAppendResponse
  simp only [ends_bind, ends_server]
  split
  next => exact hstart.goesOn hleads
  next cursor hcursor =>
    apply ends_ite
    · intro hsuccessful
      exact followerMatched_goesOn hleads hheard hterm hsuccessful hcursor
    · intro _
      unfold followerRefused
      rw [ends_bind, ends_modifyProgress]
      have hmoved : turn.server.Retains { turn.server with
          progress := turn.server.progress.updateCursor response.serverId
            (·.backOff response.matchLogIndex) } :=
        ⟨rfl, rfl, rfl, rfl, rfl, Cursors.matched_update _ _ (fun _ => rfl) fun _ => rfl, rfl⟩
      exact (sendAppend_retaining _ _).imp
        (fun _ _ hlast => ((hstart.step hmoved).trans hlast).goesOn hleads)
        fun _ hnever => hnever.elim

end Action

end Consensus
